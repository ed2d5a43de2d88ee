import Rv32Tools.Assembly.Run
import Rv32Tools.Report.Log

/-
  Rv32Tools.Report.Console — what the assembler prints for a source.

  Headings, verdicts and notes have colours of their own. How a console shows them is left to it (`Console`). On a
  terminal in colour (`Console.terminal`) a row is one whole row of colour, switched off before its end; other coloured
  text is switched on and never off.
-/

namespace Rv32Tools.Report

open Assembly (Result Symbol SymbolTable)

inductive Ink where
  | heading
  | good
  | bad
  | note
  deriving DecidableEq, Repr

structure Console where
  /-- A row of its own. -/
  row : Ink → Text → Text
  text : Ink → Text → Text

namespace Console

def banner (c : Console) : Text :=
  c.row .heading "\npqr5asm - PQR5 RV32I assembler" ++
    "(c) 2024 - 2026 Zayn Otley\nhttps://github.com/IntuitionAmiga/IntuitionEngine\nLicense: GPLv3 or later\n"

/-- A heading, underlined to its length in bytes. -/
def heading (c : Console) (title : Text) : Text :=
  "\n" ++ c.row .heading title ++ c.row .heading (Text.repeated title.length 0x3D)

def labelRow (s : Symbol) : Text :=
  Text.padRight 24 s.name ++ " 0x" ++ Text.hexUpper 8 s.address.toNat ++ " " ++ s.segment.name ++ "\n"

def labelTable (c : Console) (symbols : SymbolTable) : Text :=
  c.heading "Label table" ++
    (if symbols.entries.isEmpty then Text.ofString "(no labels)\n"
    else Text.padRight 24 "Label" ++ " " ++ Text.padRight 10 "Address" ++ " Segment\n" ++ symbols.sorted.flatMap labelRow)

def listing (c : Console) (rows : List Text) : Text := c.heading "Listing" ++ Text.unlines rows

def summary (c : Console) (r : Result) : Text :=
  let rule := c.row .heading (Text.repeated 58 0x3D)
  "\n" ++ rule ++ c.row .heading "+                        Summary                         +" ++ rule ++
    "Total no. of lines of code parsed     = " ++ Text.decimal r.lines ++ "\n" ++
    "Total no. of instructions parsed      = " ++ Text.decimal r.instructions ++ "\n" ++
    "Total no. of instructions with ERRORS = " ++ Text.decimal r.failed ++ "\n" ++
    (if r.warnings.isEmpty then []
    else c.text .note ("Total no. of WARNINGS                 = " ++ Text.decimal r.warnings.length ++ "\n")) ++
    (if r.isOk then
      c.row .good "\n|| SUCCESS ||" ++ "Successfully parsed the assembly code and converted to binary code...\n"
    else c.row .bad "\n|| FAIL ||" ++ "Failed to parse the assembly code due to errors...\n")

def wrote (c : Console) (path : Text) : Text := c.text .note ("| INFO : wrote " ++ path ++ "\n")

def fatal (c : Console) (message : Text) : Text := c.text .bad ("| FATAL: " ++ message ++ "\n")

end Console

/-! ## Terminals -/

/-- The numbers of the terminal colour. -/
def Ink.color : Ink → Text
  | .heading => "35;1"
  | .good => "32;1"
  | .bad => "31;1"
  | .note => "36"

def Console.terminal (inColor : Bool) : Console where
  row ink s := (if inColor then paint ink.color ++ s ++ paint "0;22" else s) ++ "\n"
  text ink s := if inColor then paint ink.color ++ s else s

end Rv32Tools.Report
