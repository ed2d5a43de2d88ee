import Rv32Tools.Assembly.Run
import Rv32Tools.Text.Quoted

/-
  Rv32Tools.Report.Dump — sections and labels field by field, for debugging.
-/

namespace Rv32Tools.Report

open Assembly (Sections Symbol Region)

/-- A row of a record: name, type and value of a field. -/
def dumpField (indent : Nat) (name type value : Text) : Text :=
  Text.repeated indent 0x20 ++ name ++ ": (" ++ type ++ ") " ++ value

/-- A record in braces, with a comma after each row but the last. -/
def dumpRecord (indent : Nat) (type : Text) (rows : List Text) : Text :=
  let margin : Text := Text.repeated indent 0x20
  margin ++ "(" ++ type ++ ") \x7b\n" ++ Text.join ",\n" rows ++ "\n" ++ margin ++ "\x7d"

def dumpSections (s : Sections) : Text :=
  let data : Region := s.data.getD {}
  dumpRecord 0 "assembler.Sections" [
    dumpField 1 "HasData" "bool" (if s.data.isSome then "true" else "false"),
    dumpField 1 "DataStart" "int" (Text.decimal data.start),
    dumpField 1 "DataEnd" "int" (Text.decimal data.stop),
    dumpField 1 "DataBase" "uint32" (Text.decimal data.base.toNat),
    dumpField 1 "TextStart" "int" (Text.decimal s.text.start),
    dumpField 1 "TextEnd" "int" (Text.decimal s.text.stop),
    dumpField 1 "TextBase" "uint32" (Text.decimal s.text.base.toNat)]

def dumpSymbol (s : Symbol) : Text :=
  dumpRecord 1 "assembler.Symbol" [
    dumpField 2 "Name" "string" ("(len=" ++ Text.decimal s.name.length ++ ") " ++ Text.quoted s.name),
    dumpField 2 "Address" "uint32" (Text.decimal s.address.toNat),
    dumpField 2 "Segment" "assembler.Segment" s.segment.name,
    dumpField 2 "Line" "int" (Text.decimal s.line)]

def dumpSymbols (ss : List Symbol) : Text :=
  let count := Text.decimal ss.length
  if ss.isEmpty then "([]assembler.Symbol) \x7b\n\x7d"
  else
    "([]assembler.Symbol) (len=" ++ count ++ " cap=" ++ count ++ ") \x7b\n" ++
      Text.join ",\n" (ss.map dumpSymbol) ++ "\n\x7d"

def dump (sections : Sections) (ss : List Symbol) : Text := dumpSections sections ++ "\n" ++ dumpSymbols ss ++ "\n"

end Rv32Tools.Report
