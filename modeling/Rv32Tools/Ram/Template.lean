import Rv32Tools.Text.Numeral

/-
  Rv32Tools.Ram.Template — a RAM in SystemVerilog, made from a reference one.

  Row by row: a row that starts with `module` becomes the head of the new module; one that starts with
  `endmodule` gets the initial contents in front of it, if there are any to give; the parameters `DEPTH` and
  `DATA_W` get new values. Every other row stays.
-/

namespace Rv32Tools.Ram

def generatedMark : Text := "//**AUTOGENERATED**//"

structure Substitution where
  moduleName : Text
  depth : Int
  /-- Zero leaves the width as it is. -/
  dataWidth : Int
  /-- The rows of the initial block. -/
  contents : Option (List Text)
  deriving DecidableEq, Repr

/-- The initial block and the end of the module. -/
def initialBlock (contents : List Text) : List Text :=
  [generatedMark, Text.ofString "// Supported for initialization by most FPGA Block RAMs", Text.ofString "initial begin"] ++
    contents ++ [Text.ofString "end", generatedMark, [], Text.ofString "endmodule"]

/-- The parameter that a row declares. -/
def parameter? (row : Text) : Option Text :=
  match Text.words row with
  | keyword :: name :: _ => if keyword == "parameter" then some name else none
  | _ => none

def Substitution.row (s : Substitution) (row : Text) : List Text :=
  if Text.startsWith "module" row then [Text.ofString "module " ++ s.moduleName ++ " #("]
  else
    match s.contents, Text.startsWith "endmodule" row with
    | some contents, true => initialBlock contents
    | _, _ =>
      if parameter? row == some "DEPTH" then
        [Text.ofString "   parameter  DEPTH  = " ++ Text.decimalInt s.depth ++ " ,    // Depth of RAM " ++ generatedMark]
      else if parameter? row == some "DATA_W" && s.dataWidth != 0 then
        [Text.ofString "   parameter  DATA_W = " ++ Text.decimalInt s.dataWidth ++ " ,    // Data width " ++ generatedMark]
      else [row]

def Substitution.apply (s : Substitution) (template : List Text) : List Text := template.flatMap s.row

end Rv32Tools.Ram
