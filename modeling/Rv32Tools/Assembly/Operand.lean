import Rv32Tools.Assembly.Symbol
import Rv32Tools.Source.Literal

/-
  Rv32Tools.Assembly.Operand — the value of an immediate operand.

  A token that is a number is that number, whatever the labels are; any other token is looked up among
  the labels.
-/

namespace Rv32Tools.Assembly

inductive Operand where
  | invalid
  | literal (value : Int)
  | label (symbol : Symbol)
  deriving DecidableEq, Repr

namespace Operand

def resolve (symbols : SymbolTable) (token : Text) : Operand :=
  match Source.number? token with
  | some v => .literal v
  | none =>
    match symbols.find? token with
    | some s => .label s
    | none => .invalid

def kindName : Operand → Text
  | .invalid => "invalid"
  | .literal _ => "literal"
  | .label _ => "label"

/-- The kind with a given tag: 1 for numbers, 2 for labels, any other for neither. -/
def kindNameAt (tag : UInt8) : Text :=
  match tag with
  | 1 => "literal"
  | 2 => "label"
  | _ => "invalid"

/-- The number, or the address of the label. -/
def value? : Operand → Option Int
  | .invalid => none
  | .literal v => some v
  | .label s => some s.address.toNat

/-- The value as a word. -/
def word? (o : Operand) : Option Word := o.value?.map (BitVec.ofInt 32)

end Operand

end Rv32Tools.Assembly
