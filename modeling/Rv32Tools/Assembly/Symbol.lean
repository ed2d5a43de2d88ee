import Rv32Tools.Text.Numeral
import Rv32Tools.Isa.Register

/-
  Rv32Tools.Assembly.Symbol — labels and the table that holds them.

  One table serves both segments: names are case-sensitive and unique in it. Entries stay in the order of
  definition; a data label may be moved to another address after it is defined, and nothing else changes
  in an entry.
-/

namespace Rv32Tools.Assembly

/-- The address space of a label, by its tag. Tag 1 is data memory; every other tag is read as instruction
memory, and 0 is the one in use. -/
structure Segment where
  tag : UInt8
  deriving DecidableEq, Repr

namespace Segment

def text : Segment := ⟨0⟩

def data : Segment := ⟨1⟩

def name (s : Segment) : Text := if s = data then "data" else "text"

end Segment

structure Symbol where
  name : Text
  address : Word
  segment : Segment
  line : Nat
  deriving DecidableEq, Repr

/-- A letter or underscore, then letters, digits and underscores. -/
def isLabelName (name : Text) : Bool :=
  match name with
  | [] => false
  | b :: _ => !Text.isDigitByte b && name.all Text.isWordByte

inductive DefineError where
  | invalidName (name : Text)
  | duplicate (earlier : Symbol)
  deriving DecidableEq, Repr

def DefineError.message : DefineError → Text
  | .invalidName name => "invalid label name '" ++ name ++ "'"
  | .duplicate earlier =>
    "label '" ++ earlier.name ++ "' already defined at line " ++ Text.decimal earlier.line ++
      " (" ++ earlier.segment.name ++ " segment)"

/-- The labels in order of definition. -/
structure SymbolTable where
  entries : List Symbol
  deriving DecidableEq, Repr

namespace SymbolTable

def empty : SymbolTable := ⟨[]⟩

def size (t : SymbolTable) : Nat := t.entries.length

def find? (t : SymbolTable) (name : Text) : Option Symbol := t.entries.find? (·.name == name)

def define (t : SymbolTable) (s : Symbol) : Except DefineError SymbolTable :=
  if !isLabelName s.name then .error (.invalidName s.name)
  else
    match t.find? s.name with
    | some earlier => .error (.duplicate earlier)
    | none => .ok ⟨t.entries ++ [s]⟩

/-- The table with one label moved; a name that is not in it changes nothing. -/
def moveTo (t : SymbolTable) (name : Text) (address : Word) : SymbolTable :=
  ⟨t.entries.map fun s => if s.name == name then { s with address } else s⟩

/-- The labels of one segment, in order of definition. -/
def ofSegment (t : SymbolTable) (segment : Segment) : List Symbol := t.entries.filter (·.segment = segment)

end SymbolTable

/-- Higher segment tags first, then lower addresses, then names. -/
def Symbol.before (a b : Symbol) : Bool :=
  if a.segment ≠ b.segment then b.segment.tag < a.segment.tag
  else if a.address ≠ b.address then a.address.toNat < b.address.toNat
  else Text.before a.name b.name

/-- All labels by segment, address and name. -/
def SymbolTable.sorted (t : SymbolTable) : List Symbol := t.entries.mergeSort fun a b => !b.before a

end Rv32Tools.Assembly
