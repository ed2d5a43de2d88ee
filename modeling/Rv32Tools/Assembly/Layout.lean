import Rv32Tools.Assembly.Diagnostic
import Rv32Tools.Assembly.Symbol
import Rv32Tools.Isa.Mnemonic
import Rv32Tools.Source.Line

/-
  Rv32Tools.Assembly.Layout — the addresses of the text segment.

  Instructions take their addresses one after the other from the base on, each as wide as its name says
  (`Mnemonic.width`), and a label names the address of what follows it. Directives have no place here: they
  are passed over with a warning.
-/

namespace Rv32Tools.Assembly

open Source (Line)

/-- An instruction line and the address of its first word. -/
structure Placement where
  line : Line
  pc : Word
  deriving DecidableEq, Repr

inductive LayoutError where
  | label (e : DefineError)
  | overflow
  deriving DecidableEq, Repr

def LayoutError.message : LayoutError → Text
  | .label e => e.message
  | .overflow => "text segment overflows the 32-bit address space"

/-- A directive that was passed over. -/
structure IgnoredDirective where
  line : Nat
  name : Text
  deriving DecidableEq, Repr

def IgnoredDirective.message (i : IgnoredDirective) : Text :=
  "directive '" ++ i.name ++ "' ignored in the text segment"

/-- The segment laid out so far. `pc` is a number up to 2^32, which the end of the segment may reach. -/
structure Layout where
  pc : Nat
  symbols : SymbolTable
  placements : List Placement := []
  ignored : List IgnoredDirective := []
  deriving DecidableEq, Repr

/-- The line at which a layout stops, and why. -/
structure LayoutFault where
  line : Nat
  halt : Halt LayoutError
  deriving DecidableEq, Repr

namespace Layout

def address (y : Layout) : Word := BitVec.ofNat 32 y.pc

/-- The body of the statement on a line. -/
def body (y : Layout) (l : Line) (code : Text) : Except (Halt LayoutError) Layout :=
  if code.isEmpty then .ok y
  else
    match Source.directive? code with
    | some name => .ok { y with ignored := y.ignored ++ [⟨l.number, name⟩] }
    | none =>
      match Text.words code with
      | [] => .error (.abort .blankInstruction)
      | name :: _ =>
        let pc := y.pc + Mnemonic.width name
        if pc ≤ addressSpace then .ok { y with pc, placements := y.placements ++ [⟨l, y.address⟩] }
        else .error (.error .overflow)

def step (y : Layout) (l : Line) : Except (Halt LayoutError) Layout :=
  if l.isBlank then .ok y
  else
    let st := l.statement
    if st.label.isEmpty then y.body l st.body
    else
      match y.symbols.define ⟨st.label, y.address, .text, l.number⟩ with
      | .error e => .error (.error (.label e))
      | .ok symbols => { y with symbols }.body l st.body

/-- The layout after all lines, or before the first that stops it. -/
def place : Layout → List Line → Layout × Option LayoutFault
  | y, [] => (y, none)
  | y, l :: r =>
    match y.step l with
    | .ok y' => place y' r
    | .error halt => (y, some ⟨l.number, halt⟩)

/-- The lines of a text segment at `base`, after the labels in `symbols`. -/
def ofLines (base : Word) (symbols : SymbolTable) (ls : List Line) : Layout × Option LayoutFault :=
  place { pc := base.toNat, symbols } ls

end Layout

end Rv32Tools.Assembly
