import Rv32Tools.Assembly.Layout
import Rv32Tools.Assembly.Operand
import Rv32Tools.Isa.Format

/-
  Rv32Tools.Assembly.Relocation — the halves of an address, written in an instruction.

    %hi(x)        upper half of x
    %lo(x)        low twelve bits of x
    %pcrel_hi(x)  upper half of the distance from this instruction to x
    %pcrel_lo(x)  low twelve bits of the distance from the last `%pcrel_hi` of the same x

  `x` is a number or a label, and each call is replaced by a number once all labels are known. A call whose
  `x` is neither stays as it is. A `%pcrel_lo` with no `%pcrel_hi` before it measures from its own
  instruction, with a warning.
-/

namespace Rv32Tools.Assembly

inductive Relocation where
  | hi
  | lo
  | pcrelHi
  | pcrelLo
  deriving DecidableEq, Repr

namespace Relocation

/-- The relocation of a name, in any case. -/
def ofName? (name : Text) : Option Relocation :=
  let name := name.map Text.lowerByte
  if name == "hi" then some .hi
  else if name == "lo" then some .lo
  else if name == "pcrel_hi" then some .pcrelHi
  else if name == "pcrel_lo" then some .pcrelLo
  else none

def isArgumentByte (b : UInt8) : Bool := !Source.isParen b && !Text.isCallBlank b

/-- A call after its `%`: the relocation, its argument and what follows. -/
def call? (s : Text) : Option (Relocation × Text × Text) :=
  match ofName? (s.takeWhile Text.isWordByte), s.dropWhile Text.isWordByte with
  | some m, 0x28 :: r =>
    match r.takeWhile isArgumentByte, r.dropWhile isArgumentByte with
    | a :: argument, 0x29 :: rest => some (m, a :: argument, rest)
    | _, _ => none
  | _, _ => none

/-- What the calls so far leave for the ones to come, and have to report. -/
structure Memory where
  /-- Where the last `%pcrel_hi` of each argument stood, newest first. -/
  anchors : List (Text × Word) := []
  /-- Lines and arguments of `%pcrel_lo` calls without an anchor. -/
  unanchored : List (Nat × Text) := []
  replaced : Nat := 0
  deriving DecidableEq, Repr

def unanchoredMessage (argument : Text) : Text :=
  "%pcrel_lo(" ++ argument ++ ") has no preceding %pcrel_hi, using this instruction's address"

/-- The value of a call at `pc` on line `number`, where `target` is the value of its argument. -/
def value (memory : Memory) (number : Nat) (pc : Word) (m : Relocation) (argument : Text) (target : Word) : Word × Memory :=
  let memory := { memory with replaced := memory.replaced + 1 }
  match m with
  | .hi => (target.highRounded.setWidth 32, memory)
  | .lo => (target.low.setWidth 32, memory)
  | .pcrelHi => ((target - pc).highRounded.setWidth 32, { memory with anchors := (argument, pc) :: memory.anchors })
  | .pcrelLo =>
    match memory.anchors.lookup argument with
    | some anchor => ((target - anchor).low.setWidth 32, memory)
    | none => ((target - pc).low.setWidth 32, { memory with unanchored := memory.unanchored ++ [(number, argument)] })

/-- A number as calls are replaced by it. -/
def numeral (w : Word) : Text := "0x" ++ (Text.hexShort w.toNat).map Text.upperByte

/-- `skip` bytes belong to a call that has been replaced. -/
def expandFrom (symbols : SymbolTable) (number : Nat) (pc : Word) :
    (skip : Nat) → Memory → Text → Text × Memory
  | _, memory, [] => ([], memory)
  | skip + 1, memory, _ :: r => expandFrom symbols number pc skip memory r
  | 0, memory, b :: r =>
    if b == 0x25 then
      match call? r with
      | some (m, argument, rest) =>
        match (Operand.resolve symbols argument).word? with
        | some target =>
          let (v, memory) := value memory number pc m argument target
          let (tail, memory) := expandFrom symbols number pc (r.length - rest.length) memory r
          (numeral v ++ tail, memory)
        | none =>
          let (tail, memory) := expandFrom symbols number pc 0 memory r
          (b :: tail, memory)
      | none =>
        let (tail, memory) := expandFrom symbols number pc 0 memory r
        (b :: tail, memory)
    else
      let (tail, memory) := expandFrom symbols number pc 0 memory r
      (b :: tail, memory)

/-- One placed instruction with its calls replaced; a line at fault is left alone. -/
def expandOne (symbols : SymbolTable) (memory : Memory) (p : Placement) : Placement × Memory :=
  if p.line.fault.isSome then (p, memory)
  else
    let (text, memory) := expandFrom symbols p.line.number p.pc 0 memory p.line.text
    ({ p with line := { p.line with text } }, memory)

/-- All placed instructions in order. -/
def expandAll (symbols : SymbolTable) : Memory → List Placement → List Placement × Memory
  | memory, [] => ([], memory)
  | memory, p :: r =>
    let (p, memory) := expandOne symbols memory p
    let (r, memory) := expandAll symbols memory r
    (p :: r, memory)

end Relocation

end Rv32Tools.Assembly
