import Rv32Tools.Source.Quotes
import Rv32Tools.Isa.Register

/-
  Rv32Tools.Source.Statement — the parts of a statement.

  A statement is a label, or a body, or a label and a body. The label is the first word up to a space or
  tab, if it ends in a colon and holds no quote mark; a colon alone is an empty label, which counts as
  none. A body that starts with a dot is a directive.

  Inside a body, `tightenCalls` takes the blanks out of calls, `%hi ( x )` becoming `%hi(x)`, and
  `indexed?` takes `offset(register)` apart.
-/

namespace Rv32Tools.Source

structure Statement where
  label : Text
  body : Text
  deriving DecidableEq, Repr

def Statement.ofCode (code : Text) : Statement :=
  let first := code.takeWhile (!Text.isGap ·)
  if Text.endsWith ":" first && !first.any isQuoteMark then
    ⟨first.dropLast, Text.trim (code.dropWhile (!Text.isGap ·))⟩
  else ⟨[], code⟩

/-- The name of a directive, in lower case and with its dot. -/
def directive? (body : Text) : Option Text :=
  if body.head? == some 0x2E then some (Text.toLower (body.takeWhile (!Text.isGap ·))) else none

def isParen (b : UInt8) : Bool := b == 0x28 || b == 0x29

def trimCallBlanks (s : Text) : Text :=
  ((s.dropWhile Text.isCallBlank).reverse.dropWhile Text.isCallBlank).reverse

/-- A call after its `%`: its name, the text in its parentheses, and what follows them. Blanks may
stand around the opening parenthesis and inside; the text holds no parenthesis. -/
def call? (s : Text) : Option (Text × Text × Text) :=
  let name := s.takeWhile Text.isWordByte
  match (s.dropWhile Text.isWordByte).dropWhile Text.isCallBlank with
  | 0x28 :: r =>
    match r.dropWhile (!isParen ·) with
    | 0x29 :: rest =>
      if name.isEmpty then none else some (name, trimCallBlanks (r.takeWhile (!isParen ·)), rest)
    | _ => none
  | _ => none

/-- `skip` bytes belong to a call that has been written. -/
def tightenFrom : (skip : Nat) → Text → Text
  | _, [] => []
  | 0, b :: r =>
    if b == 0x25 then
      match call? r with
      | some (name, argument, rest) =>
        (0x25 :: name) ++ (0x28 :: argument) ++ (0x29 :: tightenFrom (r.length - rest.length) r)
      | none => b :: tightenFrom 0 r
    else b :: tightenFrom 0 r
  | skip + 1, _ :: r => tightenFrom skip r

/-- The text with the blanks of its calls taken out. -/
def tightenCalls (s : Text) : Text := tightenFrom 0 s

/-- Whether a text ends in `%` and a name, so that a parenthesis after it opens a call. -/
def endsInCallName (s : Text) : Bool :=
  let back := s.reverse
  !(back.takeWhile Text.isWordByte).isEmpty && (back.dropWhile Text.isWordByte).head? == some 0x25

/-- A register in parentheses at the end of an operand, and the offset before it, which is `0` when there is
none. The parentheses of a call do not count. -/
def indexed? (operand : Text) : Option (Text × Text) :=
  let back := operand.reverse
  let offset := (back.dropWhile (· != 0x28)).tail.reverse
  let tail := (back.takeWhile (· != 0x28)).reverse
  let reg := trimCallBlanks tail.dropLast
  if operand.contains 0x28 && tail.getLast? == some 0x29 && !reg.isEmpty && reg.all Text.isAlnumByte &&
      !offset.contains 0x0A && (Reg.ofText? reg).isSome && !endsInCallName offset then
    let imm := (Text.trim offset).filter (· != 0x20)
    some (reg, if (Text.trim offset).isEmpty then "0" else imm)
  else none

end Rv32Tools.Source
