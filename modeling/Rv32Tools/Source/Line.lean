import Rv32Tools.Source.Literal
import Rv32Tools.Source.Statement

/-
  Rv32Tools.Source.Line — a source file as lines in one spelling.

  Every line of the file gives one `Line` with its number, so that numbers are those of the file. The
  comment is taken off and blanks are made single. A directive keeps its argument as written. In an
  instruction
  - blanks are taken out of `%name(..)` calls,
  - a character literal becomes a two-digit hexadecimal number,
  - `offset(register)` becomes the register and then the offset,
  - commas go, and single spaces part the operands.
  A character literal that is none leaves the code as it was, and the line carries the reason as its fault.
-/

namespace Rv32Tools.Source

structure Line where
  number : Nat
  text : Text := []
  comment : Text := []
  /-- Why the line cannot be taken. -/
  fault : Option Text := none
  deriving DecidableEq, Repr

namespace Line

def isBlank (l : Line) : Bool := l.text.isEmpty

def words (l : Line) : List Text := Text.words l.text

def statement (l : Line) : Statement := Statement.ofCode l.text

def directive? (l : Line) : Option Text := Source.directive? l.statement.body

/-- The words that an operand comes to. -/
def operandWords (operand : Text) : Except LiteralError (List Text) :=
  let operand := Text.trim operand
  if operand.head? == some 0x27 then
    match charNumeral operand with
    | .ok numeral => .ok [numeral]
    | .error e => .error e
  else
    match indexed? operand with
    | some (reg, offset) => .ok [reg, offset]
    | none => .ok (Text.words operand)

/-- The words of all operands, up to the first that cannot be taken. -/
def allOperandWords : List Text → Except LiteralError (List Text)
  | [] => .ok []
  | operand :: r =>
    match operandWords operand, allOperandWords r with
    | .error e, _ => .error e
    | .ok _, .error e => .error e
    | .ok ws, .ok rest => .ok (ws ++ rest)

/-- An instruction in one spelling: its name and the words of its operands. -/
def instructionWords (body : Text) : Except LiteralError (List Text) :=
  let body := tightenCalls body
  let name := body.takeWhile (· != 0x20)
  match body.dropWhile (· != 0x20) with
  | [] => .ok [name]
  | _ :: operands =>
    match allOperandWords (splitOperands operands) with
    | .ok ws => .ok (name :: ws)
    | .error e => .error e

/-- The line with the given number, from its text in the file. -/
def ofRaw (number : Nat) (raw : Text) : Line :=
  let (code, comment) := splitComment raw
  let code := collapse code
  let st := Statement.ofCode code
  if code.isEmpty then { number, comment }
  else if st.body.isEmpty || st.body.head? == some 0x2E then { number, comment, text := code }
  else
    match instructionWords st.body with
    | .error e => { number, comment, text := code, fault := some e.message }
    | .ok ws =>
      let text := Text.join " " ws
      { number, comment, text := if st.label.isEmpty then text else st.label ++ ": " ++ text }

/-- The text with each carriage return and line feed pair as a line feed. -/
def unifyEnds : Text → Text
  | [] => []
  | [b] => [b]
  | b :: c :: r => if b == 0x0D && c == 0x0A then 0x0A :: unifyEnds r else b :: unifyEnds (c :: r)

/-- The lines of a file without their ends; what follows the last end is a line if it is not empty. -/
def rawLines (source : Text) : List Text :=
  let rows := Text.pieces (· == 0x0A) (unifyEnds source)
  if rows.getLast? == some [] then rows.dropLast else rows

/-- Raw lines numbered from `number` on. -/
def numbered : (number : Nat) → List Text → List Line
  | _, [] => []
  | number, raw :: r => ofRaw number raw :: numbered (number + 1) r

def ofSource (source : Text) : List Line := numbered 1 (rawLines source)

end Line

end Rv32Tools.Source
