import Rv32Tools.Text.Blank

/-
  Rv32Tools.Source.Quotes — which bytes of a line lie in quotes.

  A single or double quote mark opens a quoted part, and the same mark closes it; inside, a backslash takes
  the byte after it along. `marked` labels every byte with whether it lies in quotes, the marks included,
  and the cuts of a line are made on the labels:
  - a comment starts at the first `#` outside quotes (`splitComment`);
  - outside quotes a run of blanks is one space, and none at the ends (`collapse`);
  - operands are parted by the commas outside quotes and parentheses (`splitOperands`).
-/

namespace Rv32Tools.Source

def isQuoteMark (b : UInt8) : Bool := b == 0x22 || b == 0x27

inductive Quoting where
  | outside
  | inside (mark : UInt8)
  | escaped (mark : UInt8)
  deriving DecidableEq, Repr

def Quoting.next : Quoting → UInt8 → Quoting
  | .outside, b => if isQuoteMark b then .inside b else .outside
  | .inside mark, b => if b == 0x5C then .escaped mark else if b == mark then .outside else .inside mark
  | .escaped mark, _ => .inside mark

/-- A byte of a line and whether it lies in quotes. -/
structure Marked where
  byte : UInt8
  quoted : Bool
  deriving DecidableEq, Repr

def markFrom : Quoting → Text → List Marked
  | _, [] => []
  | q, b :: r => ⟨b, q != .outside || q.next b != .outside⟩ :: markFrom (q.next b) r

def marked (s : Text) : List Marked := markFrom .outside s

def bytesOf (ms : List Marked) : Text := ms.map Marked.byte

/-- The mark of a comment. -/
def Marked.isHash (m : Marked) : Bool := m.byte == 0x23 && !m.quoted

def Marked.isBlank (m : Marked) : Bool := Text.isColumnBlank m.byte && !m.quoted

/-- Code and comment of a line; the comment is without its `#` and without white space at its ends. -/
def splitComment (s : Text) : Text × Text :=
  let ms := marked s
  (bytesOf (ms.takeWhile (!·.isHash)), Text.trim (bytesOf (ms.dropWhile (!·.isHash)).tail))

/-- The parts of a line between blanks outside quotes. -/
def columns (s : Text) : List Text := ((Text.pieces Marked.isBlank (marked s)).filter (!·.isEmpty)).map bytesOf

/-- The line with each run of blanks outside quotes as one space. -/
def collapse (s : Text) : Text := Text.join " " (columns s)

/-- How far inside parentheses the byte after a byte is. -/
def depthAfter (depth : Int) (m : Marked) : Int :=
  if m.quoted then depth
  else if m.byte == 0x28 then depth + 1
  else if m.byte == 0x29 then depth - 1
  else depth

/-- Each byte with whether it is a comma that parts operands. -/
def commas : Int → List Marked → List (UInt8 × Bool)
  | _, [] => []
  | depth, m :: r => (m.byte, m.byte == 0x2C && !m.quoted && depth == 0) :: commas (depthAfter depth m) r

/-- The operands of a list, as written. -/
def splitOperands (s : Text) : List Text := (Text.pieces (·.2) (commas 0 (marked s))).map (·.map (·.1))

end Rv32Tools.Source
