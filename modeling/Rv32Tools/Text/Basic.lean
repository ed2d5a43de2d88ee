/-
  Rv32Tools.Text.Basic — text is a string of bytes.

  Source files, file names and messages are byte strings. A byte that belongs to no character is kept as
  it is, and every length is a number of bytes; what needs characters reads them off the bytes
  (`Rv32Tools.Text.Glyph`).
-/

namespace Rv32Tools

abbrev Text := List UInt8

namespace Text

def ofString (s : String) : Text := s.toList.flatMap String.utf8EncodeChar

instance : Coe String Text := ⟨ofString⟩

/-- The parts of a list between the elements that satisfy `p`: one more than there are such elements. -/
def pieces {α : Type} (p : α → Bool) : List α → List (List α)
  | [] => [[]]
  | a :: r =>
    if p a then [] :: pieces p r
    else
      match pieces p r with
      | [] => [[a]]
      | x :: xs => (a :: x) :: xs

/-- What follows `p` in a text that starts with `p`. -/
def after? : (p s : Text) → Option Text
  | [], s => some s
  | _ :: _, [] => none
  | a :: p, b :: s => if a = b then after? p s else none

def startsWith (p s : Text) : Bool := p.isPrefixOf s

def endsWith (p s : Text) : Bool := p.isSuffixOf s

/-- The text without its first and its last byte. -/
def inner (s : Text) : Text := s.tail.dropLast

/-- Whether a text of at least two bytes begins and ends with `b`. -/
def enclosedBy (b : UInt8) (s : Text) : Bool :=
  2 ≤ s.length && s.head? == some b && s.getLast? == some b

/-- The same byte `n` times. -/
def repeated (n : Nat) (b : UInt8) : Text := List.replicate n b

/-- Texts with `sep` between each two. -/
def join (sep : Text) (parts : List Text) : Text := List.intercalate sep parts

/-- Each text with an end of line after it. -/
def unlines (rows : List Text) : Text := rows.flatMap (· ++ [10])

/-- Bytes in order, as numbers; a text comes before its extensions. -/
def before : (s t : Text) → Bool
  | _, [] => false
  | [], _ :: _ => true
  | a :: s, b :: t => a < b || (a == b && before s t)

end Text

end Rv32Tools
