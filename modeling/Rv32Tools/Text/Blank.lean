import Rv32Tools.Text.Glyph

/-
  Rv32Tools.Text.Blank — blanks, and texts cut at them.

  Three notions of blank are in use. Words and trimmed ends go by the Unicode white space characters;
  the columns of a source line by the five byte blanks (`isColumnBlank`); the inside of a `%name(..)` call by
  the blanks of `isCallBlank`.
-/

namespace Rv32Tools.Text

/-- The characters with the Unicode property White_Space. -/
def isWhite (c : Char) : Bool :=
  let n := c.toNat
  (0x09 ≤ n && n ≤ 0x0D) || n == 0x20 || n == 0x85 || n == 0xA0 || n == 0x1680 ||
  (0x2000 ≤ n && n ≤ 0x200A) || n == 0x2028 || n == 0x2029 || n == 0x202F || n == 0x205F || n == 0x3000

def Glyph.isBlank (g : Glyph) : Bool :=
  match g.char with
  | some c => isWhite c
  | none => false

/-- The text without white space at its ends. -/
def trim (s : Text) : Text :=
  ofGlyphs ((((glyphs s).dropWhile Glyph.isBlank).reverse.dropWhile Glyph.isBlank).reverse)

/-- The maximal runs of a text that hold no white space. -/
def words (s : Text) : List Text :=
  ((pieces Glyph.isBlank (glyphs s)).filter (!·.isEmpty)).map ofGlyphs

/-- Space, tab, carriage return, vertical tab, form feed. -/
def isColumnBlank (b : UInt8) : Bool := b == 0x20 || b == 0x09 || b == 0x0D || b == 0x0B || b == 0x0C

/-- Space, tab, line feed, form feed, carriage return. -/
def isCallBlank (b : UInt8) : Bool := b == 0x20 || b == 0x09 || b == 0x0A || b == 0x0C || b == 0x0D

/-- Space or tab: what ends the first word of a statement. -/
def isGap (b : UInt8) : Bool := b == 0x20 || b == 0x09

/-- A letter of the alphabet, a digit or an underscore. -/
def isWordByte (b : UInt8) : Bool :=
  (0x30 ≤ b && b ≤ 0x39) || (0x41 ≤ b && b ≤ 0x5A) || (0x61 ≤ b && b ≤ 0x7A) || b == 0x5F

def isDigitByte (b : UInt8) : Bool := 0x30 ≤ b && b ≤ 0x39

def isAlnumByte (b : UInt8) : Bool :=
  isDigitByte b || (0x41 ≤ b && b ≤ 0x5A) || (0x61 ≤ b && b ≤ 0x7A)

end Rv32Tools.Text
