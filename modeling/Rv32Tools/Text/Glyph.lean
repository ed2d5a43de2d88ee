import Rv32Tools.Text.Basic

/-
  Rv32Tools.Text.Glyph — the characters of a byte text.

  A text is read from the left as UTF-8. A byte that starts no well-formed sequence is a glyph of its own
  with no character; the bytes of the glyphs, in order, are the bytes of the text.
-/

namespace Rv32Tools.Text

structure Glyph where
  bytes : Text
  char : Option Char
  deriving DecidableEq

/-- A byte `10xxxxxx`, which continues a sequence and never starts one. -/
def isTail (b : UInt8) : Bool := 0x80 ≤ b && b ≤ 0xBF

/-- The six low bits that a continuation byte carries. -/
def payload (b : UInt8) : Nat := b.toNat % 64

def twoBytes? (a b : UInt8) : Option Char :=
  if 0xC2 ≤ a && a ≤ 0xDF && isTail b then some (Char.ofNat (a.toNat % 32 * 64 + payload b)) else none

/-- Three bytes hold a character that needs them and is not one half of a surrogate pair. -/
def threeBytes? (a b c : UInt8) : Option Char :=
  let n := a.toNat % 16 * 4096 + payload b * 64 + payload c
  if 0xE0 ≤ a && a ≤ 0xEF && isTail b && isTail c && 0x800 ≤ n && !(0xD800 ≤ n && n ≤ 0xDFFF) then
    some (Char.ofNat n)
  else none

def fourBytes? (a b c d : UInt8) : Option Char :=
  let n := a.toNat % 8 * 262144 + payload b * 4096 + payload c * 64 + payload d
  if 0xF0 ≤ a && a ≤ 0xF4 && isTail b && isTail c && isTail d && 0x10000 ≤ n && n ≤ 0x10FFFF then
    some (Char.ofNat n)
  else none

/-- The glyph at the front of a text, given its first byte and the bytes after it. -/
def leading (a : UInt8) (r : Text) : Glyph :=
  if a < 0x80 then ⟨[a], some (Char.ofNat a.toNat)⟩
  else
    match r with
    | b :: c :: d :: _ =>
      match twoBytes? a b, threeBytes? a b c, fourBytes? a b c d with
      | some x, _, _ => ⟨[a, b], some x⟩
      | none, some x, _ => ⟨[a, b, c], some x⟩
      | none, none, some x => ⟨[a, b, c, d], some x⟩
      | none, none, none => ⟨[a], none⟩
    | [b, c] =>
      match twoBytes? a b, threeBytes? a b c with
      | some x, _ => ⟨[a, b], some x⟩
      | none, some x => ⟨[a, b, c], some x⟩
      | none, none => ⟨[a], none⟩
    | [b] =>
      match twoBytes? a b with
      | some x => ⟨[a, b], some x⟩
      | none => ⟨[a], none⟩
    | [] => ⟨[a], none⟩

/-- The glyphs after the first `skip` bytes, which belong to a glyph that has been read. -/
def glyphsAfter : (skip : Nat) → Text → List Glyph
  | _, [] => []
  | 0, a :: r => leading a r :: glyphsAfter ((leading a r).bytes.length - 1) r
  | skip + 1, _ :: r => glyphsAfter skip r

def glyphs (s : Text) : List Glyph := glyphsAfter 0 s

/-- The bytes of glyphs in order. -/
def ofGlyphs (gs : List Glyph) : Text := gs.flatMap Glyph.bytes

/-- Blanks on the right up to `width` glyphs. -/
def padRight (width : Nat) (s : Text) : Text :=
  s ++ repeated (width - (glyphs s).length) 0x20

end Rv32Tools.Text
