import Rv32Tools.Isa.Register

/-
  Rv32Tools.Source.Literal — numbers, characters and strings as the source spells them.

  A number is decimal or `0x` hexadecimal with at most one sign, and fits in 32 bits as a signed or as an
  unsigned value. A character literal holds one visible ASCII character, one escape, or nothing (the
  value 0). A string may hold any byte but a bare double quote; of the escapes it takes all but `\'`.
-/

namespace Rv32Tools.Source

inductive LiteralError where
  /-- A literal that is not closed by its mark. -/
  | unclosed (literal : Text)
  /-- A mark or backslash alone between marks. -/
  | bareMark (mark : UInt8) (inner : Text)
  | unsupportedByte (byte : UInt8)
  | unsupportedEscape (inner : Text)
  | manyCharacters (mark : UInt8) (inner : Text)
  deriving DecidableEq, Repr

def LiteralError.message : LiteralError → Text
  | .unclosed literal => "malformed character literal " ++ literal
  | .bareMark mark inner => "malformed character literal " ++ (mark :: inner) ++ [mark]
  | .unsupportedByte byte => "unsupported character 0x" ++ Text.hexUpper 2 byte.toNat ++ " in literal"
  | .unsupportedEscape inner => "unsupported escape sequence " ++ inner
  | .manyCharacters mark inner =>
    "character literal " ++ (mark :: inner) ++ (mark :: " must hold a single character")

/-- The value of an escape, by the byte after the backslash. -/
def escapeValue? (b : UInt8) : Option UInt8 :=
  match b with
  | 0x6E => some 0x0A
  | 0x72 => some 0x0D
  | 0x74 => some 0x09
  | 0x5C => some 0x5C
  | 0x27 => some 0x27
  | 0x22 => some 0x22
  | _ => none

/-- The byte that stands between two marks. -/
def decodeChar (mark : UInt8) (inner : Text) : Except LiteralError UInt8 :=
  match inner with
  | [] => .ok 0
  | [b] =>
    if b == 0x5C || b == mark then .error (.bareMark mark inner)
    else if b < 0x20 || 0x7E < b then .error (.unsupportedByte b)
    else .ok b
  | [0x5C, b] =>
    match escapeValue? b with
    | some v => .ok v
    | none => .error (.unsupportedEscape inner)
  | _ => .error (.manyCharacters mark inner)

/-- The byte of a character literal with its single quotes. The opening one is taken for granted. -/
def charValue (literal : Text) : Except LiteralError UInt8 :=
  if literal.length < 2 || literal.getLast? != some 0x27 then .error (.unclosed literal)
  else decodeChar 0x27 (Text.inner literal)

/-- A character literal as a two-digit hexadecimal number. -/
def charNumeral (literal : Text) : Except LiteralError Text :=
  match charValue literal with
  | .ok b => .ok ("0x" ++ Text.hexUpper 2 b.toNat)
  | .error e => .error e

inductive StringError where
  | danglingBackslash
  | unsupportedEscape (byte : UInt8)
  | bareQuote
  deriving DecidableEq, Repr

def StringError.message : StringError → Text
  | .danglingBackslash => "dangling '\\' in string"
  | .unsupportedEscape byte =>
    "unsupported escape sequence \\" ++ String.utf8EncodeChar (Char.ofNat byte.toNat) ++ " in string"
  | .bareQuote => "unescaped '\"' inside string"

/-- The bytes that a string stands for, from what is between its double quotes. -/
def unquote : Text → Except StringError Text
  | [] => .ok []
  | [b] => if b == 0x5C then .error .danglingBackslash else if b == 0x22 then .error .bareQuote else .ok [b]
  | b :: c :: r =>
    if b == 0x5C then
      match escapeValue? c with
      | some v =>
        if c == 0x27 then .error (.unsupportedEscape c)
        else
          match unquote r with
          | .ok s => .ok (v :: s)
          | .error e => .error e
      | none => .error (.unsupportedEscape c)
    else if b == 0x22 then .error .bareQuote
    else
      match unquote (c :: r) with
      | .ok s => .ok (b :: s)
      | .error e => .error e

/-- The digits of a hexadecimal numeral, after its `0x`. -/
def hexDigits? (s : Text) : Option Text := (Text.after? "0x" s).or (Text.after? "0X" s)

/-- An unsigned decimal or hexadecimal number of at most 32 bits. -/
def magnitude? (s : Text) : Option Nat :=
  match hexDigits? s with
  | some digits => (Text.natural 16 0xFFFFFFFF digits).toOption
  | none => (Text.natural 10 0xFFFFFFFF s).toOption

/-- A number with at most one sign, from -2^31 up to 2^32 - 1. -/
def number? (s : Text) : Option Int :=
  match s with
  | 0x2D :: r =>
    match magnitude? r with
    | some n => if n ≤ 0x80000000 then some (-(n : Int)) else none
    | none => none
  | 0x2B :: r => (magnitude? r).map Int.ofNat
  | _ => (magnitude? s).map Int.ofNat

end Rv32Tools.Source
