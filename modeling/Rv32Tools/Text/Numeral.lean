import Rv32Tools.Text.Blank
import Rv32Tools.Text.Case

/-
  Rv32Tools.Text.Numeral — numbers read from text and written to it.

  A numeral is read from the left, and the first byte that rules it out says what is wrong with it: a byte
  that is no digit of the base makes it malformed, a digit that carries the value over the bound makes it
  too large.

  Three grammars are in use. `natural` takes digits of one base and nothing else. `integer` takes one sign
  before them. `prefixed` reads the base off the text: `0x`, `0b` and `0o` or a leading zero (octal), with
  single underscores allowed between digits and after such a prefix.
-/

namespace Rv32Tools.Text

inductive NumeralError where
  | malformed
  | tooLarge
  deriving DecidableEq, Repr

/-- The value of a digit or of a letter that continues the digits: `a` is ten, whatever its case. -/
def digitValue? (b : UInt8) : Option Nat :=
  if isDigitByte b then some (b.toNat - 0x30)
  else
    let l := lowerByte b
    if 0x61 ≤ l && l ≤ 0x7A then some (l.toNat - 0x57) else none

def digitIn? (base : Nat) (b : UInt8) : Option Nat :=
  match digitValue? b with
  | some d => if d < base then some d else none
  | none => none

/-- Digits of `base` appended to the value `acc`, which stays at most `bound`. -/
def digitsFrom (base bound : Nat) : Nat → Text → Except NumeralError Nat
  | acc, [] => .ok acc
  | acc, b :: r =>
    match digitIn? base b with
    | none => .error .malformed
    | some d => if acc * base + d ≤ bound then digitsFrom base bound (acc * base + d) r else .error .tooLarge

/-- One digit or more of `base`, with a value of at most `bound`. -/
def natural (base bound : Nat) (s : Text) : Except NumeralError Nat :=
  if s.isEmpty then .error .malformed else digitsFrom base bound 0 s

/-- Whether each underscore of a text follows a digit and comes before one. `ready` says that a digit or a
base prefix stands just before. -/
def underscoresSeparate : (ready : Bool) → Text → Bool
  | ready, [] => ready
  | ready, b :: r => if b == 0x5F then ready && underscoresSeparate false r else underscoresSeparate true r

/-- The base that a text announces, the digits after the announcement, and whether a base prefix was there. -/
def announced (s : Text) : Nat × Text × Bool :=
  match s with
  | 0x30 :: m :: d :: r =>
    let l := lowerByte m
    if l == 0x62 then (2, d :: r, true)
    else if l == 0x6F then (8, d :: r, true)
    else if l == 0x78 then (16, d :: r, true)
    else (8, m :: d :: r, false)
  | 0x30 :: r => (8, r, false)
  | _ => (10, s, false)

/-- A numeral that announces its base, with a value of at most `bound`. -/
def prefixed (bound : Nat) (s : Text) : Except NumeralError Nat :=
  if s.isEmpty then .error .malformed
  else
    let (base, digits, hasPrefix) := announced s
    match digitsFrom base bound 0 (digits.filter (· != 0x5F)) with
    | .error e => .error e
    | .ok n =>
      if underscoresSeparate hasPrefix (if hasPrefix then digits else s) then .ok n else .error .malformed

/-- A magnitude with at most one sign before it; the value lies in the two's complement range of `bits`. -/
def signed (bits : Nat) (magnitude : Nat → Text → Except NumeralError Nat) (s : Text) : Except NumeralError Int :=
  let half := 1 <<< (bits - 1)
  match s with
  | 0x2D :: r =>
    match magnitude ((1 <<< bits) - 1) r with
    | .error e => .error e
    | .ok n => if n ≤ half then .ok (-(n : Int)) else .error .tooLarge
  | _ =>
    match magnitude ((1 <<< bits) - 1) (match s with | 0x2B :: r => r | _ => s) with
    | .error e => .error e
    | .ok n => if n < half then .ok n else .error .tooLarge

/-- A decimal integer of `bits` bits. -/
def integer (bits : Nat) (s : Text) : Except NumeralError Int := signed bits (natural 10) s

/-- An integer of `bits` bits that announces its base. -/
def prefixedInteger (bits : Nat) (s : Text) : Except NumeralError Int := signed bits prefixed s

/-! ## Writing -/

/-- The digit of a value below sixteen. -/
def hexDigit (d : Nat) : UInt8 := if d < 10 then UInt8.ofNat (0x30 + d) else UInt8.ofNat (0x57 + d)

/-- The last `width` digits of a number in a base of at most sixteen. -/
def fixedDigits (base : Nat) : (width n : Nat) → Text
  | 0, _ => []
  | width + 1, n => fixedDigits base width (n / base) ++ [hexDigit (n % base)]

/-- `width` lower-case hexadecimal digits. -/
def hexLower (width n : Nat) : Text := fixedDigits 16 width n

/-- `width` upper-case hexadecimal digits. -/
def hexUpper (width n : Nat) : Text := (hexLower width n).map upperByte

/-- As many hexadecimal digits as a number needs. -/
def hexShort (n : Nat) : Text := (Nat.toDigits 16 n).map Char.toUInt8

def decimal (n : Nat) : Text := (Nat.toDigits 10 n).map Char.toUInt8

def decimalInt : Int → Text
  | .ofNat n => decimal n
  | .negSucc n => 0x2D :: decimal (n + 1)

def binary32 (n : Nat) : Text := fixedDigits 2 32 n

end Rv32Tools.Text
