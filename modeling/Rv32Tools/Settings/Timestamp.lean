import Rv32Tools.Text.Blank

/-
  Rv32Tools.Settings.Timestamp — dates and times in settings files.

    2024-1-2
    2024-01-02 10:11:12.5
    2024-01-02T10:11:12.5+02:00
    2024-01-02t10:11:12Z

  The year has four digits, every other number one or two. The date is one of the Gregorian calendar. After `T`
  or `t` the time has a zone, after blanks it has none. A fraction of a second follows a point or a comma and may
  have any number of digits. A zone is `Z` or an offset in two and two digits, of at most 24 hours and 60 minutes.

  Each reader takes its part off the front of a text and gives back the rest.
-/

namespace Rv32Tools.Settings

/-- The value of decimal digits. -/
def digitsValue (ds : Text) : Nat := ds.foldl (fun n d => n * 10 + (d.toNat - 0x30)) 0

/-- Days of a month of the Gregorian calendar. -/
def daysIn (year month : Nat) : Nat :=
  if month == 2 then (if year % 4 == 0 && (year % 100 != 0 || year % 400 == 0) then 29 else 28)
  else if month == 4 || month == 6 || month == 9 || month == 11 then 30
  else 31

/-- A number of two digits, or of one that no other digit follows. -/
def shortNumber? : Text → Option (Nat × Text)
  | a :: b :: r =>
    if !Text.isDigitByte a then none
    else if Text.isDigitByte b then some (digitsValue [a, b], r)
    else some (digitsValue [a], b :: r)
  | [a] => if Text.isDigitByte a then some (digitsValue [a], []) else none
  | [] => none

/-- A text after one given byte. -/
def afterByte? (b : UInt8) : Text → Option Text
  | c :: r => if c == b then some r else none
  | [] => none

/-- A year of four digits. -/
def year? (s : Text) : Option (Nat × Text) :=
  let digits := s.takeWhile Text.isDigitByte
  if digits.length == 4 then some (digitsValue digits, s.dropWhile Text.isDigitByte) else none

/-- What follows a date. -/
def afterDate? (s : Text) : Option Text := do
  let (year, s) ← year? s
  let s ← afterByte? 0x2D s
  let (month, s) ← shortNumber? s
  let s ← afterByte? 0x2D s
  let (day, s) ← shortNumber? s
  if 1 ≤ month ∧ month ≤ 12 ∧ 1 ≤ day ∧ day ≤ daysIn year month then return s else none

/-- What follows a fraction of a second, if there is one. -/
def afterFraction (s : Text) : Text :=
  match s with
  | mark :: d :: r =>
    if (mark == 0x2E || mark == 0x2C) && Text.isDigitByte d then r.dropWhile Text.isDigitByte else s
  | _ => s

/-- What follows hours, minutes and seconds. -/
def afterClock? (s : Text) : Option Text := do
  let (hours, s) ← shortNumber? s
  let s ← afterByte? 0x3A s
  let (minutes, s) ← shortNumber? s
  let s ← afterByte? 0x3A s
  let (seconds, s) ← shortNumber? s
  if hours < 24 ∧ minutes < 60 ∧ seconds < 60 then return afterFraction s else none

/-- Whether a text is a zone. -/
def isZone (s : Text) : Bool :=
  match s with
  | [0x5A] => true
  | [sign, h, h', 0x3A, m, m'] =>
    (sign == 0x2B || sign == 0x2D) && [h, h', m, m'].all Text.isDigitByte && digitsValue [h, h'] ≤ 24 &&
      digitsValue [m, m'] ≤ 60
  | _ => false

def isTimestamp (s : Text) : Bool :=
  match afterDate? s with
  | none => false
  | some [] => true
  | some (mark :: r) =>
    if mark == 0x20 then afterClock? (r.dropWhile (· == 0x20)) == some []
    else if mark == 0x54 || mark == 0x74 then (afterClock? r).any isZone
    else false

end Rv32Tools.Settings
