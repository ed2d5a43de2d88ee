import Rv32Tools.Settings.Timestamp
import Rv32Tools.Text.Numeral

/-
  Rv32Tools.Settings.Scalar — what a scalar of a settings file stands for.

  A quoted scalar is a string. A plain one has a tag by its form: null, boolean, integer, float, timestamp, the
  merge mark `<<`, or string. Integers announce their base; a decimal one that does not fit in 64 bits is a float. A float
  is the one nearest to its decimal, and a decimal beyond the range of floats is a string.
-/

namespace Rv32Tools.Settings

structure Scalar where
  text : Text
  quoted : Bool
  deriving DecidableEq, Repr

/-- Whether a scalar is the mark that asks for the entries of another mapping. -/
def Scalar.isMerge (s : Scalar) : Bool := !s.quoted && s.text == "<<"

inductive Value where
  | null
  | bool (b : Bool)
  | int (n : Int)
  | float (x : Float)
  | timestamp
  /-- The mark that asks for the entries of another mapping. -/
  | merge
  | string

/-- The name of a tag, as messages show it. -/
def Value.tag : Value → Text
  | .null => "!!null"
  | .bool _ => "!!bool"
  | .int _ => "!!int"
  | .float _ => "!!float"
  | .timestamp => "!!timestamp"
  | .merge => "!!merge"
  | .string => "!!str"

/-- The value of the digits of an exponent. From 10000 on they are passed over, for no float is in reach there. -/
def exponentValue (ds : Text) : Nat :=
  ds.foldl (fun e d => if e < 10000 then e * 10 + (d.toNat - 0x30) else e) 0

/-- An exponent: `e` or `E`, at most one sign, digits. -/
def exponentOf? (s : Text) : Option Int :=
  match s with
  | [] => some 0
  | e :: r =>
    if Text.lowerByte e != 0x65 then none
    else
      let (negative, ds) :=
        match r with
        | 0x2D :: ds => (true, ds)
        | 0x2B :: ds => (false, ds)
        | ds => (false, ds)
      if ds.isEmpty || !ds.all Text.isDigitByte then none
      else some (if negative then -(exponentValue ds : Int) else exponentValue ds)

/-- The float of a decimal, unless it is beyond the range of floats. -/
def floatOf? (negative : Bool) (mantissa : Nat) (exponent : Int) (digits : Nat) : Option Float :=
  if mantissa == 0 || exponent + digits < -400 then some (if negative then -0.0 else 0.0)
  else if 400 < exponent then none
  else
    let x : Float := if exponent < 0 then OfScientific.ofScientific mantissa true exponent.natAbs
      else OfScientific.ofScientific mantissa false exponent.natAbs
    if x.isInf then none else some (if negative then -x else x)

/-- A decimal with an optional sign, point and exponent. -/
def decimalFloat? (s : Text) : Option Float :=
  let (negative, s) :=
    match s with
    | 0x2D :: r => (true, r)
    | 0x2B :: r => (false, r)
    | r => (false, r)
  let whole := s.takeWhile Text.isDigitByte
  let (fraction, rest, hasPoint) :=
    match s.dropWhile Text.isDigitByte with
    | 0x2E :: r => (r.takeWhile Text.isDigitByte, r.dropWhile Text.isDigitByte, true)
    | r => ([], r, false)
  if whole.isEmpty && (!hasPoint || fraction.isEmpty) then none
  else
    match exponentOf? rest with
    | none => none
    | some e =>
      floatOf? negative (digitsValue (whole ++ fraction)) (e - fraction.length) (whole.length + fraction.length)

def nullNames : List Text := ["", "~", "null", "Null", "NULL"]

def trueNames : List Text := ["true", "True", "TRUE"]

def falseNames : List Text := ["false", "False", "FALSE"]

def infinityNames : List Text := [".inf", ".Inf", ".INF", "+.inf", "+.Inf", "+.INF"]

def minusInfinityNames : List Text := ["-.inf", "-.Inf", "-.INF"]

def notANumberNames : List Text := [".nan", ".NaN", ".NAN"]

/-- A base prefix with the sign after it. -/
def lateSigned? : Text → Option Int
  | 0x30 :: 0x62 :: r => (Text.signed 64 (Text.natural 2) r).toOption
  | 0x30 :: 0x6F :: r => (Text.signed 64 (Text.natural 8) r).toOption
  | _ => none

/-- A scalar that starts with a digit or a sign. Underscores in a number are passed over. -/
def numberOf (s : Text) : Value :=
  if isTimestamp s then .timestamp
  else
    let s := s.filter (· != 0x5F)
    match Text.prefixedInteger 64 s, Text.prefixed 0xFFFFFFFFFFFFFFFF s with
    | .ok n, _ => .int n
    | .error _, .ok n => .int n
    | .error _, .error _ =>
      match decimalFloat? s, lateSigned? s with
      | some x, _ => .float x
      | none, some n => .int n
      | none, none => .string

/-- Whether every underscore of a text stands between two digits. -/
def underscoresJoin : (afterDigit : Bool) → Text → Bool
  | _, [] => true
  | afterDigit, b :: r =>
    if b == 0x5F then afterDigit && r.head?.any Text.isDigitByte && underscoresJoin false r
    else underscoresJoin (Text.isDigitByte b) r

/-- A scalar that starts with a point. Underscores may join its digits. -/
def fractionOf (s : Text) : Value :=
  if underscoresJoin false s then
    match decimalFloat? (s.filter (· != 0x5F)) with
    | some x => .float x
    | none => .string
  else .string

/-- The value of a scalar by its form. -/
def valueOf (s : Scalar) : Value :=
  let t := s.text
  if s.quoted then .string
  else if nullNames.contains t then .null
  else if trueNames.contains t then .bool true
  else if falseNames.contains t then .bool false
  else if infinityNames.contains t then .float (1.0 / 0.0)
  else if minusInfinityNames.contains t then .float (-1.0 / 0.0)
  else if notANumberNames.contains t then .float (0.0 / 0.0)
  else if s.isMerge then .merge
  else
    match t with
    | b :: _ =>
      if Text.isDigitByte b || b == 0x2B || b == 0x2D then numberOf t
      else if b == 0x2E then fractionOf t
      else .string
    | [] => .null

end Rv32Tools.Settings
