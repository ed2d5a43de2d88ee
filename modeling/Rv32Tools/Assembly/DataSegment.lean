import Rv32Tools.Assembly.Diagnostic
import Rv32Tools.Assembly.Symbol
import Rv32Tools.Assembly.WordBytes
import Rv32Tools.Source.Line

/-
  Rv32Tools.Assembly.DataSegment — the bytes of data memory, directive by directive.

    .p2align n     cursor to a multiple of 2^n; only straight after a label, which moves along
    .zero n        n zero bytes
    .string ".."   the bytes of the string, then a zero byte
    .ascii 'c'     one byte
    .byte v, ..    one byte a value
    .hword v, ..   two bytes a value, at an even address
    .word v, ..    four bytes a value, at a multiple of four

  Values are little-endian. Alignment is by absolute address, with zero bytes for padding. A label waits
  for the next directive: if that one aligns the cursor, the label moves to the aligned address.

  The cursor is a 32-bit address. A write that would carry it over 2^32 fails as a whole; since a single
  byte always fits, padding and values never fail, and the cursor goes on at address 0 after the last one.

  A directive that fails keeps the bytes it wrote before it failed, and its labels wait no longer.
-/

namespace Rv32Tools.Assembly

open Source (Line LiteralError StringError)

inductive ValueError where
  | empty
  | literal (e : LiteralError)
  | hexTooWide (token : Text) (bits : Nat)
  | invalidHex (token : Text)
  | invalid (token : Text)
  | outOfRange (value : Int) (bits : Nat)
  deriving DecidableEq, Repr

def ValueError.message : ValueError → Text
  | .empty => "empty value"
  | .literal e => e.message
  | .hexTooWide token bits => "hex value '" ++ token ++ "' does not fit in " ++ Text.decimal bits ++ " bits"
  | .invalidHex token => "invalid hex value '" ++ token ++ "'"
  | .invalid token => "invalid value '" ++ token ++ "'"
  | .outOfRange value bits =>
    "value " ++ Text.decimalInt value ++ " does not fit in " ++ Text.decimal bits ++ " bits"

/-- The value of an item of `size` bytes: hexadecimal with at most two digits a byte, or decimal in the
signed or unsigned range of the item. An item of one byte may be a character literal. A negative value
comes as its two's complement in 32 bits. -/
def dataValue (size : Nat) (token : Text) : Except ValueError Word :=
  let bits := size * 8
  if token.isEmpty then .error .empty
  else if size == 1 && token.head? == some 0x27 then
    match Source.charValue token with
    | .ok b => .ok (BitVec.ofNat 32 b.toNat)
    | .error e => .error (.literal e)
  else
    match Source.hexDigits? token with
    | some digits =>
      if digits.isEmpty || 2 * size < digits.length then .error (.hexTooWide token bits)
      else
        match Text.natural 16 ((1 <<< bits) - 1) digits with
        | .ok n => .ok (BitVec.ofNat 32 n)
        | .error _ => .error (.invalidHex token)
    | none =>
      match Text.integer 64 token with
      | .error _ => .error (.invalid token)
      | .ok v =>
        if v < -((1 <<< (bits - 1) : Nat) : Int) || ((1 <<< bits : Nat) : Int) ≤ v then .error (.outOfRange v bits)
        else .ok (BitVec.ofInt 32 v)

inductive DataError where
  | label (e : DefineError)
  | instruction (body : Text)
  | unsupportedDirective (name : Text)
  | unlabelledAlignment
  | alignment (argument : Text)
  | zeroSize (argument : Text)
  | overflow
  | notQuotedString (argument : Text)
  | string (e : StringError)
  | notQuotedCharacter (argument : Text)
  | character (e : LiteralError)
  | missingValue
  | value (e : ValueError)
  deriving DecidableEq, Repr

/-- The largest exponent of an alignment. -/
def maxAlignment : Nat := 12

/-- The largest block of zero bytes. -/
def maxZeros : Nat := 0x1000000

def DataError.message : DataError → Text
  | .label e => e.message
  | .instruction body => "instruction '" ++ body ++ "' not allowed in the data segment"
  | .unsupportedDirective name => "unsupported data directive '" ++ name ++ "'"
  | .unlabelledAlignment => ".p2align must be the first directive after a label"
  | .alignment argument =>
    "invalid .p2align argument '" ++ argument ++ "' (expected 0.." ++ Text.decimal maxAlignment ++ ")"
  | .zeroSize argument => "invalid .zero size '" ++ argument ++ "'"
  | .overflow => "data segment overflows the 32-bit address space"
  | .notQuotedString argument => ".string expects one double-quoted string, got '" ++ argument ++ "'"
  | .string e => e.message
  | .notQuotedCharacter argument => ".ascii expects one single-quoted character, got '" ++ argument ++ "'"
  | .character e => e.message
  | .missingValue => "missing value"
  | .value e => e.message

structure DataSegment where
  base : Word
  bytes : List UInt8 := []
  symbols : SymbolTable
  /-- The labels that have met no directive yet. -/
  pending : List Text := []
  deriving DecidableEq, Repr

namespace DataSegment

def start (base : Word) (symbols : SymbolTable) : DataSegment := { base, symbols }

/-- The address of the next byte. -/
def cursor (d : DataSegment) : Word := d.base + BitVec.ofNat 32 d.bytes.length

/-- Whether `n` more bytes end at or below the top of the address space. -/
def fits (d : DataSegment) (n : Nat) : Bool := d.cursor.toNat + n ≤ addressSpace

def append (d : DataSegment) (bs : List UInt8) : DataSegment := { d with bytes := d.bytes ++ bs }

/-- Zero bytes up to the next multiple of `n`. -/
def align (d : DataSegment) (n : Nat) : DataSegment :=
  d.append (List.replicate ((n - d.cursor.toNat % n) % n) 0)

/-- The pending labels moved to the cursor. -/
def relabel (d : DataSegment) : DataSegment :=
  { d with symbols := d.pending.foldl (fun t name => t.moveTo name d.cursor) d.symbols }

/-- What a directive leaves behind, and what was wrong with it. -/
abbrev Step := DataSegment × Option DataError

def p2align (d : DataSegment) (argument : Text) : Step :=
  if d.pending.isEmpty then (d, some .unlabelledAlignment)
  else
    match Text.natural 10 255 argument with
    | .error _ => (d, some (.alignment argument))
    | .ok n => if n ≤ maxAlignment then ((d.align (1 <<< n)).relabel, none) else (d, some (.alignment argument))

def zeros (d : DataSegment) (argument : Text) : Step :=
  match Text.prefixed 0xFFFFFFFF argument with
  | .error _ => (d, some (.zeroSize argument))
  | .ok n =>
    if maxZeros < n then (d, some (.zeroSize argument))
    else if d.fits n then (d.append (List.replicate n 0), none)
    else (d, some .overflow)

def string (d : DataSegment) (argument : Text) : Step :=
  if !Text.enclosedBy 0x22 argument then (d, some (.notQuotedString argument))
  else
    match Source.unquote (Text.inner argument) with
    | .error e => (d, some (.string e))
    | .ok s => if d.fits (s.length + 1) then (d.append (s ++ [0]), none) else (d, some .overflow)

def character (d : DataSegment) (argument : Text) : Step :=
  if !Text.enclosedBy 0x27 argument then (d, some (.notQuotedCharacter argument))
  else
    match Source.decodeChar 0x27 (Text.inner argument) with
    | .error e => (d, some (.character e))
    | .ok b => (d.append [b], none)

/-- The bytes of the items of a list, up to the first that is no value. -/
def itemBytes (size : Nat) : List Text → List UInt8 × Option DataError
  | [] => ([], none)
  | token :: r =>
    match dataValue size (Text.trim token) with
    | .error e => ([], some (.value e))
    | .ok w =>
      let (bytes, e) := itemBytes size r
      (littleEndian size w ++ bytes, e)

def values (d : DataSegment) (size : Nat) (argument : Text) : Step :=
  if argument.isEmpty then (d, some .missingValue)
  else
    let (bytes, e) := itemBytes size (Source.splitOperands argument)
    ((d.align size).relabel.append bytes, e)

def directive (d : DataSegment) (name argument : Text) : Step :=
  if name == ".p2align" then d.p2align argument
  else if name == ".zero" then d.zeros argument
  else if name == ".string" then d.string argument
  else if name == ".ascii" then d.character argument
  else if name == ".byte" then d.values 1 argument
  else if name == ".hword" then d.values 2 argument
  else if name == ".word" then d.values 4 argument
  else (d, some (.unsupportedDirective name))

/-- The body of a statement. The argument of a directive starts after as many bytes as its name has in lower
case. -/
def body (d : DataSegment) (code : Text) : DataSegment × Option (Halt DataError) :=
  if code.isEmpty then (d, none)
  else
    match Source.directive? code with
    | none => (d, some (.error (.instruction code)))
    | some name =>
      if code.length < name.length then (d, some (.abort .directiveOverrun))
      else
        let (d', e) := d.directive name (Text.trim (code.drop name.length))
        ({ d' with pending := [] }, e.map .error)

/-- One line of the segment. -/
def line (d : DataSegment) (l : Line) : DataSegment × Option (Halt DataError) :=
  if l.isBlank then (d, none)
  else
    let st := l.statement
    if st.label.isEmpty then d.body st.body
    else
      match d.symbols.define ⟨st.label, d.cursor, .data, l.number⟩ with
      | .error e => (d, some (.error (.label e)))
      | .ok symbols => { d with symbols, pending := d.pending ++ [st.label] }.body st.body

/-- The segment as big-endian words. -/
def payload (d : DataSegment) : List UInt8 := swapped (padded d.bytes)

end DataSegment

end Rv32Tools.Assembly
