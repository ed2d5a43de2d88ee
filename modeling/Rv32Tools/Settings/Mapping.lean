import Rv32Tools.Settings.Decoder
import Rv32Tools.Settings.Scalar
import Rv32Tools.Text.Quoted

/-
  Rv32Tools.Settings.Mapping — settings files: one `key: value` a line, in the plain block form of YAML.

  A value is a plain scalar, a scalar in single or double quotes, or absent. Blank lines and comments are
  passed over, and a document marker `---` may stand in front. What a scalar stands for is told in
  `Rv32Tools.Settings.Scalar`.

  `decode` reads the entries into a record whose fields are booleans, integers or texts. A null leaves its
  field as it is. If a key stands twice nothing else is reported. Otherwise, if `<<` is a key, that is: it asks
  for the entries of another mapping, and no value here is a mapping. Otherwise every unknown key and every
  value that does not go into its field is, in the order of the file.
-/

namespace Rv32Tools.Settings

structure Entry where
  line : Nat
  key : Scalar
  value : Scalar
  deriving DecidableEq, Repr

/-! ## Reading entries -/

def isSpace (b : UInt8) : Bool := b == 0x20 || b == 0x09

def trimSpaces (s : Text) : Text := ((s.dropWhile isSpace).reverse.dropWhile isSpace).reverse

/-- A line up to a comment: a `#` at the start or after a blank. -/
def beforeComment : (afterBlank : Bool) → Text → Text
  | _, [] => []
  | afterBlank, b :: r => if b == 0x23 && afterBlank then [] else b :: beforeComment (isSpace b) r

/-- The scalar at the start of a text. -/
def scalarOf (s : Text) : Scalar :=
  match s.dropWhile isSpace with
  | 0x27 :: r => ⟨r.takeWhile (· != 0x27), true⟩
  | 0x22 :: r => ⟨r.takeWhile (· != 0x22), true⟩
  | r => ⟨trimSpaces (beforeComment true r), false⟩

/-- The text before the colon of an entry and the text after it. The colon is followed by a blank or ends
the line. -/
def cutAtColon : Text → Option (Text × Text)
  | [] => none
  | b :: r =>
    if b == 0x3A && (match r with | [] => true | c :: _ => isSpace c) then some ([], r)
    else
      match cutAtColon r with
      | some (key, value) => some (b :: key, value)
      | none => none

/-- The text after the quoted scalar that a text starts with; nothing is taken off a plain one. -/
def afterQuoted (s : Text) : Text :=
  match s with
  | [] => []
  | q :: r => if q == 0x22 || q == 0x27 then (r.dropWhile (· != q)).drop 1 else s

/-- The entry on a row. A colon in a quoted key is part of the key. -/
def entryOf (line : Nat) (row : Text) : Entry :=
  match cutAtColon (afterQuoted row) with
  | some (key, value) => ⟨line, scalarOf (if afterQuoted row == row then key else row), scalarOf value⟩
  | none => ⟨line, scalarOf row, ⟨[], false⟩⟩

/-- A document: its entries, and whether there is one at all. -/
structure Document where
  present : Bool := false
  entries : List Entry := []
  deriving DecidableEq, Repr

def readRows (doc : Document) : (line : Nat) → List Text → Document
  | _, [] => doc
  | line, row :: r =>
    let code := trimSpaces (beforeComment true row)
    if code.isEmpty then readRows doc (line + 1) r
    else if code == "---" then readRows { doc with present := true } (line + 1) r
    else readRows ⟨true, doc.entries ++ [entryOf line row]⟩ (line + 1) r

/-- A row without the carriage return that may end it. -/
def withoutReturn (row : Text) : Text := if row.getLast? == some 0x0D then row.dropLast else row

def Document.ofText (s : Text) : Document :=
  readRows {} 1 ((Text.pieces (· == 0x0A) s).map withoutReturn)

/-! ## Reading records -/

/-- A field of a record, by what goes into it. -/
inductive Slot (σ : Type) where
  | bool (set : σ → Bool → σ)
  | int (set : σ → Int → σ)
  | text (set : σ → Text → σ)

def Slot.typeName {σ : Type} : Slot σ → Text
  | .bool _ => "bool"
  | .int _ => "int"
  | .text _ => "string"

inductive EntryError where
  | duplicate (line : Nat) (key : Text) (first : Nat)
  | unknown (line : Nat) (key : Text) (record : Text)
  | mismatch (line : Nat) (tag value type : Text)
  deriving DecidableEq, Repr

/-- A value as a message shows it: what is longer than ten bytes is cut to seven. -/
def shown (s : Text) : Text := if 10 < s.length then s.take 7 ++ "..." else s

def EntryError.message : EntryError → Text
  | .duplicate line key first =>
    "line " ++ Text.decimal line ++ ": mapping key " ++ Text.quoted key ++ " already defined at line " ++
      Text.decimal first
  | .unknown line key record =>
    "line " ++ Text.decimal line ++ ": field " ++ key ++ " not found in type " ++ record
  | .mismatch line tag value type =>
    "line " ++ Text.decimal line ++ ": cannot unmarshal " ++ tag ++ " `" ++ shown value ++ "` into " ++ type

def errorsText (errors : List EntryError) : Text :=
  "yaml: unmarshal errors:\n  " ++ Text.join "\n  " (errors.map EntryError.message)

/-- Words for true and false that a boolean field takes besides the boolean ones, in quotes or not. -/
def spokenBool? (t : Text) : Option Bool :=
  let yes : List Text := ["y", "Y", "yes", "on"]
  let no : List Text := ["n", "N", "no", "off"]
  if yes.contains t then some true else if no.contains t then some false else none

/-- A float without its fraction, as a 64-bit integer. What is too large has none; what is too small is the
least integer. -/
def truncated? (x : Float) : Option Int :=
  if x < 9223372036854775808.0 then some x.toInt64.toInt
  else if x == 9223372036854775808.0 then some (-9223372036854775808)
  else none

/-- The record with a value in a field; none if the value does not go there. -/
def Slot.fill? {σ : Type} (r : σ) (s : Scalar) : Slot σ → Option σ
  | .bool set =>
    match valueOf s with
    | .null => some r
    | .bool b => some (set r b)
    | .string => (spokenBool? s.text).map (set r)
    | _ => none
  | .int set =>
    match valueOf s with
    | .null => some r
    | .int n => if n < 9223372036854775808 then some (set r n) else none
    | .float x => (truncated? x).map (set r)
    | _ => none
  | .text set =>
    match valueOf s with
    | .null => some r
    | _ => some (set r s.text)

/-- Each key that stands twice, with the places. -/
def duplicates : List Entry → List EntryError
  | [] => []
  | e :: r =>
    (r.filter (·.key.text == e.key.text)).map (fun f => .duplicate f.line f.key.text e.line) ++ duplicates r

/-- The entries into a record, with what cannot be read collected. -/
def fillAll {σ : Type} (record : Text) (fields : List (Text × Slot σ)) : σ → List Entry → σ × List EntryError
  | r, [] => (r, [])
  | r, e :: rest =>
    match valueOf e.key, fields.lookup e.key.text with
    | .null, _ => fillAll record fields r rest
    | _, none =>
      let (r, errors) := fillAll record fields r rest
      (r, .unknown e.line e.key.text record :: errors)
    | _, some slot =>
      match slot.fill? r e.value with
      | some r' => fillAll record fields r' rest
      | none =>
        let (r, errors) := fillAll record fields r rest
        (r, .mismatch e.line (valueOf e.value).tag e.value.text slot.typeName :: errors)

inductive MappingError where
  /-- The entries of something that is no mapping are asked for. -/
  | merge
  | entries (errors : List EntryError)
  deriving DecidableEq, Repr

def MappingError.message : MappingError → Text
  | .merge => "yaml: map merge requires map or sequence of maps as the value"
  | .entries errors => errorsText errors

/-- The entries of a document over a record. -/
def Document.over {σ : Type} (record : Text) (fields : List (Text × Slot σ)) (r : σ) (doc : Document) :
    Except MappingError σ :=
  if !(duplicates doc.entries).isEmpty then .error (.entries (duplicates doc.entries))
  else if doc.entries.any (·.key.isMerge) then .error .merge
  else
    match fillAll record fields r doc.entries with
    | (r, []) => .ok r
    | (_, errors) => .error (.entries errors)

def decode {σ : Type} (record : Text) (fields : List (Text × Slot σ)) : Decoder σ := fun r s =>
  let doc := Document.ofText s
  if !doc.present then .error .absent
  else (doc.over record fields r).mapError fun e => .malformed e.message

end Rv32Tools.Settings
