import Rv32Tools.Ram.Profile
import Rv32Tools.Ram.Template
import Rv32Tools.Source.Line

/-
  Rv32Tools.Ram.Generate — the modules of a RAM with a dump as its initial contents.

  The words of the dump go to consecutive addresses from the first word on, up to the end of the RAM; what is
  left over is dropped with a warning. Bank `b` of a data RAM holds the `b`-th quarter of each word, counted from
  the low end. Every word that is placed has as many digits as the RAM is wide.
-/

namespace Rv32Tools.Ram

structure GeneratedFile where
  path : Text
  rows : List Text
  deriving DecidableEq, Repr

structure Output where
  files : List GeneratedFile
  /-- Whether words of the dump were left over. -/
  overfull : Bool
  deriving DecidableEq, Repr

def overfullMessage : Text := "Hex/Bin file contains more data than the RAM could accommodate..."

/-- What is to be said about a result. -/
def Output.warnings (o : Output) : List Text := if o.overfull then [overfullMessage] else []

inductive GenerateError where
  | invalid (e : Profile.Invalid)
  | outOfRange (start depth : Int)
  | wordWidth (line : Nat) (bits : Nat) (width : Int)
  deriving DecidableEq, Repr

def GenerateError.message : GenerateError → Text
  | .invalid e => e.message
  | .outOfRange start depth =>
    "word " ++ Text.decimalInt start ++ " of " ++ Text.decimalInt depth ++
      ": offset address is beyond the addressing range of generated ram"
  | .wordWidth line bits width =>
    "dump line " ++ Text.decimal line ++ ": " ++ Text.decimal bits ++ "-bit data in a " ++ Text.decimalInt width ++
      "-bit RAM, verify data width"

namespace Profile

/-- Bits in one digit of the dump. -/
def digitBits (p : Profile) : Nat := if p.isHex then 4 else 1

def radixMark (p : Profile) : Text := if p.isHex then "'h" else "'b"

/-- Digits of a word that go to one bank. -/
def sliceDigits (p : Profile) : Nat := (p.bankWidth.tdiv p.digitBits).toNat

/-- The digits of a word for a bank. -/
def slice (p : Profile) (bank : Nat) (word : Text) : Text :=
  (word.drop (word.length - p.sliceDigits * (bank + 1))).take p.sliceDigits

/-- The row that gives one address of a bank its value. -/
def contentRow (p : Profile) (bank : Nat) (address : Int) (word : Text) : Text :=
  "   ram[" ++ Text.decimalInt address ++ "] = " ++ Text.decimalInt p.bankWidth ++ p.radixMark ++ p.slice bank word ++ " ;"

/-- The rows for the words from number `i` of the dump on, up to the last address. -/
def contentsFrom (p : Profile) (bank : Nat) : (i : Nat) → List Text → Except GenerateError (List Text)
  | _, [] => .ok []
  | i, word :: r =>
    let bits := word.length * p.digitBits
    if (bits : Int) ≠ p.width then .error (.wordWidth (i + 1) bits p.width)
    else
      let row := p.contentRow bank (p.startWord + i) word
      if p.startWord + i = p.depth - 1 then .ok [row]
      else
        match p.contentsFrom bank (i + 1) r with
        | .ok rows => .ok (row :: rows)
        | .error e => .error e

/-- The module of one bank. -/
def bankFile (p : Profile) (dump template : List Text) (bank : Nat) : Except GenerateError GeneratedFile :=
  match p.contentsFrom bank 0 dump with
  | .error e => .error e
  | .ok contents =>
    .ok {
      path := Path.join (Path.directory p.template) (p.bankModule bank ++ ".sv")
      rows := Substitution.apply ⟨p.bankModule bank, p.depth, p.bankWidth, some contents⟩ template }

/-- The module around the banks of a data RAM. -/
def wrapperFile (p : Profile) (wrapper : List Text) : GeneratedFile :=
  let name := p.moduleName ++ "_4x8"
  { path := Path.join (Path.directory p.template) (name ++ ".sv")
    rows := Substitution.apply ⟨name, p.depth, 0, none⟩ wrapper }

/-- The modules of banks, one after the other. -/
def bankFiles (p : Profile) (dump template : List Text) : List Nat → Except GenerateError (List GeneratedFile)
  | [] => .ok []
  | bank :: r =>
    match p.bankFile dump template bank with
    | .error e => .error e
    | .ok file =>
      match p.bankFiles dump template r with
      | .error e => .error e
      | .ok files => .ok (file :: files)

/-- All modules of a RAM. -/
def generate (p : Profile) (dump template wrapper : List Text) : Except GenerateError Output :=
  match p.invalid? with
  | some e => .error (.invalid e)
  | none =>
    if p.depth ≤ p.startWord then .error (.outOfRange p.startWord p.depth)
    else
      match p.bankFiles dump template (List.range p.banks) with
      | .error e => .error e
      | .ok files =>
        .ok {
          files := if p.kind = dataKind then files ++ [p.wrapperFile wrapper] else files
          overfull := wrap (p.depth - p.startWord) < dump.length }

end Profile

/-! ## Files -/

/-- The rows of a file; an empty one has none. -/
def rowsOf (content : Text) : List Text :=
  let s := Source.Line.unifyEnds content
  let s := if s.getLast? == some 0x0A then s.dropLast else s
  if s.isEmpty then [] else Text.pieces (· == 0x0A) s

structure OpenError where
  path : Text
  error : FileError
  deriving DecidableEq, Repr

def OpenError.message (e : OpenError) : Text := "open " ++ e.path ++ ": " ++ e.error.message

def readRows (path : Text) : Script (Except OpenError (List Text)) := do
  match ← Script.readFile path with
  | .ok content => return .ok (rowsOf content)
  | .error e => return .error ⟨path, e⟩

/-- Dump, template, and the wrapper template of a data RAM. -/
structure Inputs where
  dump : List Text
  template : List Text
  wrapper : List Text := []

def loadInputs (p : Profile) : Script (Except OpenError Inputs) := do
  match ← readRows p.dump with
  | .error e => return .error e
  | .ok dump =>
    match ← readRows p.template with
    | .error e => return .error e
    | .ok template =>
      if p.kind = Profile.dataKind then
        match ← readRows p.wrapperTemplate with
        | .error e => return .error e
        | .ok wrapper => return .ok { dump, template, wrapper }
      else return .ok { dump, template }

/-- A generated file as it is written. -/
def GeneratedFile.content (f : GeneratedFile) : Text := Text.join "\n" f.rows ++ "\n"

inductive WriteError where
  | create (path : Text) (e : FileError)
  deriving DecidableEq, Repr

def WriteError.message : WriteError → Text
  | .create path e => "unable to create " ++ path ++ ": " ++ e.message

/-- The files one after the other, up to the first that cannot be written. -/
def writeFiles : List GeneratedFile → Script (Option WriteError)
  | [] => return none
  | f :: r => do
    match ← Script.writeFile f.path f.content with
    | some e => return some (.create f.path e)
    | none => writeFiles r

end Rv32Tools.Ram
