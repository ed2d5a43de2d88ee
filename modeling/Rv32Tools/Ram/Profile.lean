import Rv32Tools.Files.Script
import Rv32Tools.Settings.Decoder
import Rv32Tools.Text.Numeral

/-
  Rv32Tools.Ram.Profile — the description of one RAM.

  An instruction RAM is one module as wide as its words; a data RAM is four banks, each a quarter of a word
  wide. The dump is placed at a byte offset, rounded up to a whole word. A profile comes from seven arguments or
  from a settings file; paths in such a file are relative to the directory it is in.

  Numbers are signed 64-bit integers, and sums of them are taken as such.
-/

namespace Rv32Tools.Ram

structure Profile where
  dump : Text := []
  template : Text := []
  moduleName : Text := []
  depth : Int := 0
  width : Int := 0
  offset : Int := 0
  kind : Int := 0
  deriving DecidableEq, Repr

/-- A sum as a signed 64-bit integer. -/
def wrap (n : Int) : Int := n.bmod 0x10000000000000000

namespace Profile

def instructionKind : Int := 0

def dataKind : Int := 1

def kindName (p : Profile) : Text := if p.kind = dataKind then "Data" else "Instruction"

inductive Invalid where
  | kind (given : Int)
  | emptyModule
  | depth (given : Int)
  | width (ram : Text) (given : Int)
  | offset (given : Int)
  | dump (given : Text)
  | template (given : Text)
  deriving DecidableEq, Repr

def Invalid.message : Invalid → Text
  | .kind given => "unsupported memory type " ++ Text.decimalInt given
  | .emptyModule => "module name is empty"
  | .depth given => "depth must be positive, got " ++ Text.decimalInt given
  | .width ram given => ram ++ " RAM width must be a multiple of 8, got " ++ Text.decimalInt given
  | .offset given => "offset must not be negative, got " ++ Text.decimalInt given
  | .dump given => "unsupported dump file '" ++ given ++ "', want *_hex.txt or *_bin.txt"
  | .template given => "unsupported template '" ++ given ++ "', want *.sv or *.v"

/-- Whether the dump is in hexadecimal, by its name. -/
def isHex (p : Profile) : Bool := Text.endsWith "_hex.txt" p.dump

/-- The first thing wrong with a profile. -/
def invalid? (p : Profile) : Option Invalid :=
  if p.kind ≠ instructionKind ∧ p.kind ≠ dataKind then some (.kind p.kind)
  else if p.moduleName.isEmpty then some .emptyModule
  else if p.depth ≤ 0 then some (.depth p.depth)
  else if p.width ≤ 0 ∨ p.width % 8 ≠ 0 then some (.width p.kindName p.width)
  else if p.offset < 0 then some (.offset p.offset)
  else if !p.isHex && !Text.endsWith "_bin.txt" p.dump then some (.dump p.dump)
  else if !Text.endsWith ".sv" p.template && !Text.endsWith ".v" p.template then some (.template p.template)
  else none

/-- The number of bank modules. -/
def banks (p : Profile) : Nat := if p.kind = dataKind then 4 else 1

/-- The bits of a word that one bank holds. -/
def bankWidth (p : Profile) : Int := p.width.tdiv p.banks

/-- Bytes in a word. -/
def wordBytes (p : Profile) : Int := p.width.tdiv 8

/-- The index of the first word. -/
def startWord (p : Profile) : Int := (wrap (p.offset + p.wordBytes - 1)).tdiv p.wordBytes

/-- The byte address of the first word. -/
def startAddress (p : Profile) : Int := wrap (p.startWord * p.wordBytes)

/-- The module of a bank. -/
def bankModule (p : Profile) (bank : Nat) : Text :=
  if p.kind = dataKind then p.moduleName ++ "_b" ++ Text.decimal bank else p.moduleName

/-- The template of the module around the banks, beside the template of a bank. -/
def wrapperTemplate (p : Profile) : Text :=
  let ext := Path.extension p.template
  Path.withoutEnding ext p.template ++ "_4x8" ++ ext

/-! ## Reading profiles -/

inductive ArgumentError where
  | count (got : Nat)
  | number (name value : Text)
  deriving DecidableEq, Repr

def ArgumentError.message : ArgumentError → Text
  | .count got => "expected 7 arguments, got " ++ Text.decimal got
  | .number name value => "invalid " ++ name ++ " '" ++ value ++ "'"

def argumentNumber (name value : Text) : Except ArgumentError Int :=
  match Text.prefixedInteger 32 value with
  | .ok n => .ok n
  | .error _ => .error (.number name value)

/-- Dump, template, module, depth, width, offset, type. -/
def ofArguments : List Text → Except ArgumentError Profile
  | [dump, template, moduleName, depth, width, offset, kind] => do
    let depth ← argumentNumber "depth" depth
    let width ← argumentNumber "width" width
    let offset ← argumentNumber "offset" offset
    let kind ← argumentNumber "type" kind
    return { dump, template, moduleName, depth, width, offset, kind }
  | arguments => .error (.count arguments.length)

inductive LoadError where
  | read (path : Text) (e : FileError)
  | parse (path : Text) (e : Settings.DecodeError)
  deriving DecidableEq, Repr

def LoadError.message : LoadError → Text
  | .read path e => "read profile " ++ path ++ ": " ++ e.message
  | .parse path e => "parse profile " ++ path ++ ": " ++ e.message

/-- A path from a profile, seen from where the profile was named. -/
def relativeTo (dir p : Text) : Text := if p.isEmpty || Path.isAbsolute p then p else Path.join dir p

def ofFile (decode : Settings.Decoder Profile) (path content : Text) : Except LoadError Profile :=
  match decode {} content with
  | .error e => .error (.parse path e)
  | .ok p =>
    let dir := Path.directory path
    .ok { p with dump := relativeTo dir p.dump, template := relativeTo dir p.template }

def load (decode : Settings.Decoder Profile) (path : Text) : Script (Except LoadError Profile) := do
  match ← Script.readFile path with
  | .ok content => return ofFile decode path content
  | .error e => return .error (.read path e)

end Profile

end Rv32Tools.Ram
