import Rv32Tools.Files.Script
import Rv32Tools.Settings.Decoder
import Rv32Tools.Text.Quoted

/-
  Rv32Tools.Settings.Assembler — the settings of the assembler.

  They come from built-in defaults, then from a settings file, then from the command line, each over the one
  before. A settings file that is not there counts only if it was asked for by name. As many files are assembled at a
  time as there are processors unless a number is asked for, and 0 asks for none in particular.
-/

namespace Rv32Tools.Settings

structure Assembler where
  positionIndependent : Bool := false
  listing : Bool := false
  symbols : Bool := false
  outputDir : Text := []
  verbose : Bool := false
  debug : Bool := false
  color : Text := []
  jobs : Int := 0
  deriving DecidableEq, Repr

namespace Assembler

def fileName : Text := "pqr5asm.yaml"

def defaults (processors : Nat) : Assembler := { color := "auto", jobs := processors }

inductive Invalid where
  | color (given : Text)
  | jobs (given : Int)
  deriving DecidableEq, Repr

def Invalid.message : Invalid → Text
  | .color given => "color must be auto, always or never, got " ++ Text.quoted given
  | .jobs given => "jobs must not be negative, got " ++ Text.decimalInt given

/-- The settings with the values that were left open filled in. -/
def check (processors : Nat) (s : Assembler) : Except Invalid Assembler :=
  let color : Text := if s.color.isEmpty then "auto" else s.color
  if color != "auto" && color != "always" && color != "never" then .error (.color color)
  else if s.jobs < 0 then .error (.jobs s.jobs)
  else .ok { s with color, jobs := if s.jobs = 0 then processors else s.jobs }

inductive LoadError where
  | read (path : Text) (e : FileError)
  | parse (path : Text) (e : DecodeError)
  | invalid (path : Text) (e : Invalid)
  deriving DecidableEq, Repr

def LoadError.message : LoadError → Text
  | .read path e => "read config " ++ path ++ ": " ++ e.message
  | .parse path e => "parse config " ++ path ++ ": " ++ e.message
  | .invalid path e => "config " ++ path ++ ": " ++ e.message

section

variable (decode : Decoder Assembler) (processors : Nat)

/-- The settings that a file gives over the defaults; a file without a document leaves these as they are. -/
def ofFile (path content : Text) : Except LoadError Assembler :=
  let settings : Except LoadError Assembler :=
    match decode (defaults processors) content with
    | .ok s => .ok s
    | .error .absent => .ok (defaults processors)
    | .error e => .error (.parse path e)
  match settings with
  | .error e => .error e
  | .ok s =>
    match s.check processors with
    | .ok s => .ok s
    | .error e => .error (.invalid path e)

def load (path : Text) (required : Bool) : Script (Except LoadError Assembler) := do
  match ← Script.readFile path with
  | .ok content => return ofFile decode processors path content
  | .error e =>
    return if e.fault = .noEntry && !required then .ok (defaults processors) else .error (.read path e)

end

end Assembler

end Rv32Tools.Settings
