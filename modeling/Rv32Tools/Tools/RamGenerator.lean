import Rv32Tools.Ram.Generate
import Rv32Tools.Report.Log
import Rv32Tools.Tools.Exit

/-
  Rv32Tools.Tools.RamGenerator — a RAM generated from a dump and a reference RAM.

  The status is 2 when the offset lies beyond the RAM, and 1 after any other failure.
-/

namespace Rv32Tools.Tools.RamGenerator

open CommandLine (Usage Parsed)
open Ram (Profile)

def usage : Usage where
  opening := "Usage: genram [options] <dump> <template> <module> <depth> <width> <offset> <type>\n       genram -profile ram.yaml\n\nGenerates a SystemVerilog single-port RAM initialized from a pqr5asm dump.\n  dump      *_hex.txt or *_bin.txt written by pqr5asm\n  template  reference RAM (.sv/.v); DRAM also reads <template>_4x8.sv\n  offset    byte address of the first word, rounded up to the RAM width\n  type      0 = instruction RAM, 1 = data RAM in four byte banks\n\nOptions:\n"
  flags := [⟨"profile", .text [], "YAML profile instead of positional arguments"⟩]
  closing := "\nExamples:\n  genram build/boot_imem_hex.txt rtl/ram.sv iram 1024 32 0 0\n  genram build/boot_dmem_hex.txt rtl/ram.sv dram 1024 32 0x0 1\n"

def banner : Text :=
  "+===================================+\n|~~~~~~ GENRAM: RAM Generator ~~~~~~|\n+===================================+\n"

/-- An address in at least eight upper-case hexadecimal digits, its sign counted in. -/
def addressText (n : Int) : Text :=
  let digits := (Text.hexShort n.natAbs).map Text.upperByte
  if n < 0 then 0x2D :: (Text.repeated (7 - digits.length) 0x30 ++ digits)
  else Text.repeated (8 - digits.length) 0x30 ++ digits

/-- The profile that a command line names or describes, or what is wrong with it. -/
def profileOf (decode : Settings.Decoder Profile) (p : Parsed) : Script (Except Text Profile) := do
  let path := (p.text? "profile").getD []
  if path.isEmpty then
    match Profile.ofArguments p.arguments with
    | .ok profile => return .ok profile
    | .error e => return .error e.message
  else
    match ← Profile.load decode path with
    | .ok profile => return .ok profile
    | .error e => return .error e.message

def errorRow (message : Text) : Text := "| ERROR: " ++ message ++ "\n"

def fatalRow (message : Text) : Text := "| FATAL: " ++ message ++ "\n"

def wroteRow (f : Ram.GeneratedFile) : Text := "| INFO : wrote " ++ f.path ++ "\n"

/-- The generator on a valid profile. -/
def generate (logRow : Report.LogLine → Text) (p : Profile) : Script Exit := do
  let address := addressText p.startAddress
  let out := banner ++ "| INFO : Offset address of " ++ p.kindName ++ " RAM set = 0x" ++ address ++ "\n"
  match ← Ram.loadInputs p with
  | .error e => return { status := 1, out, err := fatalRow ("Files cannot be opened! " ++ e.message) }
  | .ok inputs =>
    match p.generate inputs.dump inputs.template inputs.wrapper with
    | .error (.outOfRange start depth) =>
      return { status := 2, out, err := fatalRow (Ram.GenerateError.outOfRange start depth).message }
    | .error e => return { status := 1, out, err := fatalRow e.message }
    | .ok output =>
      let log := output.warnings.flatMap fun message => logRow ⟨.warning, message, []⟩
      match ← Ram.writeFiles output.files with
      | some e => return { status := 1, out, err := log ++ fatalRow e.message }
      | none =>
        return {
          status := 0
          out := out ++ output.files.flatMap wroteRow ++ "\n|| Success ||\n Generated " ++ p.kindName ++ " RAM of " ++
            Text.decimalInt p.depth ++ " x " ++ Text.decimalInt p.width ++ " bit with binary initiated @offset addr = 0x" ++
            address ++ "\n"
          err := log }

/-- The generator with a reader of profiles and a writer of log lines. -/
def run (decode : Settings.Decoder Profile) (logRow : Report.LogLine → Text) (arguments : List Text) : Script Exit :=
  withOptions usage arguments fun parsed => do
    match ← profileOf decode parsed with
    | .error message => return { status := 1, out := banner, err := errorRow message ++ usage.text }
    | .ok p =>
      match p.invalid? with
      | some e => return { status := 1, out := banner, err := errorRow e.message }
      | none => generate logRow p

end Rv32Tools.Tools.RamGenerator
