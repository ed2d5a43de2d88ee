import Rv32Tools.Report.Console
import Rv32Tools.Report.SymbolMap
import Rv32Tools.Settings.Assembler
import Rv32Tools.Tools.Exit

/-
  Rv32Tools.Tools.Assembler — the assembler on files.

  Each source is a run of its own. From `prog.s` come

    prog_imem.bin  prog_imem_bin.txt  prog_imem_hex.txt   the text segment
    prog_dmem.bin  prog_dmem_bin.txt  prog_dmem_hex.txt   the data segment, if there is one
    prog_symbols.json                                     the labels, if asked for

  beside the source, or in the output directory. A source in error gives no file. The status of the tool is the
  worst of its sources: 1 for a fatal end, else 2 for errors, else 0.

  The sources are taken one after the other, however many may be taken at a time. The formats of the settings file, the
  symbol map, the log and the dump are not the tool's own: it works with those it is given (`Environment`).
-/

namespace Rv32Tools.Tools.Assembler

open Assembly (Image ImageError Result Event Diagnostic Sections Symbol)
open CommandLine (Usage Parsed)
open Report (LogLine Console SymbolMap)

abbrev Settings := Rv32Tools.Settings.Assembler

/-- A writer of symbol maps, which may fail with a message. -/
abbrev SymbolEncoder := SymbolMap → Except Text Text

/-- What the assembler is run with. -/
structure Environment where
  /-- How many sources may be taken at a time, if nothing is said. -/
  processors : Nat
  /-- Whether the output goes to a terminal. -/
  terminal : Bool
  decode : Rv32Tools.Settings.Decoder Settings
  encode : SymbolEncoder
  console : (inColor : Bool) → Console
  logRow : (inColor : Bool) → LogLine → Text
  dump : Sections → List Symbol → Text
  /-- Where a fatal error comes from, for debugging. -/
  trace : Diagnostic → Text

def usage : Usage where
  opening := "Usage: pqr5asm [options] file.s [file.s ...]\n\nAssembles PQR5 RV32I source into instruction and data memory images.\n\nOptions:\n"
  flags := [
    ⟨"config", .text [], "YAML config file (default: ./pqr5asm.yaml if present)"⟩,
    ⟨"debug", .switch, "Dump sections, symbols and fatal stack traces"⟩,
    ⟨"j", .number, "Number of files assembled in parallel (default: CPU count)"⟩,
    ⟨"list", .switch, "Print an address/word/disassembly listing"⟩,
    ⟨"no-color", .switch, "Disable coloured output"⟩,
    ⟨"o", .text [], "Output directory (default: next to each source)"⟩,
    ⟨"pcrel", .switch, "Use AUIPC for LA/JA on text labels"⟩,
    ⟨"symbols", .switch, "Write a <name>_symbols.json symbol map"⟩,
    ⟨"v", .switch, "Verbose logging"⟩]
  closing := "\nExamples:\n  pqr5asm firmware/boot.s\n  pqr5asm -pcrel -list -symbols -o build firmware/boot.s\n  pqr5asm -j 4 tests/*.s\n\nExit status: 0 success, 1 fatal error, 2 assembly errors\n"

/-! ## Output files -/

structure OutputPaths where
  textImage : Text
  textBinary : Text
  textHex : Text
  dataImage : Text
  dataBinary : Text
  dataHex : Text
  symbols : Text
  deriving DecidableEq, Repr

/-- The output paths of a source. -/
def outputPaths (source outputDir : Text) : OutputPaths :=
  let dir := if outputDir.isEmpty then Path.directory source else outputDir
  let base := Path.join dir (Path.stem source)
  { textImage := base ++ "_imem.bin"
    textBinary := base ++ "_imem_bin.txt"
    textHex := base ++ "_imem_hex.txt"
    dataImage := base ++ "_dmem.bin"
    dataBinary := base ++ "_dmem_bin.txt"
    dataHex := base ++ "_dmem_hex.txt"
    symbols := base ++ "_symbols.json" }

inductive OutputError where
  | noImage
  | image (e : ImageError)
  | symbols (message : Text)
  | directory (e : FileError)
  | create (path : Text) (e : FileError)
  deriving DecidableEq, Repr

def OutputError.message : OutputError → Text
  | .noImage => "no instruction image to write"
  | .image e => e.message
  | .symbols message => "encode symbol map: " ++ message
  | .directory e => "create output directory: " ++ e.message
  | .create path e => "unable to create " ++ path ++ ": " ++ e.message

/-- An image and its two dumps. -/
def imageFiles (i : Image) (image binary hex : Text) : Except OutputError (List (Text × Text)) :=
  match i.toBytes with
  | .ok bytes => .ok [(image, bytes), (binary, i.binaryDump), (hex, i.hexDump)]
  | .error e => .error (.image e)

/-- The symbol map as a file, if it is asked for. -/
def symbolFiles (encode : SymbolEncoder) (r : Result) (source path : Text) (withSymbols : Bool) :
    Except OutputError (List (Text × Text)) :=
  if withSymbols then
    match encode (.ofResult (Path.base source) r) with
    | .ok content => .ok [(path, content)]
    | .error message => .error (.symbols message)
  else .ok []

/-- The files of a result, in the order in which they are written. -/
def outputFiles (encode : SymbolEncoder) (r : Result) (source : Text) (paths : OutputPaths) (withSymbols : Bool) :
    Except OutputError (List (Text × Text)) := do
  let text ←
    match r.text with
    | none => .error .noImage
    | some i => imageFiles i paths.textImage paths.textBinary paths.textHex
  let data ←
    match r.data with
    | none => .ok []
    | some i => imageFiles i paths.dataImage paths.dataBinary paths.dataHex
  let symbols ← symbolFiles encode r source paths.symbols withSymbols
  return text ++ data ++ symbols

/-- The files one after the other; the paths written, and why it ended early. -/
def writeAll (written : List Text) : List (Text × Text) → Script (List Text × Option OutputError)
  | [] => return (written, none)
  | (path, content) :: r => do
    match ← Script.writeFile path content with
    | some e => return (written, some (.create path e))
    | none => writeAll (written ++ [path]) r

def writeOutputs (encode : SymbolEncoder) (r : Result) (source : Text) (paths : OutputPaths) (withSymbols : Bool) :
    Script (List Text × Option OutputError) := do
  match outputFiles encode r source paths withSymbols with
  | .error e => return ([], some e)
  | .ok files =>
    match ← Script.makeDirs (Path.directory paths.textImage) with
    | some e => return ([], some (.directory e))
    | none => writeAll [] files

/-! ## One source -/

/-- An event of a run as a line of the log. -/
def logLine (file : Text) : Event → LogLine
  | .normalized n => ⟨.debug, "source normalized", [("file", file), ("lines", Text.decimal n)]⟩
  | .dataLaidOut n => ⟨.debug, "data segment laid out", [("bytes", Text.decimal n), ("file", file)]⟩
  | .labelsResolved n => ⟨.debug, "labels resolved", [("file", file), ("labels", Text.decimal n)]⟩
  | .reported d =>
    ⟨if d.severity = .warning then .warning else .error, d.message, [("file", file), ("line", Text.decimal d.line)]⟩

def assembledLine (file : Text) (words : Nat) : LogLine :=
  ⟨.info, "assembled", [("file", file), ("words", Text.decimal words)]⟩

/-- The status of a run that ended without an answer. -/
def abortStatus : Nat := 2

section

variable (env : Environment) (s : Settings) (inColor : Bool)

/-- The lines of a log that are told. -/
def renderLog (ls : List LogLine) : Text :=
  (ls.filter fun l => s.verbose || !l.level.isDetail).flatMap (env.logRow inColor)

/-- What is printed of a result before its files are written. -/
def report (r : Result) : Text :=
  let console := env.console inColor
  console.labelTable r.symbols ++
    (if s.listing then console.listing r.listing else []) ++
    (if s.debug then env.dump r.sections r.symbols.sorted else []) ++
    console.summary r

def assembleFile (path : Text) : Script Exit := do
  let console := env.console inColor
  let title := console.heading ("Assembling " ++ path)
  let file := Path.base path
  match ← Script.readFile path with
  | .error e =>
    return { status := 1, out := title ++ console.fatal ("assembly source file cannot be opened: " ++ e.message) }
  | .ok source =>
    let run := Assembly.assemble ⟨s.positionIndependent, s.listing⟩ source
    let events := run.journal.map (logLine file)
    let log := renderLog env s inColor events
    match run.outcome with
    | .error (.abort _) => return { status := abortStatus, out := title, err := log }
    | .error (.error d) =>
      let trace := if s.debug then env.trace d else []
      return { status := 1, out := title ++ console.fatal d.located ++ trace, err := log }
    | .ok r =>
      let out := title ++ report env s inColor r
      if !r.isOk then return { status := 2, out, err := log }
      else
        let (written, failure) ← writeOutputs env.encode r path (outputPaths path s.outputDir) s.symbols
        let out := out ++ written.flatMap console.wrote
        match failure with
        | some e => return { status := 1, out := out ++ console.fatal e.message, err := log }
        | none =>
          let words := (r.text.map fun i => i.words.length).getD 0
          return { status := 0, out, err := renderLog env s inColor (events ++ [assembledLine file words]) }

/-- The sources one after the other. -/
def assembleAll : List Text → Script (List Exit)
  | [] => return []
  | path :: r => do
    let x ← assembleFile env s inColor path
    let rest ← assembleAll r
    return x :: rest

end

/-! ## The tool -/

/-- A fatal end counts more than errors, errors more than success. -/
def worseStatus (worst status : Nat) : Nat := if status = 1 ∨ (status = 2 ∧ worst = 0) then status else worst

def worstStatus (statuses : List Nat) : Nat := statuses.foldl worseStatus 0

/-- The settings with the options of a command line over them. -/
def overlay (p : Parsed) (s : Settings) : Settings :=
  { s with
    positionIndependent := (p.switch? "pcrel").getD s.positionIndependent
    listing := (p.switch? "list").getD s.listing
    symbols := (p.switch? "symbols").getD s.symbols
    outputDir := (p.text? "o").getD s.outputDir
    verbose := (p.switch? "v").getD s.verbose
    debug := (p.switch? "debug").getD s.debug
    color := if p.switch? "no-color" = some true then "never" else s.color
    jobs := (p.number? "j").getD s.jobs }

def settingsOf (env : Environment) (p : Parsed) : Script (Except Text Settings) := do
  let named := (p.text? "config").getD []
  let path := if named.isEmpty then Rv32Tools.Settings.Assembler.fileName else named
  match ← Rv32Tools.Settings.Assembler.load env.decode env.processors path (!named.isEmpty) with
  | .error e => return .error e.message
  | .ok s =>
    match (overlay p s).check env.processors with
    | .ok s => return .ok s
    | .error e => return .error e.message

def Environment.inColor (env : Environment) (s : Settings) : Bool :=
  s.color == "always" || (s.color != "never" && env.terminal)

def run (env : Environment) (arguments : List Text) : Script Exit :=
  withOptions usage arguments fun p => do
    if p.arguments.isEmpty then return { status := 1, err := usage.text }
    match ← settingsOf env p with
    | .error message => return { status := 1, err := "Error: " ++ message ++ "\n" }
    | .ok s =>
      let inColor := env.inColor s
      let exits ← assembleAll env s inColor p.arguments
      return {
        status := worstStatus (exits.map Exit.status)
        out := (env.console inColor).banner ++ exits.flatMap Exit.out
        err := exits.flatMap Exit.err }

end Rv32Tools.Tools.Assembler
