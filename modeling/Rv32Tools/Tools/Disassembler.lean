import Rv32Tools.Assembly.Image
import Rv32Tools.Isa.Instruction
import Rv32Tools.Tools.Exit

/-
  Rv32Tools.Tools.Disassembler — images back to source text.

  Images of code, whether assembled here or framed from a flat binary, are shown as instructions; all others as
  words. A file that cannot be read does not keep the others from being shown.
-/

namespace Rv32Tools.Tools.Disassembler

open Assembly (Image ImageError)
open CommandLine (Usage Parsed)

def usage : Usage where
  opening := "Usage: pqr5dis [options] image.bin [image.bin ...]\n\nDisassembles pqr5asm and bin2pqr5bin images.\n\nOptions:\n"
  flags := [
    ⟨"base", .text "0x0", "Load address for -raw input"⟩,
    ⟨"raw", .switch, "Input is a flat little-endian binary, not a framed image"⟩]
  closing := "\nExamples:\n  pqr5dis build/boot_imem.bin\n  pqr5dis -raw -base 0x2000 firmware.bin\n"

def kindName (i : Image) : Text :=
  if i.preamble = Image.textPreamble then "instruction image"
  else if i.preamble = Image.dataPreamble then "data image"
  else if i.preamble = Image.flatPreamble then "repackaged binary"
  else "unknown image 0x" ++ Text.hexUpper 8 i.preamble.toNat

/-- One row a word. -/
def wordRows (pc : Word) : List Word → List Text
  | [] => []
  | w :: r => (Word.rowHead pc w ++ "    .word 0x" ++ Text.hexLower 8 w.toNat) :: wordRows (pc + 4) r

/-- An image under the name it was read from. -/
def render (path : Text) (i : Image) : List Text :=
  let title := "; " ++ path ++ ": " ++ kindName i ++ ", " ++ Text.decimal i.payload.length ++ " bytes at 0x" ++
    Text.hexUpper 8 i.base.toNat
  let isCode := i.preamble = Image.textPreamble || i.preamble = Image.flatPreamble
  title :: (if isCode then Word.disassemble i.base i.words else wordRows i.base i.words)

inductive LoadError where
  | openImage (e : FileError)
  | readImage (e : FileError)
  | readBinary (e : FileError)
  | image (e : ImageError)
  deriving DecidableEq, Repr

def LoadError.message : LoadError → Text
  | .openImage e => "open image: " ++ e.message
  | .readImage e => "read container: " ++ e.message
  | .readBinary e => "read binary: " ++ e.message
  | .image e => e.message

def loadImage (path : Text) : Script (Except LoadError Image) := do
  match ← Script.readFile path with
  | .error e => return .error (if e.action = .reading then .readImage e else .openImage e)
  | .ok bytes =>
    match Image.ofBytes bytes with
    | .ok i => return .ok i
    | .error e => return .error (.image e)

def loadFlat (base : Word) (path : Text) : Script (Except LoadError Image) := do
  match ← Script.readFile path with
  | .error e => return .error (.readBinary e)
  | .ok bytes => return .ok (Image.ofFlat base bytes)

/-- The files one after the other, after what `x` holds. -/
def showAll (load : Text → Script (Except LoadError Image)) : Exit → List Text → Script Exit
  | x, [] => return x
  | x, path :: r => do
    match ← load path with
    | .error e => showAll load { x with status := 1, err := x.err ++ "Error: " ++ path ++ ": " ++ e.message ++ "\n" } r
    | .ok i => showAll load { x with out := x.out ++ Text.unlines (render path i) } r

def run (arguments : List Text) : Script Exit :=
  withOptions usage arguments fun p =>
    if p.arguments.isEmpty then return { status := 1, err := usage.text }
    else
      let base := (p.text? "base").getD "0x0"
      match Text.prefixed 0xFFFFFFFF base with
      | .error _ => return { status := 1, err := "Error: invalid base address '" ++ base ++ "'\n" }
      | .ok v =>
        let load := if (p.switch? "raw").getD false then loadFlat (BitVec.ofNat 32 v) else loadImage
        showAll load { status := 0 } p.arguments

end Rv32Tools.Tools.Disassembler
