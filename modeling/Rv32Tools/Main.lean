import Rv32Tools.Tools.Disassembler
import Rv32Tools.Tools.Framer
import Rv32Tools.Tools.Standard

/-
  Rv32Tools.Main — the tools on the files of this machine.

  The first argument names the tool, the others are its command line. Nothing is decided here: a script's
  requests are answered from the disk, and what the tool leaves is printed.
-/

namespace Rv32Tools.Main

/-- A path as the system takes it. -/
def systemPath (p : Text) : String := (String.fromUTF8? ⟨p.toArray⟩).getD ""

/-- The error numbers of the system for a directory where a file should be, and the other way round. -/
def faultOf : IO.Error → FileFault
  | .inappropriateType _ code _ => if code = 21 then .isDirectory else .notDirectory
  | _ => .noEntry

def readDisk (path : Text) : IO (Except FileError Text) := do
  try
    return .ok (← IO.FS.readBinFile (systemPath path)).data.toList
  catch e =>
    let fault := faultOf e
    return .error ⟨if fault = .isDirectory then .reading else .opening, path, fault⟩

def writeDisk (path content : Text) : IO (Option FileError) := do
  try
    IO.FS.writeBinFile (systemPath path) ⟨content.toArray⟩
    return none
  catch e =>
    return some ⟨.opening, path, faultOf e⟩

def makeDiskDirectories (path : Text) : IO (Option FileError) := do
  try
    IO.FS.createDirAll (systemPath path)
    return none
  catch _ =>
    return some ⟨.creatingDirectory, path, .notDirectory⟩

def perform {α : Type} : Script α → IO α
  | .done a => return a
  | .read path next => do perform (next (← readDisk path))
  | .write path content next => do perform (next (← writeDisk path content))
  | .makeDirectories path next => do perform (next (← makeDiskDirectories path))

/-- The tools by name. Sources are taken one after the other, as if there were one processor. -/
def tools (terminal : Bool) : List (String × (List Text → Script Tools.Exit)) := [
  ("pqr5asm", Tools.Assembler.run (.standard 1 terminal)),
  ("genram", Tools.RamGenerator.standard),
  ("bin2pqr5bin", Tools.Framer.run),
  ("pqr5dis", Tools.Disassembler.run)]

def runTool (arguments : List String) : IO UInt32 := do
  match arguments with
  | [] => return 1
  | name :: rest =>
    match (tools (← (← IO.getStdout).isTty)).lookup name with
    | none => return 1
    | some run =>
      let x ← perform (run (rest.map Text.ofString))
      (← IO.getStdout).write ⟨x.out.toArray⟩
      (← IO.getStderr).write ⟨x.err.toArray⟩
      return UInt32.ofNat x.status

end Rv32Tools.Main

def main (arguments : List String) : IO UInt32 := Rv32Tools.Main.runTool arguments
