import Rv32Tools.Assembly.Image
import Rv32Tools.Tools.Exit

/-
  Rv32Tools.Tools.Framer — a flat little-endian binary as a framed image.
-/

namespace Rv32Tools.Tools.Framer

open Assembly (Image bigEndian littleEndianWords padded)
open CommandLine (Usage Parsed)

def usage : Usage where
  opening := "Usage: bin2pqr5bin -binfile <input.bin> -baseaddr <base address> [-outfile <out.bin>]\n\nFrames a GCC-built flat binary so it can be flashed into the PQR5 core.\n\nOptions:\n"
  flags := [
    ⟨"baseaddr", .text [], "Load address, hex (0x..) or decimal, 4-byte aligned"⟩,
    ⟨"binfile", .text [], "Flat little-endian binary, e.g. from objcopy -O binary"⟩,
    ⟨"outfile", .text "output_pqr5.bin", "Output image"⟩]
  closing := "\nExamples:\n  bin2pqr5bin -binfile firmware.bin -baseaddr 0x0\n  bin2pqr5bin -binfile app.bin -baseaddr 0x2000 -outfile app_pqr5.bin\n"

inductive BaseError where
  | malformed (given : Text)
  | misaligned (address : Nat)
  deriving DecidableEq, Repr

def BaseError.message : BaseError → Text
  | .malformed given => "invalid base address format '" ++ given ++ "', use hex (0x..) or an integer"
  | .misaligned address => "base address 0x" ++ Text.hexShort address ++ " is not 4-byte aligned"

def baseAddress (s : Text) : Except BaseError Word :=
  match Text.prefixed 0xFFFFFFFF s with
  | .error _ => .error (.malformed s)
  | .ok v => if v % 4 = 0 then .ok (BitVec.ofNat 32 v) else .error (.misaligned v)

/-- The framed image of a binary, word by word. The length field holds the length modulo 2^32. -/
def frame (base : Word) (bytes : List UInt8) : List UInt8 :=
  let stream := padded bytes
  let header := [Image.flatPreamble, BitVec.ofNat 32 stream.length, base]
  (header ++ littleEndianWords stream ++ [Image.postamble]).flatMap bigEndian

def failed (message : Text) : Exit := { status := 1, err := "Error: " ++ message ++ "\n" }

def run (arguments : List Text) : Script Exit :=
  withOptions usage arguments fun p => do
    let input := (p.text? "binfile").getD []
    let address := (p.text? "baseaddr").getD []
    let output := (p.text? "outfile").getD "output_pqr5.bin"
    if input.isEmpty || address.isEmpty then return { status := 1, err := usage.text }
    match baseAddress address with
    | .error e => return failed e.message
    | .ok base =>
      match ← Script.readFile input with
      | .error e => return failed ("file '" ++ input ++ "' not found or unreadable: " ++ e.message)
      | .ok bytes =>
        match ← Script.writeFile output (frame base bytes) with
        | some e => return failed ("unable to create " ++ output ++ ": " ++ e.message)
        | none =>
          return {
            status := 0
            out := "| BIN2PQR5BIN: Successfully created the PQR5-compatible binary - " ++ output ++ "\n" }

end Rv32Tools.Tools.Framer
