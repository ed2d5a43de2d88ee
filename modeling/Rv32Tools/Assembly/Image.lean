import Rv32Tools.Assembly.WordBytes

/-
  Rv32Tools.Assembly.Image — the framed image of a segment.

  All fields are big-endian:

    +0    preamble    F0F0F0F0 for text, D0D0D0D0 for data, C0C0C0C0 for a flat binary
    +4    length of the payload in bytes
    +8    base address
    +12   payload
    end   postamble   E0E0E0E0

  Any preamble is read back, so that images repackaged by other tools can be read too. As words the payload
  is filled up with zero bytes.
-/

namespace Rv32Tools.Assembly

structure Image where
  preamble : Word
  base : Word
  payload : List UInt8
  deriving DecidableEq, Repr

inductive ImageError where
  | tooLarge (length : Nat)
  | tooShort (length : Nat)
  | wrongSize (announced held : Nat)
  | badPostamble (found : Word)
  deriving DecidableEq, Repr

def ImageError.message : ImageError → Text
  | .tooLarge length => "payload of " ++ Text.decimal length ++ " bytes too large for container"
  | .tooShort length => "container too short: " ++ Text.decimal length ++ " bytes"
  | .wrongSize announced held =>
    "container size field says " ++ Text.decimal announced ++ " payload bytes, file holds " ++ Text.decimal held
  | .badPostamble found => "bad postamble 0x" ++ Text.hexUpper 8 found.toNat

namespace Image

def textPreamble : Word := 0xF0F0F0F0

def dataPreamble : Word := 0xD0D0D0D0

def flatPreamble : Word := 0xC0C0C0C0

def postamble : Word := 0xE0E0E0E0

def ofText (base : Word) (words : List Word) : Image := ⟨textPreamble, base, words.flatMap bigEndian⟩

def ofData (base : Word) (payload : List UInt8) : Image := ⟨dataPreamble, base, payload⟩

/-- The image of a flat little-endian binary: its words as code, under a preamble of its own. -/
def ofFlat (base : Word) (bytes : List UInt8) : Image :=
  { ofText base (littleEndianWords (padded bytes)) with preamble := flatPreamble }

/-- Bytes before and after the payload. -/
def frameSize : Nat := 16

/-- The size of the framed image. -/
def size (i : Image) : Nat := i.payload.length + frameSize

/-- The framed bytes. The length field holds the length modulo 2^32. -/
def frame (i : Image) : List UInt8 :=
  bigEndian i.preamble ++ bigEndian (BitVec.ofNat 32 i.payload.length) ++ bigEndian i.base ++
    i.payload ++ bigEndian postamble

/-- The framed bytes, if the length field can hold the length. -/
def toBytes (i : Image) : Except ImageError (List UInt8) :=
  if 0xFFFFFFFF < i.payload.length then .error (.tooLarge i.payload.length) else .ok i.frame

def ofBytes (bytes : List UInt8) : Except ImageError Image :=
  match bigEndianWords (bytes.take 12) with
  | [preamble, length, base] =>
    if bytes.length < frameSize then .error (.tooShort bytes.length)
    else if bytes.length ≠ length.toNat + frameSize then
      .error (.wrongSize length.toNat (bytes.length - frameSize))
    else
      let rest := bytes.drop 12
      match bigEndianWords (rest.drop length.toNat) with
      | [found] =>
        if found = postamble then .ok ⟨preamble, base, rest.take length.toNat⟩ else .error (.badPostamble found)
      | _ => .error (.tooShort bytes.length)
  | _ => .error (.tooShort bytes.length)

def words (i : Image) : List Word := bigEndianWords i.payload

/-- One row of thirty-two binary digits a word. -/
def binaryDump (i : Image) : Text := Text.unlines (i.words.map fun w => Text.binary32 w.toNat)

/-- One row of eight hexadecimal digits a word. -/
def hexDump (i : Image) : Text := Text.unlines (i.words.map fun w => Text.hexLower 8 w.toNat)

end Image

end Rv32Tools.Assembly
