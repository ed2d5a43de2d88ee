import Rv32Tools.Isa.Register

/-
  Rv32Tools.Assembly.WordBytes — words as bytes, in either order.

  Data memory is a little-endian stream of bytes; images hold big-endian words. `swapped` passes from one to the
  other, four bytes at a time, once the stream is filled up to whole words.
-/

namespace Rv32Tools.Assembly

/-- The `size` low bytes of a word, lowest first. -/
def littleEndian (size : Nat) (w : Word) : List UInt8 :=
  (List.range size).map fun k => ⟨w.extractLsb' (8 * k) 8⟩

/-- The four bytes of a word, highest first. -/
def bigEndian (w : Word) : List UInt8 :=
  [⟨w.extractLsb' 24 8⟩, ⟨w.extractLsb' 16 8⟩, ⟨w.extractLsb' 8 8⟩, ⟨w.extractLsb' 0 8⟩]

/-- The word of four bytes, highest first. -/
def ofBigEndian (a b c d : UInt8) : Word := a.toBitVec ++ b.toBitVec ++ c.toBitVec ++ d.toBitVec

/-- Bytes as big-endian words, the last one filled up with zeros. -/
def bigEndianWords : List UInt8 → List Word
  | [] => []
  | [a] => [ofBigEndian a 0 0 0]
  | [a, b] => [ofBigEndian a b 0 0]
  | [a, b, c] => [ofBigEndian a b c 0]
  | a :: b :: c :: d :: r => ofBigEndian a b c d :: bigEndianWords r

/-- The whole little-endian words of a stream. -/
def littleEndianWords : List UInt8 → List Word
  | a :: b :: c :: d :: r => ofBigEndian d c b a :: littleEndianWords r
  | _ => []

/-- The bytes filled up with zeros to a multiple of four. -/
def padded (bytes : List UInt8) : List UInt8 := bytes ++ List.replicate ((4 - bytes.length % 4) % 4) 0

/-- The bytes with each four of them reversed. -/
def swapped : List UInt8 → List UInt8
  | a :: b :: c :: d :: r => d :: c :: b :: a :: swapped r
  | r => r

end Rv32Tools.Assembly
