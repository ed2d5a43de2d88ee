import Rv32Tools.Proofs.Files.Tree
import Rv32Tools.Proofs.Ram.DataImage
import Rv32Tools.Tools.Disassembler
import Rv32Tools.Tools.Framer

/-
  Rv32Tools.Proofs.Tools.FlatBinaries — a flat binary has one framed image, whoever frames it.

  Three tools bring a little-endian stream into big-endian words, each in its own way:
  - a data segment fills its stream up and reverses it four bytes at a time (`DataSegment.payload`);
  - the framer writes a list of words, header and postamble among them (`Framer.frame`);
  - the disassembler takes the words of a flat binary for code and changes the preamble (`Image.ofFlat`).

  Reversing four bytes is reading a word lowest byte first and writing it highest byte first (`swapped_eq_flatMap`), and
  so the three agree (`ofFlat_payload`, `frame_eq_ofFlat`). What the framer writes is read as the image that the
  disassembler makes of the binary itself, and shown alike (`framings_agree`). Its words are those that stand in the
  binary (`littleEndianWords_getElem?`), with zeros behind the last byte.
-/

namespace Rv32Tools

namespace Assembly

/-! ## Reversed words -/

/-- The number spelled by the four bytes at an offset, lowest first, where zeros follow the last byte. -/
def numberAt (s : List UInt8) (offset : Nat) : Nat :=
  (s.getD offset 0).toNat + (s.getD (offset + 1) 0).toNat * 0x100 + (s.getD (offset + 2) 0).toNat * 0x10000 +
    (s.getD (offset + 3) 0).toNat * 0x1000000

theorem numberAt_padded (s : List UInt8) (offset : Nat) : numberAt (padded s) offset = numberAt s offset := by
  simp only [numberAt, padded_getD]

/-- Bytes that do not start with four are fewer. -/
theorem length_lt_four {s : List UInt8} (h : ∀ a b c d r, s = a :: b :: c :: d :: r → False) : s.length < 4 := by
  match s, h with
  | [], _ => simp
  | [_], _ => simp
  | [_, _], _ => simp
  | [_, _, _], _ => simp
  | a :: b :: c :: d :: r, h => exact absurd rfl (h a b c d r)

theorem swapped_eq_flatMap {s : List UInt8} (h : s.length % 4 = 0) :
    swapped s = (littleEndianWords s).flatMap bigEndian := by
  fun_induction swapped s with
  | case1 a b c d r ih =>
    have hr : r.length % 4 = 0 := by
      simp only [List.length_cons] at h
      omega
    rw [ih hr, littleEndianWords, List.flatMap_cons, bigEndian_ofBigEndian]
    rfl
  | case2 r hshort =>
    have hlength := length_lt_four hshort
    obtain rfl : r = [] := List.eq_nil_of_length_eq_zero (by omega)
    rfl

theorem littleEndianWords_length (s : List UInt8) : (littleEndianWords s).length = s.length / 4 := by
  fun_induction littleEndianWords s with
  | case1 a b c d r ih =>
    simp only [List.length_cons, ih]
    omega
  | case2 r hshort =>
    have hlength := length_lt_four hshort
    show 0 = r.length / 4
    omega

/-- Word `k` of a stream is spelled at offset `4 * k`. -/
theorem littleEndianWords_getElem? {s : List UInt8} {k : Nat} (h : k < s.length / 4) :
    (littleEndianWords s)[k]? = some (BitVec.ofNat 32 (numberAt s (4 * k))) := by
  fun_induction littleEndianWords s generalizing k with
  | case1 a b c d r ih =>
    cases k with
    | zero =>
      have hnumber : numberAt (a :: b :: c :: d :: r) 0 = (ofBigEndian d c b a).toNat := by
        rw [ofBigEndian_toNat]
        simp only [numberAt, spelledNumber, List.getD_cons_zero, List.getD_cons_succ, List.foldl_cons, List.foldl_nil]
        omega
      rw [Nat.mul_zero, hnumber, BitVec.ofNat_toNat, BitVec.setWidth_eq]
      rfl
    | succ k =>
      have hk : k < r.length / 4 := by
        simp only [List.length_cons] at h
        omega
      have hnumber : numberAt (a :: b :: c :: d :: r) (4 * (k + 1)) = numberAt r (4 * k) := by
        rw [show 4 * (k + 1) = 4 * k + 4 by omega]
        rfl
      rw [List.getElem?_cons_succ, ih hk, hnumber]
  | case2 r hshort =>
    have hlength := length_lt_four hshort
    omega

/-! ## The image of a flat binary -/

namespace Image

theorem ofFlat_payload (base : Word) (data : List UInt8) :
    (ofFlat base data).payload = swapped (padded data) := by
  have hlength := padded_length data
  rw [swapped_eq_flatMap (by omega)]
  rfl

theorem ofFlat_words (base : Word) (data : List UInt8) :
    (ofFlat base data).words = littleEndianWords (padded data) := bigEndianWords_flatMap _

theorem ofFlat_payload_length (base : Word) (data : List UInt8) :
    (ofFlat base data).payload.length = (data.length + 3) / 4 * 4 := by
  have hlength := padded_length data
  have hbytes : ∀ ws : List Word, (ws.flatMap bigEndian).length = 4 * ws.length := by
    intro ws
    induction ws with
    | nil => rfl
    | cons w ws ih =>
      rw [List.flatMap_cons, List.length_append, ih, bigEndian_length, List.length_cons]
      omega
  show ((littleEndianWords (padded data)).flatMap bigEndian).length = _
  rw [hbytes, littleEndianWords_length]
  omega

end Image

end Assembly

namespace Tools

open Assembly (Image DataSegment numberAt)

/-- The framer writes what the disassembler would frame. -/
theorem Framer.frame_eq_ofFlat (base : Word) (data : List UInt8) :
    Framer.frame base data = (Image.ofFlat base data).frame := by
  have hlength := Assembly.padded_length data
  have hsize : (Assembly.padded data).length = (Image.ofFlat base data).payload.length := by
    rw [Image.ofFlat_payload_length]
    omega
  rw [Framer.frame, Image.frame_eq, Image.header, ← hsize]
  simp only [List.flatMap_append, List.append_assoc]
  rfl

namespace Disassembler

variable {t : FileTree} {path : Text}

theorem loadFlat_runOn {data : List UInt8} (h : t.read path = .ok data) (base : Word) :
    (loadFlat base path).runOn t = (.ok (.ofFlat base data), t) := by
  simp [loadFlat, h]

theorem loadImage_runOn {bytes : List UInt8} {i : Image} (h : t.read path = .ok bytes) (hi : Image.ofBytes bytes = .ok i) :
    (loadImage path).runOn t = (.ok i, t) := by
  simp [loadImage, h, hi]

/-- Files that can all be loaded are shown one after the other. -/
theorem showAll_runOn {load : Text → Script (Except LoadError Image)} {image : Text → Image} (x : Exit)
    {paths : List Text} (h : ∀ path ∈ paths, (load path).runOn t = (.ok (image path), t)) :
    (showAll load x paths).runOn t =
      ({ x with out := x.out ++ paths.flatMap fun path => Text.unlines (render path (image path)) }, t) := by
  induction paths generalizing x with
  | nil => simp [showAll]
  | cons path paths ih =>
    rw [List.forall_mem_cons] at h
    rw [showAll, Script.runOn_bind, h.1]
    show (showAll load _ paths).runOn t = _
    rw [ih _ h.2, List.flatMap_cons, List.append_assoc]

end Disassembler

open Disassembler (loadFlat loadImage showAll render)

/-- However a flat binary is framed, the image is the same, with the words of the binary. -/
theorem framings_agree (base : Word) (data : List UInt8) (h : (data.length + 3) / 4 * 4 < 2 ^ 32) :
    (∀ d : DataSegment, d.bytes = data →
      (Image.mk 0xC0C0C0C0 base d.payload).toBytes = .ok (Framer.frame base data)) ∧
    ∃ i : Image, Image.ofBytes (Framer.frame base data) = .ok i ∧
      (∀ (t : FileTree) path, t.read path = .ok data → (loadFlat base path).runOn t = (.ok i, t)) ∧
      (∀ (t : FileTree) path, t.read path = .ok (Framer.frame base data) → (loadImage path).runOn t = (.ok i, t)) ∧
      (∀ (t t' : FileTree) x paths,
        (∀ path ∈ paths, t.read path = .ok data ∧ t'.read path = .ok (Framer.frame base data)) →
        ((showAll (loadFlat base) x paths).runOn t).1 = ((showAll loadImage x paths).runOn t').1 ∧
          ((showAll loadImage x paths).runOn t').1 =
            { x with out := x.out ++ paths.flatMap fun path => Text.unlines (render path i) }) ∧
      i.words.length = (data.length + 3) / 4 ∧
      ∀ k < (data.length + 3) / 4, i.words[k]? = some (BitVec.ofNat 32 (numberAt data (4 * k))) := by
  have hpadded := Assembly.padded_length data
  have hsize : (Image.ofFlat base data).payload.length < 2 ^ 32 := by rwa [Image.ofFlat_payload_length]
  have hread : Image.ofBytes (Framer.frame base data) = .ok (.ofFlat base data) := by
    rw [Framer.frame_eq_ofFlat]
    exact Image.ofBytes_frame hsize
  refine ⟨?_, .ofFlat base data, hread, ?_, ?_, ?_, ?_, ?_⟩
  · rintro d rfl
    have hsame : Image.mk 0xC0C0C0C0 base d.payload = .ofFlat base d.bytes := by
      rw [DataSegment.payload, ← Image.ofFlat_payload base]
      rfl
    rw [hsame, Framer.frame_eq_ofFlat]
    exact Image.toBytes_eq_ok_iff.mpr ⟨hsize, rfl⟩
  · intro t path ht
    exact Disassembler.loadFlat_runOn ht base
  · intro t path ht
    exact Disassembler.loadImage_runOn ht hread
  · intro t t' x paths hp
    have flat := Disassembler.showAll_runOn x fun path hpath => Disassembler.loadFlat_runOn (hp path hpath).1 base
    have framed := Disassembler.showAll_runOn x fun path hpath => Disassembler.loadImage_runOn (hp path hpath).2 hread
    rw [flat, framed]
    exact ⟨rfl, rfl⟩
  · rw [Image.ofFlat_words, Assembly.littleEndianWords_length]
    omega
  · intro k hk
    rw [Image.ofFlat_words, Assembly.littleEndianWords_getElem? (by omega), Assembly.numberAt_padded]

/-- Five bytes, flat in one tree and framed in another under the same name. -/
theorem framings_agree_five_bytes :
    (5 + 3) / 4 * 4 < 2 ^ 32 ∧
    Framer.frame 0x2000 [0x13, 0x05, 0xA0, 0x02, 0x73] =
      [0xC0, 0xC0, 0xC0, 0xC0, 0, 0, 0, 8, 0, 0, 0x20, 0, 0x02, 0xA0, 0x05, 0x13, 0, 0, 0, 0x73, 0xE0, 0xE0, 0xE0, 0xE0] ∧
    ∃ i : Image, Image.ofBytes (Framer.frame 0x2000 [0x13, 0x05, 0xA0, 0x02, 0x73]) = .ok i ∧
      i.words[1]? = some 0x73 ∧
      ((showAll (loadFlat 0x2000) { status := 0 } ["a.bin"]).runOn
          { files := [(⟨["a.bin"]⟩, [0x13, 0x05, 0xA0, 0x02, 0x73])] }).1 =
        ((showAll loadImage { status := 0 } ["a.bin"]).runOn
          { files := [(⟨["a.bin"]⟩, Framer.frame 0x2000 [0x13, 0x05, 0xA0, 0x02, 0x73])] }).1 := by
  obtain ⟨-, i, hi, -, -, shown, -, words⟩ := framings_agree 0x2000 [0x13, 0x05, 0xA0, 0x02, 0x73] (by decide)
  refine ⟨by decide, by decide +kernel, i, hi, words 1 (by decide), (shown _ _ _ _ ?_).1⟩
  intro path hpath
  obtain rfl : path = "a.bin" := by simpa using hpath
  exact ⟨by decide +kernel, by decide +kernel⟩

end Tools

end Rv32Tools
