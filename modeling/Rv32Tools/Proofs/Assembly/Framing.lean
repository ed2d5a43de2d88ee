import Mathlib.Algebra.Group.Nat.Defs
import Rv32Tools.Proofs.Assembly.Image

/-
  Rv32Tools.Proofs.Assembly.Framing — an image and its framed bytes determine each other.

  `Framed b i` lists what stands where in a framed image, each field by its place and as the number that its bytes
  spell. The bytes that an image is written as are framed so (`framed_iff`), and reading takes nothing else
  (`ofBytes_eq_ok_iff`). Hence writing and reading are inverse to each other (`framing_bijective`): an image whose length
  field is wrong, whose payload is cut off or goes on, or that ends in anything but the postamble is not read.
-/

namespace Rv32Tools.Assembly

/-! ## Words and their bytes -/

@[simp] theorem bigEndian_length (w : Word) : (bigEndian w).length = 4 := rfl

theorem bigEndian_ofBigEndian (a b c d : UInt8) : bigEndian (ofBigEndian a b c d) = [a, b, c, d] := by
  have byte : ∀ (start : Nat) (x : UInt8), (ofBigEndian a b c d).extractLsb' start 8 = x.toBitVec →
      (⟨(ofBigEndian a b c d).extractLsb' start 8⟩ : UInt8) = x := fun start x h => UInt8.eq_of_toBitVec_eq h
  unfold bigEndian
  rw [byte 24 a, byte 16 b, byte 8 c, byte 0 d]
  all_goals
    unfold ofBigEndian
    simp (disch := omega) only [BitVec.extractLsb'_append_eq_of_add_le, BitVec.extractLsb'_append_eq_of_le, Nat.reduceSub,
      BitVec.extractLsb'_eq_self]

/-- Whole words read off bytes give these bytes back. -/
theorem bigEndianWords_bytes {s : List UInt8} (h : s.length % 4 = 0) : (bigEndianWords s).flatMap bigEndian = s := by
  fun_induction bigEndianWords s with
  | case1 => rfl
  | case2 a => simp at h
  | case3 a b => simp at h
  | case4 a b c => simp at h
  | case5 a b c d r ih =>
    have hr : r.length % 4 = 0 := by
      simp only [List.length_cons] at h
      omega
    rw [List.flatMap_cons, bigEndian_ofBigEndian, ih hr]
    rfl

theorem bigEndianWords_eq_iff {s : List UInt8} (h : s.length % 4 = 0) {ws : List Word} :
    bigEndianWords s = ws ↔ s = ws.flatMap bigEndian := by
  constructor
  · rintro rfl
    exact (bigEndianWords_bytes h).symm
  · rintro rfl
    exact bigEndianWords_flatMap ws

/-! ## Fields by their places -/

/-- The number that bytes spell, highest byte first. -/
def spelledNumber (s : List UInt8) : Nat := s.foldl (fun n b => n * 256 + b.toNat) 0

theorem append_byte_toNat {n : Nat} (w : BitVec n) (b : UInt8) : (w ++ b.toBitVec).toNat = w.toNat * 256 + b.toNat := by
  have hb : b.toNat < 2 ^ 8 := b.toNat_lt
  rw [BitVec.toNat_append, UInt8.toNat_toBitVec, ← Nat.shiftLeft_add_eq_or_of_lt hb, Nat.shiftLeft_eq]

theorem ofBigEndian_toNat (a b c d : UInt8) : (ofBigEndian a b c d).toNat = spelledNumber [a, b, c, d] := by
  simp [ofBigEndian, append_byte_toNat, spelledNumber]

theorem spelledNumber_bigEndian (w : Word) : spelledNumber (bigEndian w) = w.toNat := by
  rw [bigEndian, ← ofBigEndian_toNat, ofBigEndian_bytes]

theorem eq_bigEndian_of_length {s : List UInt8} (h : s.length = 4) : ∃ w, s = bigEndian w := by
  match s, h with
  | [a, b, c, d], _ => exact ⟨ofBigEndian a b c d, (bigEndian_ofBigEndian a b c d).symm⟩

theorem spelledNumber_lt {s : List UInt8} (h : s.length = 4) : spelledNumber s < 2 ^ 32 := by
  obtain ⟨w, rfl⟩ := eq_bigEndian_of_length h
  rw [spelledNumber_bigEndian]
  exact w.isLt

/-- Four bytes that spell a word are the bytes of that word. -/
theorem spelledNumber_eq_iff {s : List UInt8} (h : s.length = 4) {w : Word} :
    spelledNumber s = w.toNat ↔ s = bigEndian w := by
  constructor
  · intro hs
    obtain ⟨v, rfl⟩ := eq_bigEndian_of_length h
    rw [spelledNumber_bigEndian, BitVec.toNat_inj] at hs
    rw [hs]
  · rintro rfl
    exact spelledNumber_bigEndian w

namespace Image

/-- Where the fields of the image `i` stand in its framed bytes. -/
structure Framed (b : List UInt8) (i : Image) : Prop where
  length : b.length = i.payload.length + 16
  preamble : spelledNumber (b.take 4) = i.preamble.toNat
  size : spelledNumber ((b.drop 4).take 4) = i.payload.length
  base : spelledNumber ((b.drop 8).take 4) = i.base.toNat
  payload : (b.drop 12).take i.payload.length = i.payload
  postamble : spelledNumber (b.drop (12 + i.payload.length)) = 0xE0E0E0E0

@[simp] theorem frame_length (i : Image) : i.frame.length = i.size := by
  simp only [frame, size, frameSize, List.length_append, bigEndian_length]
  omega

/-- The three words in front of the payload. -/
def header (i : Image) : List Word := [i.preamble, BitVec.ofNat 32 i.payload.length, i.base]

theorem frame_eq (i : Image) : i.frame = i.header.flatMap bigEndian ++ (i.payload ++ bigEndian postamble) := by
  simp [frame, header]

theorem header_length (i : Image) : (i.header.flatMap bigEndian).length = 12 := rfl

theorem frame_take (i : Image) : i.frame.take 12 = i.header.flatMap bigEndian := by
  rw [frame_eq, List.take_left' i.header_length]

theorem frame_drop (i : Image) : i.frame.drop 12 = i.payload ++ bigEndian postamble := by
  rw [frame_eq, List.drop_left' i.header_length]

theorem length_field {i : Image} (h : i.payload.length < 2 ^ 32) :
    (BitVec.ofNat 32 i.payload.length).toNat = i.payload.length := by
  rw [BitVec.toNat_ofNat, Nat.mod_eq_of_lt h]

/-! ## Writing and reading -/

/-- A framed image is read as that image. -/
theorem ofBytes_frame {i : Image} (h : i.payload.length < 2 ^ 32) : ofBytes i.frame = .ok i := by
  have hpost : bigEndianWords (bigEndian postamble) = [postamble] := bigEndianWords_flatMap [postamble]
  unfold ofBytes
  rw [frame_take, bigEndianWords_flatMap]
  simp [header, frame_drop, length_field h, hpost, size]

/-- What reading has checked when it returns an image. -/
theorem ofBytes_eq_ok {b : List UInt8} {i : Image} (h : ofBytes b = .ok i) :
    ∃ length : Word, bigEndianWords (b.take 12) = [i.preamble, length, i.base] ∧ b.length = length.toNat + 16 ∧
      bigEndianWords ((b.drop 12).drop length.toNat) = [postamble] ∧ (b.drop 12).take length.toNat = i.payload := by
  unfold ofBytes at h
  split at h
  · rename_i preamble length base hheader
    by_cases hshort : b.length < frameSize
    · simp [hshort] at h
    by_cases hsize : b.length = length.toNat + frameSize
    · rw [if_neg hshort, if_neg (not_not_intro hsize)] at h
      dsimp only at h
      split at h
      · rename_i found hfound
        by_cases hpost : found = postamble
        · rw [if_pos hpost, Except.ok.injEq] at h
          subst h hpost
          exact ⟨length, hheader, hsize, hfound, rfl⟩
        · simp [hpost] at h
      · exact absurd h nofun
    · simp [hshort, hsize] at h
  · exact absurd h nofun

/-- Nothing but framed images is read. -/
theorem frame_of_ofBytes {b : List UInt8} {i : Image} (h : ofBytes b = .ok i) :
    i.payload.length < 2 ^ 32 ∧ b = i.frame := by
  obtain ⟨length, hheader, hsize, hpost, hpayload⟩ := ofBytes_eq_ok h
  have hlength : i.payload.length = length.toNat := by
    rw [← hpayload, List.length_take, List.length_drop]
    omega
  have hfield : BitVec.ofNat 32 i.payload.length = length := by
    rw [hlength, BitVec.ofNat_toNat, BitVec.setWidth_eq]
  have hfront : b.take 12 = i.header.flatMap bigEndian := by
    rw [bigEndianWords_eq_iff (by rw [List.length_take]; omega)] at hheader
    rw [hheader, header, hfield]
  have hback : (b.drop 12).drop length.toNat = bigEndian postamble := by
    rw [bigEndianWords_eq_iff (by rw [List.length_drop, List.length_drop]; omega)] at hpost
    exact hpost
  refine ⟨hlength ▸ length.isLt, ?_⟩
  rw [frame_eq, ← hfront, ← hback, ← hpayload, List.take_append_drop, List.take_append_drop]

theorem ofBytes_eq_ok_iff {b : List UInt8} {i : Image} :
    ofBytes b = .ok i ↔ i.payload.length < 2 ^ 32 ∧ b = i.frame := by
  constructor
  · exact frame_of_ofBytes
  · rintro ⟨h, rfl⟩
    exact ofBytes_frame h

theorem toBytes_eq_ok_iff {b : List UInt8} {i : Image} :
    i.toBytes = .ok b ↔ i.payload.length < 2 ^ 32 ∧ b = i.frame := by
  unfold toBytes
  by_cases h : 0xFFFFFFFF < i.payload.length
  · simp only [h, if_true, reduceCtorEq, false_iff]
    omega
  · simp only [h, if_false, Except.ok.injEq]
    constructor
    · intro hb
      exact ⟨by omega, hb.symm⟩
    · rintro ⟨-, hb⟩
      exact hb.symm

theorem slices (b : List UInt8) (n : Nat) :
    b = b.take 4 ++ ((b.drop 4).take 4 ++ ((b.drop 8).take 4 ++ ((b.drop 12).take n ++ b.drop (12 + n)))) := by
  rw [← List.drop_drop, List.take_append_drop]
  rw [show b.drop 12 = (b.drop 8).drop 4 by rw [List.drop_drop], List.take_append_drop]
  rw [show b.drop 8 = (b.drop 4).drop 4 by rw [List.drop_drop], List.take_append_drop, List.take_append_drop]

/-- The framed bytes are those that hold every field in its place. -/
theorem framed_iff {b : List UInt8} {i : Image} : Framed b i ↔ i.payload.length < 2 ^ 32 ∧ b = i.frame := by
  constructor
  · intro f
    have hb := f.length
    have hpreamble := (spelledNumber_eq_iff (by rw [List.length_take]; omega)).mp f.preamble
    have hbase := (spelledNumber_eq_iff (by rw [List.length_take, List.length_drop]; omega)).mp f.base
    have hpost := (spelledNumber_eq_iff (w := postamble) (by rw [List.length_drop]; omega)).mp f.postamble
    have hlength : i.payload.length < 2 ^ 32 := by
      rw [← f.size]
      exact spelledNumber_lt (by rw [List.length_take, List.length_drop]; omega)
    have hsize := (spelledNumber_eq_iff (by rw [List.length_take, List.length_drop]; omega)).mp
      (f.size.trans (length_field hlength).symm)
    refine ⟨hlength, ?_⟩
    rw [slices b i.payload.length, hpreamble, hsize, hbase, f.payload, hpost]
    simp only [frame, List.append_assoc]
  · rintro ⟨h, rfl⟩
    exact {
      length := i.frame_length
      preamble := (spelledNumber_eq_iff rfl).mpr rfl
      size := by
        rw [← length_field h]
        exact (spelledNumber_eq_iff rfl).mpr rfl
      base := (spelledNumber_eq_iff rfl).mpr rfl
      payload := by rw [frame_drop, List.take_left]
      postamble := by
        rw [← List.drop_drop, frame_drop, List.drop_left]
        exact (spelledNumber_eq_iff (w := postamble) rfl).mpr rfl }

/-- Writing and reading framed images are inverse to each other, and the framed bytes hold every field in its place. -/
theorem framing_bijective :
    (∀ i : Image, i.payload.length < 2 ^ 32 → ∃ b, i.toBytes = .ok b ∧ b.length = i.size ∧ ofBytes b = .ok i) ∧
    (∀ b, (∃ i, ofBytes b = .ok i) ↔ ∃ i : Image, i.toBytes = .ok b) ∧
    (∀ b i, ofBytes b = .ok i → i.toBytes = .ok b) ∧
    (∀ b i, ofBytes b = .ok i ↔ Framed b i) ∧
    ∀ base ws, (ofText base ws).words = ws := by
  refine ⟨?_, ?_, ?_, ?_, words_ofText⟩
  · intro i h
    exact ⟨i.frame, toBytes_eq_ok_iff.mpr ⟨h, rfl⟩, i.frame_length, ofBytes_frame h⟩
  · intro b
    simp only [ofBytes_eq_ok_iff, toBytes_eq_ok_iff]
  · intro b i h
    exact toBytes_eq_ok_iff.mpr (frame_of_ofBytes h)
  · intro b i
    rw [ofBytes_eq_ok_iff, framed_iff]

/-- A payload that looks like the end of an image is read back whole, and the image cut off at that look is refused. -/
theorem framing_bijective_postamble_inside :
    (∃ b, (Image.mk 0 0xFFFFFFFF (bigEndian postamble ++ [1])).toBytes = .ok b ∧ b.length = 21 ∧
      ofBytes b = .ok ⟨0, 0xFFFFFFFF, bigEndian postamble ++ [1]⟩) ∧
    ∀ i, ¬ ofBytes ((Image.mk 0 0xFFFFFFFF (bigEndian postamble ++ [1])).frame.take 16) = .ok i := by
  refine ⟨framing_bijective.1 _ (by decide), fun i h => ?_⟩
  have f := (framing_bijective.2.2.2.1 _ i).mp h
  have hsize : 5 = i.payload.length := f.size
  have hlength : 16 = i.payload.length + 16 := f.length
  omega

end Image

end Rv32Tools.Assembly
