import Rv32Tools.Assembly.DataSegment
import Rv32Tools.Proofs.Assembly.Framing
import Rv32Tools.Proofs.Ram.Contents
import Rv32Tools.Proofs.Source.Reading

/-
  Rv32Tools.Proofs.Ram.DataImage — the bytes of a data segment, from its image to the banks of a RAM.

  A byte passes through four forms, and each has a lemma that says where it is then: the words of the image
  (`DataSegment.image_words`), the digits of the dump (`rowsOf_hexDump`), the part of a word's digits that a bank takes
  (`contentRow_word`), and the rows of the bank's initial block (`placedRows`). `data_image_in_banks` puts these together.
-/

namespace Rv32Tools

/-! ## Bytes and words -/

namespace Assembly

/-- Byte `j` of a word, counted from the low end. -/
def byteOf (w : Word) (j : Nat) : UInt8 := UInt8.ofNat (w.toNat / 256 ^ j)

theorem byteOf_toNat (w : Word) (j : Nat) : (byteOf w j).toNat = w.toNat / 256 ^ j % 256 := UInt8.toNat_ofNat

theorem byteOf_ofBigEndian (a b c d : UInt8) {j : Nat} (hj : j < 4) :
    byteOf (ofBigEndian d c b a) j = [a, b, c, d].getD j 0 := by
  have ha := a.toNat_lt
  have hb := b.toNat_lt
  have hc := c.toNat_lt
  have hd := d.toNat_lt
  apply UInt8.toNat_inj.mp
  rw [byteOf_toNat, ofBigEndian_toNat]
  simp only [spelledNumber, List.foldl_cons, List.foldl_nil]
  obtain rfl | rfl | rfl | rfl : j = 0 ∨ j = 1 ∨ j = 2 ∨ j = 3 := by omega
  · simp
  · simp; omega
  · simp; omega
  · simp; omega

/-- Four bytes at a time make a word, lowest byte first. -/
theorem bigEndianWords_swapped {s : List UInt8} (h : s.length % 4 = 0) :
    4 * (bigEndianWords (swapped s)).length = s.length ∧
      ∀ i w, (bigEndianWords (swapped s))[i]? = some w → ∀ j < 4, byteOf w j = s.getD (4 * i + j) 0 := by
  fun_induction swapped s with
  | case1 a b c d r ih =>
    have hr : r.length % 4 = 0 := by
      simp only [List.length_cons] at h
      omega
    obtain ⟨hlength, hbytes⟩ := ih hr
    refine ⟨by simp only [bigEndianWords, List.length_cons]; omega, fun i w hw j hj => ?_⟩
    cases i with
    | zero =>
      obtain rfl : ofBigEndian d c b a = w := by simpa [bigEndianWords] using hw
      rw [byteOf_ofBigEndian a b c d hj]
      match j, hj with
      | 0, _ => rfl
      | 1, _ => rfl
      | 2, _ => rfl
      | 3, _ => rfl
    | succ i =>
      rw [hbytes i w (by simpa [bigEndianWords] using hw) j hj, show 4 * (i + 1) + j = 4 * i + j + 4 by omega]
      rfl
  | case2 r hshort =>
    match r, h, hshort with
    | [], _, _ => simp [bigEndianWords]
    | [_], h, _ => simp at h
    | [_, _], h, _ => simp at h
    | [_, _, _], h, _ => simp at h
    | a :: b :: c :: d :: r, _, hshort => exact absurd rfl (hshort a b c d r)

theorem padded_length (s : List UInt8) : (padded s).length = 4 * ((s.length + 3) / 4) := by
  simp only [padded, List.length_append, List.length_replicate]
  omega

theorem padded_getD (s : List UInt8) (k : Nat) : (padded s).getD k 0 = s.getD k 0 := by
  simp only [padded, List.getD_eq_getElem?_getD, List.getElem?_append, List.getElem?_replicate]
  grind

theorem DataSegment.image_words (d : DataSegment) (base : Word) :
    (Image.ofData base d.payload).words.length = (d.bytes.length + 3) / 4 ∧
      ∀ i w, (Image.ofData base d.payload).words[i]? = some w → ∀ j < 4, byteOf w j = d.bytes.getD (4 * i + j) 0 := by
  have hlength := padded_length d.bytes
  obtain ⟨hwords, hbytes⟩ := bigEndianWords_swapped (s := padded d.bytes) (by omega)
  refine ⟨?_, fun i w hw j hj => ?_⟩
  · show (bigEndianWords (swapped (padded d.bytes))).length = _
    omega
  · rw [hbytes i w hw j hj, padded_getD]

end Assembly

namespace Ram

/-! ## The dump -/

theorem unlines_eq_join {rows : List Text} (h : rows ≠ []) : Text.unlines rows = Text.join [0x0A] rows ++ [0x0A] := by
  induction rows with
  | nil => exact absurd rfl h
  | cons row rows ih =>
    cases rows with
    | nil => simp [Text.unlines, Text.join]
    | cons next rows =>
      have hnext := ih (List.cons_ne_nil _ _)
      simp only [Text.unlines, List.flatMap_cons] at hnext ⊢
      rw [hnext]
      simp [Text.join]

/-- Rows put together to a file are the rows of that file. -/
theorem rowsOf_unlines {rows : List Text} (h : ∀ row ∈ rows, row ≠ [] ∧ 0x0A ∉ row ∧ 0x0D ∉ row) :
    rowsOf (Text.unlines rows) = rows := by
  have hreturn : 0x0D ∉ Text.unlines rows := Source.not_mem_unlines (by decide) fun row hrow => (h row hrow).2.2
  unfold rowsOf
  rw [Source.unifyEnds_of_not_mem hreturn]
  cases rows with
  | nil => rfl
  | cons row rows =>
    have hne : Text.join [0x0A] (row :: rows) ≠ [] := by
      intro hnil
      have hrow := (h row List.mem_cons_self).1
      cases rows <;> simp [Text.join, List.intercalate, hrow] at hnil
    have hpieces : Text.pieces (· == 0x0A) (Text.join [0x0A] (row :: rows)) = row :: rows := by
      refine Text.pieces_join 0x0A rfl (List.cons_ne_nil _ _) fun r hr b hb => ?_
      rw [beq_eq_false_iff_ne]
      rintro rfl
      exact (h r hr).2.1 hb
    rw [unlines_eq_join (List.cons_ne_nil _ _)]
    simp [hne, hpieces]

theorem rowsOf_hexDump (i : Assembly.Image) :
    rowsOf i.hexDump = i.words.map fun w => Text.hexLower 8 w.toNat := by
  refine rowsOf_unlines fun row hrow => ?_
  obtain ⟨w, -, rfl⟩ := List.mem_map.mp hrow
  have hdigits : ∀ b ∈ Text.fixedDigits 16 8 w.toNat, b ≠ 0x0A ∧ b ≠ 0x0D :=
    Text.fixedDigits_forall (by decide) (by decide) 8 w.toNat
  refine ⟨fun hnil => ?_, fun hmem => (hdigits _ hmem).1 rfl, fun hmem => (hdigits _ hmem).2 rfl⟩
  have hlength := Text.fixedDigits_length 16 8 w.toNat
  rw [show Text.fixedDigits 16 8 w.toNat = [] from hnil] at hlength
  cases hlength

/-! ## The rows of a bank -/

namespace Profile

variable {p : Profile}

/-- The part of a word that a bank takes is the digits of a quotient. -/
theorem slice_fixedDigits {base width bank : Nat} (h : p.sliceDigits * (bank + 1) ≤ width) (n : Nat) :
    p.slice bank (Text.fixedDigits base width n) =
      Text.fixedDigits base p.sliceDigits (n / base ^ (p.sliceDigits * bank)) := by
  obtain ⟨high, rfl⟩ : ∃ high, width = high + (p.sliceDigits + p.sliceDigits * bank) :=
    ⟨width - p.sliceDigits * (bank + 1), by rw [Nat.mul_succ] at h ⊢; omega⟩
  have hhigh : high + (p.sliceDigits + p.sliceDigits * bank) - p.sliceDigits * (bank + 1) = high := by
    rw [Nat.mul_succ]
    omega
  rw [slice, Text.fixedDigits_length, hhigh, Text.fixedDigits_add, List.drop_left' (Text.fixedDigits_length ..),
    Text.fixedDigits_add, List.take_left' (Text.fixedDigits_length ..)]

/-- The row of a bank of a 32-bit data RAM holds the byte of a word that is its own. -/
theorem contentRow_word (hkind : p.kind = dataKind) (hwidth : p.width = 32) (hhex : p.isHex = true) {bank : Nat}
    (hbank : bank < 4) (address : Int) (w : Word) :
    p.contentRow bank address (Text.hexLower 8 w.toNat) =
      "   ram[" ++ Text.decimalInt address ++ "] = 8'h" ++ Text.hexLower 2 (Assembly.byteOf w bank).toNat ++ " ;" := by
  have hbankWidth : p.bankWidth = 8 := by
    rw [bankWidth, banks, if_pos hkind, hwidth]
    rfl
  have hdigits : p.sliceDigits = 2 := by
    rw [sliceDigits, hbankWidth, digitBits, if_pos hhex]
    rfl
  have hslice : p.slice bank (Text.hexLower 8 w.toNat) = Text.hexLower 2 (Assembly.byteOf w bank).toNat := by
    have hshift : 16 ^ (2 * bank) = 256 ^ bank := Nat.pow_mul 16 2 bank
    have hmod : ∀ n, Text.fixedDigits 16 2 (n % 256) = Text.fixedDigits 16 2 n := Text.fixedDigits_mod 16 2
    rw [Text.hexLower, slice_fixedDigits (by rw [hdigits]; omega), hdigits, Assembly.byteOf_toNat, Text.hexLower,
      hmod, hshift]
  have hmark : Text.ofString "] = 8'h" = "] = " ++ (Text.decimalInt 8 ++ "'h") := by decide
  rw [contentRow, hslice, hbankWidth, radixMark, if_pos hhex, hmark]
  simp only [List.append_assoc]

end Profile

/-- The initial block stands in front of the end of the module. -/
theorem initialBlock_infix {s : Substitution} {contents : List Text} (hs : s.contents = some contents) {template : List Text}
    {row : Text} (hrow : row ∈ template) (hend : Text.startsWith "endmodule" row = true) :
    initialBlock contents <:+: s.apply template := by
  obtain ⟨front, back, rfl⟩ := List.append_of_mem hrow
  refine ⟨s.apply front, s.apply back, ?_⟩
  simp [Substitution.apply, Substitution.row_ending hs hend]

namespace Profile

variable {p : Profile}

/-- All modules come out when the words of the dump are as wide as the RAM. -/
theorem generate_eq {dump template wrapper : List Text} (hvalid : p.invalid? = none) (hkind : p.kind = dataKind)
    (hstart : p.startWord < p.depth) (hdump : ∀ row ∈ dump, ((row.length * p.digitBits : Nat) : Int) = p.width) :
    p.generate dump template wrapper = .ok {
      files := (List.range 4).map (fun bank => p.bankFileOf template bank (p.placedRows bank p.startWord dump)) ++
        [p.wrapperFile wrapper]
      overfull := wrap (p.depth - p.startWord) < dump.length } := by
  have hbanks : p.banks = 4 := by rw [banks, if_pos hkind]
  rw [generate_eq_ok_iff.mpr ⟨hvalid, hstart, fun word hword => hdump word (List.mem_of_mem_take hword), rfl⟩, hbanks,
    if_pos hkind]
  rfl

end Profile

/-- Every byte of a data segment is found at its address in the banks. -/
theorem data_image_in_banks (d : Assembly.DataSegment) (base : Word) :
    let image := Assembly.Image.ofData base d.payload
    image.words.length = (d.bytes.length + 3) / 4 ∧
    (∀ i w, image.words[i]? = some w → ∀ j < 4, Assembly.byteOf w j = d.bytes.getD (4 * i + j) 0) ∧
    ∀ (p : Profile) (template wrapper : List Text), p.invalid? = none → p.kind = Profile.dataKind → p.width = 32 →
      p.isHex = true → p.startWord < p.depth → (∃ row ∈ template, Text.startsWith "endmodule" row = true) →
      ∃ out, p.generate (rowsOf image.hexDump) template wrapper = .ok out ∧
        ∀ bank < 4, ∃ file contents, out.files[bank]? = some file ∧
          file.path = Path.join (Path.directory p.template) (p.moduleName ++ "_b" ++ Text.decimal bank ++ ".sv") ∧
          initialBlock contents <:+: file.rows ∧
          contents.length = min image.words.length (p.depth - p.startWord).toNat ∧
          ∀ i < image.words.length, p.startWord + i < p.depth →
            contents[i]? = some ("   ram[" ++ Text.decimalInt (p.startWord + i) ++ "] = 8'h" ++
              Text.hexLower 2 (d.bytes.getD (4 * i + bank) 0).toNat ++ " ;") := by
  intro image
  obtain ⟨hlength, hbytes⟩ := d.image_words base
  refine ⟨hlength, hbytes, ?_⟩
  intro p template wrapper hvalid hkind hwidth hhex hstart ⟨row, hrow, hend⟩
  have hbits : p.digitBits = 4 := by rw [Profile.digitBits, if_pos hhex]
  have hdump : ∀ row ∈ rowsOf image.hexDump, ((row.length * p.digitBits : Nat) : Int) = p.width := by
    intro row hrow
    rw [rowsOf_hexDump] at hrow
    obtain ⟨w, -, rfl⟩ := List.mem_map.mp hrow
    rw [Text.hexLower, Text.fixedDigits_length, hbits, hwidth]
    rfl
  refine ⟨_, Profile.generate_eq hvalid hkind hstart hdump, fun bank hbank => ?_⟩
  refine ⟨p.bankFileOf template bank (p.placedRows bank p.startWord (rowsOf image.hexDump)), _, ?_, ?_,
    initialBlock_infix rfl hrow hend, ?_, ?_⟩
  · rw [List.getElem?_append_left (by simpa using hbank), List.getElem?_map, List.getElem?_range hbank]
    rfl
  · rw [Profile.bankFileOf, Profile.bankModule, if_pos hkind]
  · simp [Profile.placedRows, rowsOf_hexDump, Nat.min_comm]
  · intro i hi hroom
    have hword : image.words[i]? = some image.words[i] := List.getElem?_eq_getElem hi
    have hplaced : i < (p.depth - p.startWord).toNat := by omega
    rw [Profile.placedRows, List.getElem?_mapIdx, List.getElem?_take_of_lt hplaced, rowsOf_hexDump, List.getElem?_map, hword,
      Option.map_some, Option.map_some, Profile.contentRow_word hkind hwidth hhex hbank, hbytes i _ hword bank hbank]

/-- Five bytes in the last two words of a RAM: the last bank holds the fourth of them, and a zero in place of the eighth. -/
theorem data_image_in_banks_five_bytes :
    let p : Profile := {
      dump := "a_hex.txt", template := "ram.sv", moduleName := "m", depth := 4, width := 32, offset := 5, kind := 1 }
    let d : Assembly.DataSegment := { base := 0, bytes := [0xAB, 0x0C, 0x01, 0xFE, 0x7F], symbols := ⟨[]⟩ }
    ∃ out, p.generate (rowsOf (Assembly.Image.ofData 0 d.payload).hexDump) ["module", "endmodule // ram"] [] = .ok out ∧
      ∃ file contents, out.files[3]? = some file ∧ initialBlock contents <:+: file.rows ∧
        contents[0]? = some (Text.ofString "   ram[2] = 8'hfe ;") ∧ contents[1]? = some (Text.ofString "   ram[3] = 8'h00 ;") := by
  intro p d
  obtain ⟨hlength, -, hbanks⟩ := data_image_in_banks d 0
  obtain ⟨out, hout, hfiles⟩ := hbanks p ["module", "endmodule // ram"] [] (by decide +kernel) rfl rfl (by decide +kernel)
    (by decide +kernel) ⟨"endmodule // ram", by decide, by decide⟩
  obtain ⟨file, contents, hfile, -, hblock, -, hrows⟩ := hfiles 3 (by decide)
  have hfirst := hrows 0 (by decide +kernel) (by decide +kernel)
  have hsecond := hrows 1 (by decide +kernel) (by decide +kernel)
  exact ⟨out, hout, file, contents, hfile, hblock, hfirst.trans (by decide +kernel), hsecond.trans (by decide +kernel)⟩

end Ram

end Rv32Tools
