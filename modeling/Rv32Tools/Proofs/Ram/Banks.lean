import Rv32Tools.Proofs.Ram.Contents

/-
  Rv32Tools.Proofs.Ram.Banks — the digits of a word, parted among the banks.

  The parts that the banks take, put together from the highest bank down, are the low end of the word (`slices_append`).
  A bank takes as many digits as its own width has room for, rounded down, and widths are multiples of 8. So all digits
  are taken (`sliceDigits_mul_banks`), except in a data RAM with a hexadecimal dump and an odd number of bytes in a word:
  there each of the four banks is half a digit wider than what it takes, and the two highest digits of the word are lost.
-/

namespace Rv32Tools.Ram

namespace Profile

variable {p : Profile} {word : Text}

/-- The parts of the lowest banks make up the low end of a word. -/
theorem slices_append {banks : Nat} (h : p.sliceDigits * banks ≤ word.length) :
    (List.range banks).reverse.flatMap (p.slice · word) = word.drop (word.length - p.sliceDigits * banks) := by
  induction banks with
  | zero => simp
  | succ banks ih =>
    rw [Nat.mul_succ] at h
    have hrest : word.drop (word.length - p.sliceDigits * banks) =
        (word.drop (word.length - p.sliceDigits * (banks + 1))).drop p.sliceDigits := by
      rw [List.drop_drop, Nat.mul_succ]
      congr 1
      omega
    rw [List.range_succ, List.reverse_append, List.reverse_singleton, List.singleton_append, List.flatMap_cons,
      ih (by omega), hrest]
    exact List.take_append_drop _ _

/-- The profile of a data RAM with a hexadecimal dump and an odd number of bytes in a word. -/
def SplitsDigits (p : Profile) : Prop := p.kind = dataKind ∧ p.isHex = true ∧ p.width % 16 ≠ 0

instance (p : Profile) : Decidable p.SplitsDigits := inferInstanceAs (Decidable (_ ∧ _))

theorem length_of_asWide (hvalid : p.invalid? = none) (hword : p.AsWide word) : 2 ≤ word.length := by
  obtain ⟨-, hpos, height, -⟩ := valid_numbers hvalid
  have hwidth : ((word.length * p.digitBits : Nat) : Int) = p.width := hword
  unfold digitBits at hwidth
  split at hwidth <;> omega

/-- All banks together take every digit of a word, or all but two. -/
theorem sliceDigits_mul_banks (hvalid : p.invalid? = none) (hword : p.AsWide word) :
    p.sliceDigits * p.banks + (if p.SplitsDigits then 2 else 0) = word.length := by
  obtain ⟨-, hpos, height, -⟩ := valid_numbers hvalid
  have hwidth : ((word.length * p.digitBits : Nat) : Int) = p.width := hword
  have hdigits : p.sliceDigits = (p.width / p.banks / p.digitBits).toNat := by
    rw [sliceDigits, bankWidth, Int.tdiv_eq_ediv_of_nonneg hpos.le, Int.tdiv_eq_ediv_of_nonneg]
    exact Int.ediv_nonneg hpos.le (Int.natCast_nonneg _)
  rw [hdigits]
  by_cases hdata : p.kind = dataKind
  · have hbanks : p.banks = 4 := by rw [banks, if_pos hdata]
    by_cases hhex : p.isHex = true
    · have hbits : p.digitBits = 4 := by rw [digitBits, if_pos hhex]
      rw [hbits] at hwidth
      rw [hbanks, hbits]
      by_cases hodd : p.width % 16 = 0
      · rw [if_neg (by simp [SplitsDigits, hodd])]
        omega
      · rw [if_pos ⟨hdata, hhex, hodd⟩]
        omega
    · have hbits : p.digitBits = 1 := by rw [digitBits, if_neg hhex]
      rw [hbits] at hwidth
      rw [hbanks, hbits, if_neg (by simp [SplitsDigits, hhex])]
      omega
  · have hbanks : p.banks = 1 := by rw [banks, if_neg hdata]
    rw [hbanks, if_neg (by simp [SplitsDigits, hdata])]
    by_cases hhex : p.isHex = true
    · have hbits : p.digitBits = 4 := by rw [digitBits, if_pos hhex]
      rw [hbits] at hwidth ⊢
      omega
    · have hbits : p.digitBits = 1 := by rw [digitBits, if_neg hhex]
      rw [hbits] at hwidth ⊢
      omega

/-- The parts that all banks take of a word are the word, or the word without its two highest digits. -/
theorem slices_of_valid (hvalid : p.invalid? = none) (hword : p.AsWide word) :
    (List.range p.banks).reverse.flatMap (p.slice · word) = if p.SplitsDigits then word.drop 2 else word := by
  have hlength := sliceDigits_mul_banks hvalid hword
  rw [slices_append (by omega)]
  by_cases hsplits : p.SplitsDigits
  · rw [if_pos hsplits] at hlength ⊢
    congr 1
    omega
  · rw [if_neg hsplits] at hlength ⊢
    rw [show word.length - p.sliceDigits * p.banks = 0 by omega, List.drop_zero]

theorem assignments_eq (p : Profile) (bank : Nat) (dump : List Text) :
    p.assignments bank dump = (List.range (min dump.length (p.depth - p.startWord).toNat)).map fun i : Nat =>
      ⟨p.startWord + i, p.bankWidth, p.radixMark, p.slice bank (dump.getD i [])⟩ := by
  refine List.ext_getElem (by simp [length_assignments]) fun i hi _ => ?_
  rw [length_assignments] at hi
  simp [assignments, placed, List.getElem?_eq_getElem (show i < dump.length by omega)]

end Profile

/-- The digits that an address has in the banks, from the highest bank down, are those of its word in the dump; in a data RAM
with a hexadecimal dump whose width is no multiple of 16 the two highest of them are missing. -/
theorem banks_hold_words (p : Profile) (dump template wrapper : List Text) (out : Output)
    (h : p.generate dump template wrapper = .ok out) :
    ∃ digits : (bank i : Nat) → Text,
      (∀ bank < p.banks, ∃ file, out.files[bank]? = some file ∧
        Spliced (initialBlock ((List.range (min dump.length (p.depth - p.startWord).toNat)).map fun i : Nat =>
          Assignment.row ⟨p.startWord + i, p.bankWidth, p.radixMark, digits bank i⟩)) template file.rows) ∧
      ∀ i < min dump.length (p.depth - p.startWord).toNat, ∃ word, dump[i]? = some word ∧ 2 ≤ word.length ∧
        (List.range p.banks).reverse.flatMap (digits · i) =
          if p.kind = Profile.dataKind ∧ p.isHex = true ∧ p.width % 16 ≠ 0 then word.drop 2 else word := by
  obtain ⟨hvalid, -, hfits, rfl⟩ := Profile.generate_eq_ok_iff.mp h
  refine ⟨fun bank i => p.slice bank (dump.getD i []), fun bank hbank => ?_, fun i hi => ?_⟩
  · refine ⟨p.filledBank dump template bank, Profile.getElem?_files hbank, ?_⟩
    have hspliced := p.filledBank_spliced dump template bank
    rw [p.assignments_eq, List.map_map] at hspliced
    exact hspliced
  · have hword : dump[i]? = some (dump.getD i []) := by
      rw [List.getD_eq_getElem?_getD, List.getElem?_eq_getElem (show i < dump.length by omega)]
      rfl
    have hwide : p.AsWide (dump.getD i []) := by
      refine hfits _ (List.mem_of_getElem? (i := i) ?_)
      rw [Profile.placed, List.getElem?_take_of_lt (by omega), hword]
    exact ⟨dump.getD i [], hword, Profile.length_of_asWide hvalid hwide, Profile.slices_of_valid hvalid hwide⟩

theorem banks_hold_words_sixteen :
    let p : Profile := {
      dump := "d_hex.txt", template := "ram.sv", moduleName := "m", depth := 8, width := 16, offset := 0, kind := 1 }
    ∃ (out : Output) (digits : (bank i : Nat) → Text), p.generate ["abcd"] ["endmodule"] ["endmodule"] = .ok out ∧
      (∀ bank < 4, ∃ file, out.files[bank]? = some file ∧
        Spliced (initialBlock [Assignment.row ⟨0, 4, "'h", digits bank 0⟩]) ["endmodule"] file.rows) ∧
      digits 3 0 ++ digits 2 0 ++ digits 1 0 ++ digits 0 0 = "abcd" := by
  intro p
  obtain ⟨out, hout⟩ : ∃ out, p.generate ["abcd"] ["endmodule"] ["endmodule"] = .ok out :=
    ⟨_, Profile.generate_eq_ok_iff.mpr ⟨by decide +kernel, by decide +kernel, by decide +kernel, rfl⟩⟩
  obtain ⟨digits, hbanks, hwords⟩ := banks_hold_words p ["abcd"] ["endmodule"] ["endmodule"] out hout
  obtain ⟨word, hword, -, hdigits⟩ := hwords 0 (by decide +kernel)
  cases hword
  have hstart : p.startWord = 0 := by decide +kernel
  have hbits : p.bankWidth = 4 := by decide +kernel
  rw [hstart, hbits] at hbanks
  refine ⟨out, digits, hout, hbanks, ?_⟩
  have hjoined : [digits 3 0, digits 2 0, digits 1 0, digits 0 0].flatten = "abcd" := hdigits
  simpa using hjoined

/-- With three bytes in a word each bank takes one digit, and a word of six digits loses two. -/
theorem two_digits_lost :
    let p : Profile := {
      dump := "d_hex.txt", template := "ram.sv", moduleName := "m", depth := 8, width := 24, offset := 0, kind := 1 }
    ∃ out, p.generate ["abcdef"] ["endmodule"] ["endmodule"] = .ok out ∧
      (out.files.take 4).map GeneratedFile.rows =
        ["f", "e", "d", "c"].map fun digit => initialBlock ["   ram[0] = 6'h" ++ digit ++ " ;"] := by
  intro p
  exact ⟨_, Profile.generate_eq_ok_iff.mpr ⟨by decide +kernel, by decide +kernel, by decide +kernel, rfl⟩, by decide +kernel⟩

end Rv32Tools.Ram
