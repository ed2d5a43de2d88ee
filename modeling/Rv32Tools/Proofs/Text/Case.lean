import Rv32Tools.Proofs.Text.Patch

/-
  Rv32Tools.Proofs.Text.Case — what the lower case of a text tells about the text.

  An ASCII byte is in the lower case of a text by its small letter (`lowerByte_mem_toLower`). A character outside
  ASCII stays outside, except for the two capitals whose small letters are `i` and `k` (`lowerChar_not_ascii`). So a
  text is ASCII if its lower case is and has neither of the two (`ascii_of_toLower`), and then its bytes are lower-cased
  one by one (`toLower_ascii`).
-/

namespace Rv32Tools.Text

/-! ## Characters outside ASCII -/

theorem toNat_ofNat_of_valid {n : Nat} (h : n.isValidChar) : (Char.ofNat n).toNat = n := by
  rw [Char.ofNat, dif_pos h]
  rfl

theorem twoBytes?_not_ascii {a b : UInt8} {x : Char} (h : twoBytes? a b = some x) : 0x80 ≤ x.toNat := by
  obtain ⟨hlow, hhigh, _⟩ := twoBytes?_spec h
  simp only [UInt8.le_iff_toNat_le, UInt8.reduceToNat] at hlow hhigh
  unfold twoBytes? at h
  split at h
  · cases h
    have hb : payload b < 64 := Nat.mod_lt _ (by decide)
    rw [toNat_ofNat_of_valid (Or.inl (by omega))]
    omega
  · cases h

theorem threeBytes?_not_ascii {a b c : UInt8} {x : Char} (h : threeBytes? a b c = some x) : 0x80 ≤ x.toNat := by
  unfold threeBytes? at h
  simp only at h
  split at h
  · rename_i hn
    simp only [Bool.and_eq_true, Bool.not_eq_true', decide_eq_true_eq, Bool.and_eq_false_iff, decide_eq_false_iff_not] at hn
    cases h
    have hb : payload b < 64 := Nat.mod_lt _ (by decide)
    have hc : payload c < 64 := Nat.mod_lt _ (by decide)
    rw [toNat_ofNat_of_valid]
    · omega
    · show _ ∨ _
      omega
  · cases h

theorem fourBytes?_not_ascii {a b c d : UInt8} {x : Char} (h : fourBytes? a b c d = some x) : 0x80 ≤ x.toNat := by
  unfold fourBytes? at h
  simp only at h
  split at h
  · rename_i hn
    simp only [Bool.and_eq_true, decide_eq_true_eq] at hn
    cases h
    rw [toNat_ofNat_of_valid]
    · omega
    · show _ ∨ _
      omega
  · cases h

/-- A glyph is one ASCII byte, or a character outside ASCII, or no character. -/
theorem glyph_cases {s : Text} {g : Glyph} (h : g ∈ glyphs s) :
    (∃ b, b < 0x80 ∧ g = asciiGlyph b) ∨ (∃ x, g.char = some x ∧ 0x80 ≤ x.toNat) ∨ g.char = none := by
  induction hn : s.length using Nat.strongRecOn generalizing s with
  | _ n ih =>
    cases s with
    | nil => cases h
    | cons a r =>
      obtain ⟨t, u, hr, _, _, hg⟩ := glyphs_cons a r
      rw [hg] at h
      rcases List.mem_cons.mp h with rfl | h
      · rcases leading_cases a r with ⟨ha, h⟩ | ⟨b, u, x, rfl, h2⟩ | ⟨b, c, u, x, rfl, h3⟩ |
          ⟨b, c, d, u, x, rfl, h4⟩ | ⟨_, h⟩
        · exact Or.inl ⟨a, ha, h⟩
        · exact Or.inr (Or.inl ⟨x, by rw [leading_two h2], twoBytes?_not_ascii h2⟩)
        · exact Or.inr (Or.inl ⟨x, by rw [leading_three h3], threeBytes?_not_ascii h3⟩)
        · exact Or.inr (Or.inl ⟨x, by rw [leading_four h4], fourBytes?_not_ascii h4⟩)
        · exact Or.inr (Or.inr (by rw [h]))
      · refine ih u.length ?_ h rfl
        rw [← hn, hr, List.length_cons, List.length_append]
        omega

/-! ## Lower case -/

/-- A character outside ASCII is written with bytes outside ASCII. -/
theorem utf8EncodeChar_not_ascii {c : Char} (h : 0x80 ≤ c.toNat) : ∃ b ∈ String.utf8EncodeChar c, ¬ b < 0x80 := by
  have last : ¬ UInt8.ofNat (c.toNat % 64 + 128) < 0x80 := by
    simp only [UInt8.lt_iff_toNat_lt, UInt8.toNat_ofNat', UInt8.reduceToNat]
    omega
  refine ⟨UInt8.ofNat (c.toNat % 64 + 128), ?_, last⟩
  have hascii : ¬ c.val.toNat ≤ 127 := Nat.not_le.mpr h
  simp only [String.utf8EncodeChar, if_neg hascii]
  split
  · exact List.mem_cons_of_mem _ List.mem_cons_self
  · split
    · exact List.mem_cons_of_mem _ (List.mem_cons_of_mem _ List.mem_cons_self)
    · exact List.mem_cons_of_mem _ (List.mem_cons_of_mem _ (List.mem_cons_of_mem _ List.mem_cons_self))

/-- The small letter of a character outside ASCII is outside ASCII, or it is `i` or `k`. -/
theorem lowerChar_not_ascii {c : Char} (h : 0x80 ≤ c.toNat) :
    0x80 ≤ (lowerChar c).toNat ∨ lowerChar c ∈ [Char.ofNat 0, 'i', 'k'] := by
  have runs : ∀ r ∈ lowerRuns, 0x80 ≤ r.first + r.shift ∨
      r.first = r.last ∧ (r.first + r.shift = 0x69 ∨ r.first + r.shift = 0x6B) := by decide +kernel
  unfold lowerChar
  rw [if_neg (Nat.not_lt.mpr h)]
  cases hf : lowerRuns.find? (·.holds c.toNat) with
  | none => exact Or.inl h
  | some r =>
    have hholds := List.find?_some hf
    simp only [CaseRun.holds, Bool.and_eq_true, decide_eq_true_eq] at hholds
    obtain ⟨⟨hfirst, hlast⟩, _⟩ := hholds
    simp only
    generalize hn : Int.toNat (c.toNat + r.shift) = n
    rcases runs r (List.mem_of_find?_eq_some hf) with hrun | ⟨hone, hrun | hrun⟩
    · by_cases hvalid : n.isValidChar
      · left
        rw [toNat_ofNat_of_valid hvalid]
        omega
      · -- a number that is no character stands for the first one
        have hzero : Char.ofNat n = Char.ofNat 0 := by
          rw [Char.ofNat, dif_neg hvalid]
          rfl
        rw [hzero]
        exact Or.inr List.mem_cons_self
    · have hi : n = 0x69 := by omega
      subst hi
      exact Or.inr (by decide)
    · have hk : n = 0x6B := by omega
      subst hk
      exact Or.inr (by decide)

/-- An ASCII byte of a text is in its lower case by its small letter. -/
theorem lowerByte_mem_toLower {s : Text} {b : UInt8} (hb : b < 0x80) (h : b ∈ s) : lowerByte b ∈ toLower s := by
  have lower : ∀ b : UInt8, b < 0x80 → lowerByte b ∈ String.utf8EncodeChar (lowerChar (Char.ofNat b.toNat)) :=
    forall_byte (by decide +kernel)
  exact List.mem_flatMap.mpr ⟨_, ascii_mem_glyphs hb h, lower b hb⟩

/-- A text is ASCII if its lower case is, and has no `i` and no `k`. -/
theorem ascii_of_toLower {s : Text} (h : ∀ b ∈ toLower s, b < 0x80 ∧ b ∉ [0, 0x69, 0x6B]) : ∀ b ∈ s, b < 0x80 := by
  intro b hb
  rw [← ofGlyphs_glyphs s] at hb
  obtain ⟨g, hg, hb⟩ := List.mem_flatMap.mp hb
  have hlower : ∀ x, g.char = some x → ∀ b ∈ String.utf8EncodeChar (lowerChar x), b < 0x80 ∧ b ∉ [0, 0x69, 0x6B] := by
    intro x hx b hb
    refine h b (List.mem_flatMap.mpr ⟨g, hg, ?_⟩)
    simpa only [hx] using hb
  rcases glyph_cases hg with ⟨a, ha, rfl⟩ | ⟨x, hx, hout⟩ | hnone
  · rw [List.mem_singleton.mp hb]
    exact ha
  · rcases lowerChar_not_ascii hout with hout | hletter
    · obtain ⟨d, hd, hnot⟩ := utf8EncodeChar_not_ascii hout
      exact absurd (hlower x hx d hd).1 hnot
    · have letters : [Char.ofNat 0, 'i', 'k'].all (fun y => (String.utf8EncodeChar y).any [0, 0x69, 0x6B].contains) = true := by
        decide
      obtain ⟨d, hd, hin⟩ := List.any_eq_true.mp (List.all_eq_true.mp letters _ hletter)
      exact absurd (List.contains_iff_mem.mp hin) (hlower x hx d hd).2
  · have hreplaced : 0xEF ∈ toLower s := by
      refine List.mem_flatMap.mpr ⟨g, hg, ?_⟩
      simp only [hnone]
      exact List.mem_cons_self
    exact absurd (h 0xEF hreplaced).1 (by decide)

theorem toLower_ascii {s : Text} (h : ∀ b ∈ s, b < 0x80) : toLower s = s.map lowerByte := by
  have lower : ∀ b : UInt8, b < 0x80 → String.utf8EncodeChar (lowerChar (Char.ofNat b.toNat)) = [lowerByte b] :=
    forall_byte (by decide +kernel)
  rw [toLower, glyphs_ascii h, List.flatMap_map, List.map_eq_flatMap]
  exact List.flatMap_congr fun b hb => lower b (h b hb)

end Rv32Tools.Text
