import Rv32Tools.Text.Case

/-
  Rv32Tools.Proofs.Text.Glyphs — how a byte text falls into glyphs.

  - `ofGlyphs_glyphs`: the glyphs of a text hold its bytes, in order.
  - `glyphs_ascii_cons`: an ASCII byte is a glyph by itself, whatever stands around it.
  - `leading_eq_of_tails`: a glyph depends on its first byte and the continuation bytes after it, so that a
    change behind the next byte that starts a sequence does not reach it.
  - `glyphs_front`, `glyphs_back`: a text cut between two glyphs has the glyphs of both sides.
-/

namespace Rv32Tools.Text

/-! ## The first glyph -/

theorem twoBytes?_spec {a b : UInt8} {x : Char} (h : twoBytes? a b = some x) :
    0xC2 ≤ a ∧ a ≤ 0xDF ∧ isTail b = true := by
  simp only [twoBytes?] at h
  split at h
  · rename_i hc; simpa [and_assoc] using hc
  · cases h

theorem threeBytes?_spec {a b c : UInt8} {x : Char} (h : threeBytes? a b c = some x) :
    0xE0 ≤ a ∧ a ≤ 0xEF ∧ isTail b = true ∧ isTail c = true := by
  simp only [threeBytes?] at h
  split at h
  · rename_i hc
    simp only [Bool.and_eq_true, decide_eq_true_eq] at hc
    exact ⟨hc.1.1.1.1.1, hc.1.1.1.1.2, hc.1.1.1.2, hc.1.1.2⟩
  · cases h

theorem fourBytes?_spec {a b c d : UInt8} {x : Char} (h : fourBytes? a b c d = some x) :
    0xF0 ≤ a ∧ isTail b = true ∧ isTail c = true ∧ isTail d = true := by
  simp only [fourBytes?] at h
  split at h
  · rename_i hc
    simp only [Bool.and_eq_true, decide_eq_true_eq] at hc
    exact ⟨hc.1.1.1.1.1.1, hc.1.1.1.1.2, hc.1.1.1.2, hc.1.1.2⟩
  · cases h

theorem twoBytes?_eq_none {a : UInt8} (h : 0xDF < a) (b : UInt8) : twoBytes? a b = none := by
  cases h2 : twoBytes? a b with
  | none => rfl
  | some x => have := (twoBytes?_spec h2).2.1; grind

theorem threeBytes?_eq_none {a : UInt8} (h : 0xEF < a) (b c : UInt8) : threeBytes? a b c = none := by
  cases h3 : threeBytes? a b c with
  | none => rfl
  | some x => have := (threeBytes?_spec h3).2.1; grind

theorem isTail_not_ascii {b : UInt8} (h : isTail b = true) : ¬ b < 0x80 := by
  simp only [isTail, Bool.and_eq_true, decide_eq_true_eq] at h
  grind

@[simp] theorem leading_ascii {a : UInt8} (h : a < 0x80) (r : Text) :
    leading a r = ⟨[a], some (Char.ofNat a.toNat)⟩ := by simp [leading, h]

theorem leading_two {a b : UInt8} {x : Char} (h : twoBytes? a b = some x) (u : Text) :
    leading a (b :: u) = ⟨[a, b], some x⟩ := by
  have ha : ¬ a < 0x80 := by have := (twoBytes?_spec h).1; grind
  rcases u with _ | ⟨c, _ | ⟨d, u⟩⟩ <;> simp [leading, ha, h]

theorem leading_three {a b c : UInt8} {x : Char} (h : threeBytes? a b c = some x) (u : Text) :
    leading a (b :: c :: u) = ⟨[a, b, c], some x⟩ := by
  have hs := (threeBytes?_spec h).1
  have ha : ¬ a < 0x80 := by grind
  have h2 : twoBytes? a b = none := twoBytes?_eq_none (by grind) b
  rcases u with _ | ⟨d, u⟩ <;> simp [leading, ha, h, h2]

theorem leading_four {a b c d : UInt8} {x : Char} (h : fourBytes? a b c d = some x) (u : Text) :
    leading a (b :: c :: d :: u) = ⟨[a, b, c, d], some x⟩ := by
  have hs := (fourBytes?_spec h).1
  have ha : ¬ a < 0x80 := by grind
  have h2 : twoBytes? a b = none := twoBytes?_eq_none (by grind) b
  have h3 : threeBytes? a b c = none := threeBytes?_eq_none (by grind) b c
  simp [leading, ha, h, h2, h3]

/-- What the first glyph of a text can be: its first byte alone, or with continuation bytes that make a
character of it. -/
theorem leading_cases (a : UInt8) (r : Text) :
    (a < 0x80 ∧ leading a r = ⟨[a], some (Char.ofNat a.toNat)⟩) ∨
    (∃ b u x, r = b :: u ∧ twoBytes? a b = some x) ∨
    (∃ b c u x, r = b :: c :: u ∧ threeBytes? a b c = some x) ∨
    (∃ b c d u x, r = b :: c :: d :: u ∧ fourBytes? a b c d = some x) ∨
    (¬ a < 0x80 ∧ leading a r = ⟨[a], none⟩) := by
  by_cases ha : a < 0x80
  · exact Or.inl ⟨ha, leading_ascii ha r⟩
  rcases r with _ | ⟨b, r⟩
  · simp [leading, ha]
  cases h2 : twoBytes? a b with
  | some x => exact Or.inr (Or.inl ⟨b, r, x, rfl, h2⟩)
  | none =>
    rcases r with _ | ⟨c, r⟩
    · simp [leading, ha, h2]
    cases h3 : threeBytes? a b c with
    | some x => exact Or.inr (Or.inr (Or.inl ⟨b, c, r, x, rfl, h3⟩))
    | none =>
      rcases r with _ | ⟨d, r⟩
      · simp [leading, ha, h2, h3]
      cases h4 : fourBytes? a b c d with
      | some x => exact Or.inr (Or.inr (Or.inr (Or.inl ⟨b, c, d, r, x, rfl, h4⟩)))
      | none => simp [leading, ha, h2, h3, h4]

/-- A glyph of several bytes is its first byte and the continuation bytes `t` after it, and stays the same
whatever follows these; a glyph of one byte is that byte. -/
theorem leading_front (a : UInt8) (r : Text) :
    ∃ t u, r = t ++ u ∧ (leading a r).bytes = a :: t ∧ (∀ b ∈ t, isTail b = true) ∧
      (t ≠ [] → ∀ v, leading a (t ++ v) = leading a r) ∧
      (t = [] → ¬ a < 0x80 → leading a r = ⟨[a], none⟩) := by
  rcases leading_cases a r with ⟨ha, h⟩ | ⟨b, u, x, rfl, h2⟩ | ⟨b, c, u, x, rfl, h3⟩ |
    ⟨b, c, d, u, x, rfl, h4⟩ | ⟨_, h⟩
  · exact ⟨[], r, rfl, by rw [h], by simp, fun h => absurd rfl h, fun _ hn => absurd ha hn⟩
  · refine ⟨[b], u, rfl, by rw [leading_two h2], by simpa using (twoBytes?_spec h2).2.2, fun _ v => ?_, by simp⟩
    rw [List.singleton_append, leading_two h2, leading_two h2]
  · refine ⟨[b, c], u, rfl, by rw [leading_three h3], by simpa using (threeBytes?_spec h3).2.2, fun _ v => ?_, by simp⟩
    rw [List.cons_append, List.singleton_append, leading_three h3, leading_three h3]
  · refine ⟨[b, c, d], u, rfl, by rw [leading_four h4], by simpa using (fourBytes?_spec h4).2, fun _ v => ?_, by simp⟩
    rw [List.cons_append, List.cons_append, List.singleton_append, leading_four h4, leading_four h4]
  · exact ⟨[], r, rfl, by rw [h], by simp, fun h => absurd rfl h, fun _ _ => h⟩

/-- Two texts that go on with the same continuation bytes have the same first glyph. -/
theorem leading_eq_of_tails (a : UInt8) {r r' : Text} (h : r.takeWhile isTail = r'.takeWhile isTail) :
    leading a r = leading a r' := by
  by_cases ha : a < 0x80
  · rw [leading_ascii ha, leading_ascii ha]
  obtain ⟨t, u, hr, _, ht, hmany, hone⟩ := leading_front a r
  obtain ⟨t', u', hr', _, ht', hmany', hone'⟩ := leading_front a r'
  by_cases h0 : t = []
  · by_cases h0' : t' = []
    · rw [hone h0 ha, hone' h0' ha]
    · -- the bytes that make up the glyph of `r'` stand in `r` too
      have : r = t' ++ (u'.takeWhile isTail ++ r.dropWhile isTail) := by
        rw [← List.append_assoc, ← List.takeWhile_append_of_pos ht', ← hr', ← h, List.takeWhile_append_dropWhile]
      rw [this, hmany' h0']
  · have : r' = t ++ (u.takeWhile isTail ++ r'.dropWhile isTail) := by
      rw [← List.append_assoc, ← List.takeWhile_append_of_pos ht, ← hr, h, List.takeWhile_append_dropWhile]
    rw [this, hmany h0]

/-- Cutting a text off behind its first glyph, or later, leaves that glyph as it is. -/
theorem leading_eq_of_cut (a : UInt8) (r v : Text) (h : (leading a (r ++ v)).bytes.length ≤ r.length + 1) :
    leading a r = leading a (r ++ v) := by
  by_cases ha : a < 0x80
  · rw [leading_ascii ha, leading_ascii ha]
  obtain ⟨t, u, hr, hb, _, hmany, hone⟩ := leading_front a (r ++ v)
  obtain ⟨t', u', hr', hb', _, hmany', hone'⟩ := leading_front a r
  by_cases h0 : t = []
  · by_cases h0' : t' = []
    · rw [hone h0 ha, hone' h0' ha]
    · rw [← hmany' h0' (u' ++ v), ← List.append_assoc, ← hr']
  · have hlen : t.length ≤ r.length := by rw [hb] at h; simpa using h
    obtain ⟨w, rfl⟩ : t <+: r := List.prefix_of_prefix_length_le ⟨u, hr.symm⟩ (List.prefix_append r v) hlen
    exact hmany h0 w

/-! ## All glyphs -/

theorem glyphsAfter_eq_drop (k : Nat) (s : Text) : glyphsAfter k s = glyphs (s.drop k) := by
  induction k generalizing s with
  | zero => rfl
  | succ k ih =>
    cases s with
    | nil => rfl
    | cons a r => exact ih r

/-- The glyphs of a text are its first glyph and the glyphs of the rest. -/
theorem glyphs_cons (a : UInt8) (r : Text) :
    ∃ t u, r = t ++ u ∧ (∀ b ∈ t, isTail b = true) ∧ (leading a r).bytes = a :: t ∧
      glyphs (a :: r) = leading a r :: glyphs u := by
  obtain ⟨t, u, hr, hb, ht, _⟩ := leading_front a r
  refine ⟨t, u, hr, ht, hb, ?_⟩
  show leading a r :: glyphsAfter ((leading a r).bytes.length - 1) r = _
  rw [glyphsAfter_eq_drop, hb, List.length_cons, Nat.add_sub_cancel]
  conv => lhs; arg 2; rw [hr]
  rw [List.drop_left]

@[simp] theorem glyphs_ascii_cons {a : UInt8} (h : a < 0x80) (r : Text) :
    glyphs (a :: r) = ⟨[a], some (Char.ofNat a.toNat)⟩ :: glyphs r := by
  show leading a r :: glyphsAfter ((leading a r).bytes.length - 1) r = _
  rw [leading_ascii h]; rfl

@[simp] theorem ofGlyphs_nil : ofGlyphs [] = [] := rfl

@[simp] theorem ofGlyphs_cons (g : Glyph) (gs : List Glyph) : ofGlyphs (g :: gs) = g.bytes ++ ofGlyphs gs := rfl

@[simp] theorem ofGlyphs_append (gs hs : List Glyph) : ofGlyphs (gs ++ hs) = ofGlyphs gs ++ ofGlyphs hs := by
  simp [ofGlyphs]

theorem ofGlyphs_glyphs (s : Text) : ofGlyphs (glyphs s) = s := by
  induction hn : s.length using Nat.strongRecOn generalizing s with
  | _ n ih =>
    cases s with
    | nil => rfl
    | cons a r =>
      obtain ⟨t, u, rfl, _, hb, hg⟩ := glyphs_cons a r
      have hu := ih u.length (by simp at hn; omega) u rfl
      rw [hg, ofGlyphs_cons, hb, hu, List.cons_append]

/-- The glyphs in front of a cut between glyphs are the glyphs of the bytes in front of it. -/
theorem glyphs_front {s : Text} {gs hs : List Glyph} (h : glyphs s = gs ++ hs) : glyphs (ofGlyphs gs) = gs := by
  induction gs generalizing s with
  | nil => rfl
  | cons g gs ih =>
    cases s with
    | nil => cases h
    | cons a r =>
      obtain ⟨t, u, rfl, _, hb, hg⟩ := glyphs_cons a r
      rw [hg, List.cons_append] at h
      injection h with h1 h2
      have hu : u = ofGlyphs gs ++ ofGlyphs hs := by rw [← ofGlyphs_append, ← h2, ofGlyphs_glyphs]
      have hl : leading a (t ++ ofGlyphs gs) = g := by
        rw [← h1, hu, ← List.append_assoc]
        apply leading_eq_of_cut
        rw [List.append_assoc, ← hu, hb]
        simp
      obtain ⟨t', u', hr', _, hb', hg'⟩ := glyphs_cons a (t ++ ofGlyphs gs)
      have htt : t' = t := by
        have : a :: t' = a :: t := by rw [← hb', hl, ← h1, hb]
        simpa using this
      subst htt
      rw [List.append_cancel_left hr'.symm, hl, ih h2] at hg'
      rw [ofGlyphs_cons, ← h1, hb, List.cons_append, hg', h1]

/-- The glyphs behind a cut between glyphs are the glyphs of the bytes behind it. -/
theorem glyphs_back {s : Text} {gs hs : List Glyph} (h : glyphs s = gs ++ hs) : glyphs (ofGlyphs hs) = hs := by
  induction gs generalizing s with
  | nil => rw [← show glyphs s = hs from h, ofGlyphs_glyphs]
  | cons g gs ih =>
    cases s with
    | nil => cases h
    | cons a r =>
      obtain ⟨t, u, _, _, _, hg⟩ := glyphs_cons a r
      rw [hg, List.cons_append] at h
      injection h with _ h2
      exact ih h2

/-- An ASCII byte of a text is one of its glyphs. -/
theorem ascii_mem_glyphs {s : Text} {b : UInt8} (hb : b < 0x80) (h : b ∈ s) :
    ⟨[b], some (Char.ofNat b.toNat)⟩ ∈ glyphs s := by
  induction hn : s.length using Nat.strongRecOn generalizing s with
  | _ n ih =>
    cases s with
    | nil => cases h
    | cons a r =>
      obtain ⟨t, u, rfl, ht, hbytes, hg⟩ := glyphs_cons a r
      rw [hg]
      rcases List.mem_cons.mp h with rfl | h
      · rw [leading_ascii hb]; exact List.mem_cons_self
      · rcases List.mem_append.mp h with h | h
        · exact absurd hb (isTail_not_ascii (ht b h))
        · exact List.mem_cons_of_mem _ (ih u.length (by simp at hn; omega) h rfl)

end Rv32Tools.Text
