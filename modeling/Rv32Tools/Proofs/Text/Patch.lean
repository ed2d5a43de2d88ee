import Rv32Tools.Proofs.Text.Words
import Mathlib.Data.List.Forall2

/-
  Rv32Tools.Proofs.Text.Patch — texts that differ in runs of visible ASCII.

  `Patched R s t` says that `t` is `s` with some of its runs replaced, each run and its replacement being
  related by `R`. Cutting both texts at bytes that occur in no run gives patched parts again:
  - `Patched.takeWhile`, `Patched.dropWhile`: the cut at the first byte of a class;
  - `Patched.splitOnP`: the cuts at every byte of a class;
  - `Patched.glyphs`: the runs being ASCII, the same holds of the glyphs of the two texts;
  - `Patched.words`: the runs being visible as well, the words of the two texts are patched one by one.
-/

namespace Rv32Tools.Text

inductive Patched {α : Type} (R : List α → List α → Prop) : List α → List α → Prop
  | nil : Patched R [] []
  | keep (a : α) {s t : List α} : Patched R s t → Patched R (a :: s) (a :: t)
  | swap {c d s t : List α} : R c d → Patched R s t → Patched R (c ++ s) (d ++ t)

namespace Patched

variable {α β : Type} {R : List α → List α → Prop} {s t : List α}

theorem refl (s : List α) : Patched R s s := by
  induction s with
  | nil => exact .nil
  | cons a s ih => exact .keep a ih

theorem keeps (u : List α) (h : Patched R s t) : Patched R (u ++ s) (u ++ t) := by
  induction u with
  | nil => exact h
  | cons a u ih => exact .keep a ih

theorem flatMap {Q : List β → List β → Prop} {f : α → List β} (hf : ∀ c d, R c d → Q (c.flatMap f) (d.flatMap f))
    (h : Patched R s t) : Patched Q (s.flatMap f) (t.flatMap f) := by
  induction h with
  | nil => exact .nil
  | keep a _ ih => exact keeps (f a) ih
  | swap hr _ ih => rw [List.flatMap_append, List.flatMap_append]; exact .swap (hf _ _ hr) ih

/-- A text without a replaced run is unchanged; otherwise some replacement is part of it. -/
theorem eq_or_mem (h : Patched R s t) : s = t ∨ ∃ c d, R c d ∧ ∀ b ∈ d, b ∈ t := by
  induction h with
  | nil => exact Or.inl rfl
  | keep a _ ih =>
    rcases ih with rfl | ⟨c, d, hr, hd⟩
    · exact Or.inl rfl
    · exact Or.inr ⟨c, d, hr, fun b hb => List.mem_cons_of_mem a (hd b hb)⟩
  | swap hr _ _ => exact Or.inr ⟨_, _, hr, fun b hb => List.mem_append_left _ hb⟩

theorem eq_nil_iff (hne : ∀ c d, R c d → c ≠ [] ∧ d ≠ []) (h : Patched R s t) : s = [] ↔ t = [] := by
  cases h with
  | nil => simp
  | keep a _ => simp
  | swap hr _ => simp [hne _ _ hr]

theorem any_eq (p : α → Bool) (hp : ∀ c d, R c d → c.any p = d.any p) (h : Patched R s t) :
    s.any p = t.any p := by
  induction h with
  | nil => rfl
  | keep a _ ih => rw [List.any_cons, List.any_cons, ih]
  | swap hr _ ih => rw [List.any_append, List.any_append, hp _ _ hr, ih]

/-- What is decided at the last element is the same for both texts, if no run decides it. -/
theorem getLast?_eq_some_iff {b : α} (hb : ∀ c d, R c d → c ≠ [] ∧ d ≠ [] ∧ b ∉ c ∧ b ∉ d) (h : Patched R s t) :
    s.getLast? = some b ↔ t.getLast? = some b := by
  induction h with
  | nil => rfl
  | @keep a s t h ih =>
    have hn := h.eq_nil_iff fun c d hr => ⟨(hb c d hr).1, (hb c d hr).2.1⟩
    cases s with
    | nil => rw [hn.mp rfl]
    | cons x s =>
      cases t with
      | nil => exact absurd (hn.mpr rfl) (by simp)
      | cons y t => rw [List.getLast?_cons_cons, List.getLast?_cons_cons, ih]
  | @swap c d s t hr h ih =>
    obtain ⟨hc, hd, hbc, hbd⟩ := hb c d hr
    have hn := h.eq_nil_iff fun c d hr => ⟨(hb c d hr).1, (hb c d hr).2.1⟩
    by_cases hs : s = []
    · rw [hs, hn.mp hs, List.append_nil, List.append_nil]
      constructor
      · intro e; exact absurd (List.mem_of_getLast? e) hbc
      · intro e; exact absurd (List.mem_of_getLast? e) hbd
    · have ht : t ≠ [] := fun e => hs (hn.mpr e)
      rw [List.getLast?_append_of_ne_nil c hs, List.getLast?_append_of_ne_nil d ht, ih]

/-! ## Cuts -/

section Cuts

variable {p : α → Bool}

theorem takeWhile (hp : ∀ c d, R c d → (∀ b ∈ c, p b = true) ∧ ∀ b ∈ d, p b = true) (h : Patched R s t) :
    Patched R (s.takeWhile p) (t.takeWhile p) := by
  induction h with
  | nil => exact .nil
  | keep a _ ih =>
    rw [List.takeWhile_cons, List.takeWhile_cons]
    split
    · exact .keep a ih
    · exact .nil
  | swap hr _ ih =>
    rw [List.takeWhile_append_of_pos (hp _ _ hr).1, List.takeWhile_append_of_pos (hp _ _ hr).2]
    exact .swap hr ih

theorem dropWhile (hp : ∀ c d, R c d → (∀ b ∈ c, p b = true) ∧ ∀ b ∈ d, p b = true) (h : Patched R s t) :
    Patched R (s.dropWhile p) (t.dropWhile p) := by
  induction h with
  | nil => exact .nil
  | keep a h ih =>
    rw [List.dropWhile_cons, List.dropWhile_cons]
    split
    · exact ih
    · exact .keep a h
  | swap hr _ ih =>
    rw [List.dropWhile_append_of_pos (hp _ _ hr).1, List.dropWhile_append_of_pos (hp _ _ hr).2]
    exact ih

theorem splitOnP_append_of_neg {c : List α} (hc : ∀ b ∈ c, p b = false) (s : List α) :
    (c ++ s).splitOnP p = (s.splitOnP p).modifyHead (c ++ ·) := by
  induction c with
  | nil => obtain ⟨x, xs, hx⟩ := List.exists_cons_of_ne_nil (List.splitOnP_ne_nil p s); simp [hx]
  | cons b c ih =>
    have hb : ¬ p b = true := by rw [hc b List.mem_cons_self]; simp
    rw [List.cons_append, List.splitOnP_cons_eq_if_modifyHead, if_neg hb,
      ih fun x hx => hc x (List.mem_cons_of_mem b hx), List.modifyHead_modifyHead]
    rfl

theorem forall₂_modifyHead {P : β → β → Prop} {f g : β → β} (hf : ∀ x y, P x y → P (f x) (g y)) {xs ys : List β}
    (h : List.Forall₂ P xs ys) : List.Forall₂ P (xs.modifyHead f) (ys.modifyHead g) := by
  cases h with
  | nil => exact .nil
  | cons h hs => exact .cons (hf _ _ h) hs

/-- The parts between cuts are patched one by one. -/
theorem splitOnP (hp : ∀ c d, R c d → (∀ b ∈ c, p b = false) ∧ ∀ b ∈ d, p b = false) (h : Patched R s t) :
    List.Forall₂ (Patched R) (s.splitOnP p) (t.splitOnP p) := by
  induction h with
  | nil => exact .cons .nil .nil
  | keep a _ ih =>
    rw [List.splitOnP_cons_eq_if_modifyHead, List.splitOnP_cons_eq_if_modifyHead]
    split
    · exact .cons .nil ih
    · exact forall₂_modifyHead (fun _ _ h => .keep a h) ih
  | swap hr _ ih =>
    rw [splitOnP_append_of_neg (hp _ _ hr).1, splitOnP_append_of_neg (hp _ _ hr).2]
    exact forall₂_modifyHead (fun _ _ h => .swap hr h) ih

end Cuts

end Patched

/-! ## Glyphs and words -/

/-- The glyph of an ASCII byte. -/
def asciiGlyph (b : UInt8) : Glyph := ⟨[b], some (Char.ofNat b.toNat)⟩

/-- A byte with a mark of its own: ASCII, and neither a control nor a space. -/
def isGraphic (b : UInt8) : Bool := 0x21 ≤ b && b ≤ 0x7E

theorem isGraphic_ascii {b : UInt8} (h : isGraphic b = true) : b < 0x80 := by
  simp only [isGraphic, Bool.and_eq_true, decide_eq_true_eq] at h
  grind

/-- What holds of the numbers below 256 as bytes holds of every byte. -/
theorem forall_byte {p : UInt8 → Prop} (h : ∀ n < 256, p (UInt8.ofNat n)) (b : UInt8) : p b := by
  have := h b.toNat b.toNat_lt
  rwa [UInt8.ofNat_toNat] at this

/-- A test of each byte of a text, which looks at no other byte. -/
theorem forall_mem_of_all {p : UInt8 → Prop} [DecidablePred p] {s : Text} (h : s.all (fun b => decide (p b)) = true) :
    ∀ b ∈ s, p b := fun b hb => of_decide_eq_true (List.all_eq_true.mp h b hb)

theorem asciiGlyph_not_blank {b : UInt8} : isGraphic b = true → (asciiGlyph b).isBlank = false :=
  forall_byte (p := fun b => isGraphic b = true → (asciiGlyph b).isBlank = false) (by decide +kernel) b

/-- A visible byte of a text lies in one of its words. -/
theorem mem_words_of_isGraphic {s : Text} {b : UInt8} (hb : isGraphic b = true) (h : b ∈ s) : ∃ w ∈ words s, b ∈ w := by
  have hglyph : asciiGlyph b ∈ glyphs s := ascii_mem_glyphs (isGraphic_ascii hb) h
  obtain ⟨w, hw, hbytes⟩ := exists_mem_words hglyph (asciiGlyph_not_blank hb)
  exact ⟨w, hw, hbytes b List.mem_cons_self⟩

theorem words_ne_nil {s : Text} {b : UInt8} (hb : isGraphic b = true) (h : b ∈ s) : words s ≠ [] := by
  obtain ⟨w, hw, _⟩ := mem_words_of_isGraphic hb h
  exact List.ne_nil_of_mem hw

theorem glyphs_ascii_append {c : Text} (hc : ∀ b ∈ c, b < 0x80) (s : Text) :
    glyphs (c ++ s) = c.map asciiGlyph ++ glyphs s := by
  induction c with
  | nil => rfl
  | cons b c ih =>
    rw [List.cons_append, glyphs_ascii_cons (hc b List.mem_cons_self), ih fun x hx => hc x (List.mem_cons_of_mem b hx)]
    rfl

theorem glyphs_ascii {s : Text} (h : ∀ b ∈ s, b < 0x80) : glyphs s = s.map asciiGlyph := by
  have := glyphs_ascii_append h []
  rwa [List.append_nil, show glyphs [] = [] from rfl, List.append_nil] at this

theorem tails_ascii_append {c : Text} (hne : c ≠ []) (hc : ∀ b ∈ c, b < 0x80) (s : Text) :
    (c ++ s).takeWhile isTail = [] := by
  obtain ⟨b, c, rfl⟩ := List.exists_cons_of_ne_nil hne
  have hb : ¬ isTail b = true := fun hb => isTail_not_ascii hb (hc b List.mem_cons_self)
  rw [List.cons_append, List.takeWhile_cons, if_neg hb]

@[simp] theorem ofGlyphs_map_asciiGlyph (c : Text) : ofGlyphs (c.map asciiGlyph) = c := by
  induction c with
  | nil => rfl
  | cons b c ih => rw [List.map_cons, ofGlyphs_cons, ih]; rfl

/-- Runs and their replacements as glyphs. -/
def GlyphRun (R : Text → Text → Prop) (c d : List Glyph) : Prop :=
  ∃ c' d', R c' d' ∧ c = c'.map asciiGlyph ∧ d = d'.map asciiGlyph

namespace Patched

variable {R : Text → Text → Prop} {s t : Text}

section Ascii

variable (hR : ∀ c d, R c d → c ≠ [] ∧ d ≠ [] ∧ (∀ b ∈ c, b < 0x80) ∧ ∀ b ∈ d, b < 0x80)

include hR

/-- No run starts with a continuation byte, so both texts go on with the same ones. -/
theorem tails_eq (h : Patched R s t) : s.takeWhile isTail = t.takeWhile isTail := by
  induction h with
  | nil => rfl
  | keep a _ ih => rw [List.takeWhile_cons, List.takeWhile_cons, ih]
  | swap hr _ _ =>
    obtain ⟨hc, hd, hca, hda⟩ := hR _ _ hr
    rw [tails_ascii_append hc hca, tails_ascii_append hd hda]

theorem glyphs_drop (h : Patched R s t) :
    ∀ k ≤ (s.takeWhile isTail).length, Patched (GlyphRun R) (Text.glyphs (s.drop k)) (Text.glyphs (t.drop k)) := by
  induction h with
  | nil => intro k _; rw [List.drop_nil]; exact .nil
  | @keep a s t h ih =>
    intro k hk
    cases k with
    | zero =>
      obtain ⟨v, u, rfl, hv, hb, hg⟩ := glyphs_cons a s
      obtain ⟨v', u', rfl, _, hb', hg'⟩ := glyphs_cons a t
      have hl := leading_eq_of_tails a (h.tails_eq hR)
      obtain rfl : v = v' := by
        have : a :: v = a :: v' := by rw [← hb, hl, hb']
        simpa using this
      have hu := ih v.length (by rw [List.takeWhile_append_of_pos hv, List.length_append]; omega)
      rw [List.drop_left, List.drop_left] at hu
      rw [List.drop_zero, List.drop_zero, hg, hg', hl]
      exact .keep _ hu
    | succ k =>
      -- a byte that is passed over continues the glyph before it
      rw [List.takeWhile_cons] at hk
      split at hk
      · exact ih k (by simpa using hk)
      · simp at hk
  | @swap c d s t hr h ih =>
    intro k hk
    obtain ⟨hc, hd, hca, hda⟩ := hR c d hr
    obtain rfl : k = 0 := by rw [tails_ascii_append hc hca] at hk; simpa using hk
    rw [List.drop_zero, List.drop_zero, glyphs_ascii_append hca, glyphs_ascii_append hda]
    exact .swap ⟨c, d, hr, rfl, rfl⟩ (ih 0 (Nat.zero_le _))

theorem glyphs (h : Patched R s t) : Patched (GlyphRun R) (Text.glyphs s) (Text.glyphs t) :=
  h.glyphs_drop hR 0 (Nat.zero_le _)

end Ascii

/-- The words of a text with visible runs replaced are its words with these runs replaced. -/
theorem words (hR : ∀ c d, R c d → c ≠ [] ∧ d ≠ [] ∧ (∀ b ∈ c, isGraphic b = true) ∧ ∀ b ∈ d, isGraphic b = true)
    (h : Patched R s t) : List.Forall₂ (Patched R) (Text.words s) (Text.words t) := by
  have ascii : ∀ c d, R c d → c ≠ [] ∧ d ≠ [] ∧ (∀ b ∈ c, b < 0x80) ∧ ∀ b ∈ d, b < 0x80 := by
    intro c d hr
    obtain ⟨hc, hd, hcv, hdv⟩ := hR c d hr
    exact ⟨hc, hd, fun b hb => isGraphic_ascii (hcv b hb), fun b hb => isGraphic_ascii (hdv b hb)⟩
  have unblank : ∀ {c : Text}, (∀ b ∈ c, isGraphic b = true) → ∀ g ∈ c.map asciiGlyph, g.isBlank = false := by
    intro c hc g hg
    obtain ⟨b, hb, rfl⟩ := List.mem_map.mp hg
    exact asciiGlyph_not_blank (hc b hb)
  have runs : List.Forall₂ (Patched (GlyphRun R)) (glyphRuns (Text.glyphs s)) (glyphRuns (Text.glyphs t)) := by
    refine List.rel_filter ?_ ((h.glyphs ascii).splitOnP ?_)
    · intro x y hxy
      have hn := hxy.eq_nil_iff (by rintro _ _ ⟨c, d, hr, rfl, rfl⟩; simp [hR c d hr])
      simpa using not_congr hn
    · rintro _ _ ⟨c, d, hr, rfl, rfl⟩
      exact ⟨unblank (hR c d hr).2.2.1, unblank (hR c d hr).2.2.2⟩
  rw [words_eq_glyphRuns, words_eq_glyphRuns, List.forall₂_map_left_iff, List.forall₂_map_right_iff]
  refine runs.imp fun x y hxy => hxy.flatMap ?_
  rintro _ _ ⟨c, d, hr, rfl, rfl⟩
  show R (ofGlyphs _) (ofGlyphs _)
  rwa [ofGlyphs_map_asciiGlyph, ofGlyphs_map_asciiGlyph]

end Patched

end Rv32Tools.Text
