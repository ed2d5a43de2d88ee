import Rv32Tools.Proofs.Text.Glyphs
import Rv32Tools.Text.Blank
import Mathlib.Data.List.TakeWhile

/-
  Rv32Tools.Proofs.Text.Words — words of a text, and its ends without white space.

  - `words_trim`: white space at the ends of a text is no part of its words.
  - `words_eq_nil_iff`, `trim_eq_nil_iff`: a text has no word exactly when every glyph of it is blank, and then
    nothing is left of it once its ends are trimmed.
  - `exists_mem_words`, `trim_of_mem_words`: a glyph that is not blank lies in a word, and a word has no white space.
-/

namespace Rv32Tools.Text

theorem pieces_eq_splitOnP {α : Type} (p : α → Bool) (l : List α) : pieces p l = l.splitOnP p := by
  induction l with
  | nil => rfl
  | cons a l ih =>
    rw [List.splitOnP_cons_eq_if_modifyHead, pieces, ih]
    split
    · rfl
    · cases h : l.splitOnP p with
      | nil => exact absurd h (List.splitOnP_ne_nil p l)
      | cons x xs => rfl

theorem pieces_ne_nil {α : Type} (p : α → Bool) (l : List α) : pieces p l ≠ [] := by
  rw [pieces_eq_splitOnP]
  exact List.splitOnP_ne_nil p l

section Pieces

variable {α : Type} {p : α → Bool} {a : α} {l x : List α}

/-- The pieces on both sides of a cut. -/
theorem pieces_append_sep (l : List α) (h : p a = true) (r : List α) :
    pieces p (l ++ a :: r) = pieces p l ++ pieces p r := by
  rw [pieces_eq_splitOnP, pieces_eq_splitOnP, pieces_eq_splitOnP, List.splitOnP_append_cons l r h]

theorem pieces_cons_of_neg (h : p a = false) (l : List α) :
    ∃ x xs, pieces p l = x :: xs ∧ pieces p (a :: l) = (a :: x) :: xs := by
  obtain ⟨x, xs, hx⟩ := List.exists_cons_of_ne_nil (pieces_ne_nil p l)
  refine ⟨x, xs, hx, ?_⟩
  simp only [pieces, h, hx, Bool.false_eq_true, if_false]

/-- Elements before the first cut belong to the first piece. -/
theorem pieces_append_of_neg {c : List α} (h : ∀ a ∈ c, p a = false) (l : List α) :
    ∃ x xs, pieces p l = x :: xs ∧ pieces p (c ++ l) = (c ++ x) :: xs := by
  induction c with
  | nil =>
    obtain ⟨x, xs, hx⟩ := List.exists_cons_of_ne_nil (pieces_ne_nil p l)
    exact ⟨x, xs, hx, hx⟩
  | cons a c ih =>
    obtain ⟨x, xs, hx, hfront⟩ := ih fun b hb => h b (List.mem_cons_of_mem a hb)
    obtain ⟨y, ys, hy, hcons⟩ := pieces_cons_of_neg (h a List.mem_cons_self) (c ++ l)
    rw [hfront] at hy
    cases hy
    exact ⟨x, xs, hx, hcons⟩

/-- The first piece is the start of the list, and each piece is a part of it without a cut. -/
theorem pieces_spec (l : List α) :
    (∀ y ∈ (pieces p l).head?, y <+: l) ∧ ∀ x ∈ pieces p l, x <:+: l ∧ ∀ a ∈ x, p a = false := by
  induction l with
  | nil => simp [pieces]
  | cons a l ih =>
    obtain ⟨hfirst, hall⟩ := ih
    cases ha : p a with
    | true =>
      simp only [pieces, ha, if_true, List.head?_cons, Option.mem_def, Option.some.injEq, List.mem_cons]
      refine ⟨fun y hy => hy ▸ List.nil_prefix, fun x hx => ?_⟩
      rcases hx with rfl | hx
      · exact ⟨List.nil_infix, by simp⟩
      · exact ⟨(hall x hx).1.trans (List.suffix_cons a l).isInfix, (hall x hx).2⟩
    | false =>
      obtain ⟨x, xs, hx, hcons⟩ := pieces_cons_of_neg ha l
      rw [hx] at hfirst hall
      have hfront : a :: x <+: a :: l := List.cons_prefix_cons.mpr ⟨rfl, hfirst x rfl⟩
      rw [hcons]
      refine ⟨fun y hy => ?_, fun y hy => ?_⟩
      · cases hy
        exact hfront
      · rcases List.mem_cons.mp hy with rfl | hy
        · refine ⟨hfront.isInfix, fun b hb => ?_⟩
          rcases List.mem_cons.mp hb with rfl | hb
          · exact ha
          · exact (hall x List.mem_cons_self).2 b hb
        · have hmem := hall y (List.mem_cons_of_mem _ hy)
          exact ⟨hmem.1.trans (List.suffix_cons a l).isInfix, hmem.2⟩

theorem exists_mem_pieces (h : a ∈ l) (ha : p a = false) : ∃ x ∈ pieces p l, a ∈ x := by
  induction l with
  | nil => cases h
  | cons b l ih =>
    by_cases hb : p b = true
    · have hl : a ∈ l := by
        rcases List.mem_cons.mp h with rfl | h
        · rw [ha] at hb
          cases hb
        · exact h
      obtain ⟨x, hx, hax⟩ := ih hl
      refine ⟨x, ?_, hax⟩
      simp only [pieces, hb, if_true]
      exact List.mem_cons_of_mem _ hx
    · obtain ⟨y, ys, hy, hcons⟩ := pieces_cons_of_neg (Bool.not_eq_true _ ▸ hb) l
      rw [hcons]
      rcases List.mem_cons.mp h with rfl | h
      · exact ⟨_, List.mem_cons_self, List.mem_cons_self⟩
      · obtain ⟨x, hx, hax⟩ := ih h
        rw [hy] at hx
        rcases List.mem_cons.mp hx with rfl | hx
        · exact ⟨_, List.mem_cons_self, List.mem_cons_of_mem _ hax⟩
        · exact ⟨x, List.mem_cons_of_mem _ hx, hax⟩

end Pieces

theorem pieces_of_neg {α : Type} {p : α → Bool} {w : List α} (h : ∀ b ∈ w, p b = false) : pieces p w = [w] := by
  induction w with
  | nil => rfl
  | cons b w ih =>
    have hb := h b List.mem_cons_self
    have hw := ih fun b' hb' => h b' (List.mem_cons_of_mem _ hb')
    simp only [pieces, hb, hw, Bool.false_eq_true, if_false]

theorem pieces_append_cons {α : Type} {p : α → Bool} {w : List α} (h : ∀ b ∈ w, p b = false) {sep : α}
    (hsep : p sep = true) (r : List α) : pieces p (w ++ sep :: r) = w :: pieces p r := by
  rw [pieces_append_sep w hsep, pieces_of_neg h, List.singleton_append]

theorem join_concat (sep : Text) {ws : List Text} (hne : ws ≠ []) (w : Text) :
    join sep (ws ++ [w]) = join sep ws ++ (sep ++ w) := by
  induction ws with
  | nil => exact absurd rfl hne
  | cons v ws ih =>
    cases ws with
    | nil => rw [List.singleton_append, join, join, List.intercalate_cons_cons, List.intercalate_singleton,
        List.intercalate_singleton, List.append_assoc]
    | cons u ws =>
      have rest := ih (List.cons_ne_nil _ _)
      rw [join, join, List.cons_append] at rest
      rw [join, join, List.cons_append, List.cons_append, List.intercalate_cons_cons, rest, List.intercalate_cons_cons,
        List.append_assoc, List.append_assoc, List.append_assoc]

/-! ## Words as runs of glyphs -/

/-- The runs of glyphs that the words of a text are made of. -/
def glyphRuns (gs : List Glyph) : List (List Glyph) := (gs.splitOnP Glyph.isBlank).filter (!·.isEmpty)

theorem words_eq_glyphRuns (s : Text) : words s = (glyphRuns (glyphs s)).map ofGlyphs := by
  rw [words, pieces_eq_splitOnP, glyphRuns]

theorem glyphRuns_blank_cons {g : Glyph} (hg : g.isBlank = true) (gs : List Glyph) :
    glyphRuns (g :: gs) = glyphRuns gs := by
  have := List.splitOnP_append_cons [] gs hg
  simp only [List.nil_append, List.splitOnP_nil] at this
  rw [glyphRuns, this]
  rfl

theorem glyphRuns_append_blank {g : Glyph} (hg : g.isBlank = true) (gs : List Glyph) :
    glyphRuns (gs ++ [g]) = glyphRuns gs := by
  rw [glyphRuns, List.splitOnP_append_cons gs [] hg, List.filter_append]
  simp [glyphRuns]

theorem glyphRuns_blanks_append {bs : List Glyph} (h : ∀ g ∈ bs, g.isBlank = true) (gs : List Glyph) :
    glyphRuns (bs ++ gs) = glyphRuns gs := by
  induction bs with
  | nil => rfl
  | cons b bs ih =>
    rw [List.cons_append, glyphRuns_blank_cons (h b List.mem_cons_self)]
    exact ih fun g hg => h g (List.mem_cons_of_mem b hg)

theorem glyphRuns_append_blanks {bs : List Glyph} (h : ∀ g ∈ bs, g.isBlank = true) (gs : List Glyph) :
    glyphRuns (gs ++ bs) = glyphRuns gs := by
  induction bs generalizing gs with
  | nil => rw [List.append_nil]
  | cons b bs ih =>
    rw [← List.singleton_append, ← List.append_assoc, ih fun g hg => h g (List.mem_cons_of_mem b hg)]
    exact glyphRuns_append_blank (h b List.mem_cons_self) gs

theorem glyphRuns_eq_nil_iff {gs : List Glyph} : glyphRuns gs = [] ↔ ∀ g ∈ gs, g.isBlank = true := by
  constructor
  · intro h
    -- a glyph that is not blank would start a run
    induction gs with
    | nil => simp
    | cons g gs ih =>
      by_cases hg : g.isBlank = true
      · rw [glyphRuns_blank_cons hg] at h
        simpa [hg] using ih h
      · exfalso
        obtain ⟨x, xs, hx⟩ := List.exists_cons_of_ne_nil (List.splitOnP_ne_nil Glyph.isBlank gs)
        simp [glyphRuns, List.splitOnP_cons_eq_if_modifyHead, hg, hx] at h
  · intro h
    have := glyphRuns_blanks_append h []
    rwa [List.append_nil] at this

/-! ## Trimmed ends -/

/-- The glyphs of a text are blanks, the glyphs of what is left when its ends are trimmed, and blanks. -/
theorem glyphs_trim (s : Text) :
    ∃ front back, glyphs s = front ++ (glyphs (trim s) ++ back) ∧
      (∀ g ∈ front, g.isBlank = true) ∧ (∀ g ∈ back, g.isBlank = true) := by
  let rest := (glyphs s).dropWhile Glyph.isBlank
  let kept := (rest.reverse.dropWhile Glyph.isBlank).reverse
  let back := (rest.reverse.takeWhile Glyph.isBlank).reverse
  have hrest : rest = kept ++ back := by
    rw [← List.reverse_append, List.takeWhile_append_dropWhile, List.reverse_reverse]
  have hs : glyphs s = (glyphs s).takeWhile Glyph.isBlank ++ (kept ++ back) := by
    rw [← hrest, List.takeWhile_append_dropWhile]
  have hkept : glyphs (trim s) = kept := by
    have h1 : glyphs (ofGlyphs (kept ++ back)) = kept ++ back := glyphs_back hs
    exact glyphs_front h1
  refine ⟨_, back, by rw [hkept]; exact hs, fun g hg => List.mem_takeWhile_imp hg, fun g hg => ?_⟩
  exact List.mem_takeWhile_imp (List.mem_reverse.mp hg)

theorem words_trim (s : Text) : words (trim s) = words s := by
  obtain ⟨front, back, hs, hf, hb⟩ := glyphs_trim s
  rw [words_eq_glyphRuns s, hs, glyphRuns_blanks_append hf, glyphRuns_append_blanks hb, ← words_eq_glyphRuns]

theorem words_eq_nil_iff {s : Text} : words s = [] ↔ ∀ g ∈ glyphs s, g.isBlank = true := by
  rw [words_eq_glyphRuns, List.map_eq_nil_iff, glyphRuns_eq_nil_iff]

theorem trim_eq_nil_iff {s : Text} : trim s = [] ↔ words s = [] := by
  constructor
  · intro h; rw [← words_trim, h]; rfl
  · intro h
    have hb := words_eq_nil_iff.mp h
    rw [trim, List.dropWhile_eq_nil_iff.mpr hb]
    rfl

/-! ## What is in a word -/

theorem exists_mem_words {s : Text} {g : Glyph} (h : g ∈ glyphs s) (hg : g.isBlank = false) :
    ∃ w ∈ words s, ∀ b ∈ g.bytes, b ∈ w := by
  obtain ⟨x, hx, hgx⟩ := exists_mem_pieces h hg
  refine ⟨ofGlyphs x, List.mem_map_of_mem (List.mem_filter.mpr ⟨hx, ?_⟩), fun b hb => ?_⟩
  · cases x with
    | nil => cases hgx
    | cons _ _ => rfl
  · exact List.mem_flatMap.mpr ⟨g, hgx, hb⟩

theorem glyphs_of_mem_words {s w : Text} (h : w ∈ words s) : ∀ g ∈ glyphs w, g.isBlank = false := by
  obtain ⟨x, hx, rfl⟩ := List.mem_map.mp h
  obtain ⟨⟨front, back, hs⟩, hblank⟩ := (pieces_spec _).2 x (List.mem_filter.mp hx).1
  have hcut : glyphs s = front ++ (x ++ back) := by rw [← hs, List.append_assoc]
  rw [glyphs_front (glyphs_back hcut)]
  exact hblank

theorem trim_of_mem_words {s w : Text} (h : w ∈ words s) : trim w = w := by
  have keep : ∀ gs : List Glyph, (∀ g ∈ gs, g.isBlank = false) → gs.dropWhile Glyph.isBlank = gs := by
    intro gs hgs
    cases gs with
    | nil => rfl
    | cons g gs => rw [List.dropWhile_cons_of_neg (by simp [hgs g List.mem_cons_self])]
  have hblank := glyphs_of_mem_words h
  rw [trim, keep _ hblank, keep _ fun g hg => hblank g (List.mem_reverse.mp hg), List.reverse_reverse, ofGlyphs_glyphs]

end Rv32Tools.Text
