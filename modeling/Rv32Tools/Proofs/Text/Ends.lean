import Rv32Tools.Proofs.Text.Patch

/-
  Rv32Tools.Proofs.Text.Ends — white space around a text.

  A sequence of bytes that makes up a character never goes on with an ASCII byte, so the glyphs of a text fall apart
  there (`glyphs_append_cons`). Hence a text that begins and ends with a visible byte, whatever bytes it has inside, is
  what is left when the white space around it is trimmed (`trim_between`).
-/

namespace Rv32Tools.Text

theorem tails_append_cons (s : Text) {b : UInt8} (hb : b < 0x80) (r : Text) :
    (s ++ b :: r).takeWhile isTail = s.takeWhile isTail := by
  have hb' : isTail b = false := by
    cases h : isTail b with
    | false => rfl
    | true => exact absurd hb (isTail_not_ascii h)
  induction s with
  | nil => simp [hb']
  | cons a s ih => rw [List.cons_append, List.takeWhile_cons, List.takeWhile_cons, ih]

/-- The glyphs of a text around an ASCII byte are those of its two parts and that byte. -/
theorem glyphs_append_cons (s : Text) {b : UInt8} (hb : b < 0x80) (r : Text) :
    glyphs (s ++ b :: r) = glyphs s ++ asciiGlyph b :: glyphs r := by
  induction hn : s.length using Nat.strongRecOn generalizing s with
  | _ n ih =>
    cases s with
    | nil => exact glyphs_ascii_cons hb r
    | cons a s =>
      have hlead : leading a (s ++ b :: r) = leading a s := leading_eq_of_tails a (tails_append_cons s hb r)
      obtain ⟨t, u, rfl, _, hbytes, hg⟩ := glyphs_cons a s
      obtain ⟨t', u', hs', _, hbytes', hg'⟩ := glyphs_cons a (t ++ u ++ b :: r)
      obtain rfl : t = t' := by
        have : a :: t = a :: t' := by rw [← hbytes, ← hlead, hbytes']
        simpa using this
      have hu : u' = u ++ b :: r := by
        rw [List.append_assoc] at hs'
        exact (List.append_cancel_left hs').symm
      have hrest := ih u.length (by simp at hn; omega) u rfl
      rw [List.cons_append, hg', hlead, hu, hrest, hg, List.cons_append]

/-! ## White space -/

/-- White space and nothing else. -/
def AllBlank (w : Text) : Prop := ∀ g ∈ glyphs w, g.isBlank = true

instance (w : Text) : Decidable (AllBlank w) := inferInstanceAs (Decidable (∀ g ∈ glyphs w, g.isBlank = true))

theorem AllBlank.nil : AllBlank [] := fun _ h => nomatch h

/-- An ASCII byte of white space is white space. -/
theorem AllBlank.ascii {w : Text} (h : AllBlank w) {b : UInt8} (hb : b ∈ w) (hascii : b < 0x80) :
    (asciiGlyph b).isBlank = true := h _ (ascii_mem_glyphs hascii hb)

/-- No visible byte is part of white space. -/
theorem AllBlank.not_isGraphic {w : Text} (h : AllBlank w) {b : UInt8} (hb : b ∈ w) : isGraphic b = false := by
  cases hg : isGraphic b with
  | false => rfl
  | true =>
    have hblank := h.ascii hb (isGraphic_ascii hg)
    rw [asciiGlyph_not_blank hg] at hblank
    cases hblank

theorem AllBlank.cons {w : Text} (h : AllBlank w) {b : UInt8} (hb : isGap b = true) : AllBlank (b :: w) := by
  have gap : ∀ b : UInt8, isGap b = true → b < 0x80 ∧ (asciiGlyph b).isBlank = true := forall_byte (by decide +kernel)
  intro g hg
  rw [glyphs_ascii_cons (gap b hb).1] at hg
  rcases List.mem_cons.mp hg with rfl | hg
  · exact (gap b hb).2
  · exact h g hg

theorem allBlank_of_isGap {w : Text} (h : ∀ b ∈ w, isGap b = true) : AllBlank w := by
  induction w with
  | nil => exact .nil
  | cons b w ih => exact (ih fun c hc => h c (List.mem_cons_of_mem _ hc)).cons (h b List.mem_cons_self)

theorem dropWhile_blank {bs gs : List Glyph} (h : ∀ g ∈ bs, g.isBlank = true)
    (hg : ∀ g, gs.head? = some g → g.isBlank = false) : (bs ++ gs).dropWhile Glyph.isBlank = gs := by
  rw [List.dropWhile_append_of_pos h]
  cases gs with
  | nil => rfl
  | cons g gs => rw [List.dropWhile_cons_of_neg (by simp [hg g rfl])]

/-- White space on both sides is taken off, up to the first and the last visible byte. -/
theorem trim_between {w s w' : Text} (hw : AllBlank w) (hw' : AllBlank w') {a b : UInt8} (ha : isGraphic a = true)
    (hb : isGraphic b = true) (hfirst : s.head? = some a) (hlast : s.getLast? = some b) :
    trim (w ++ (s ++ w')) = s := by
  obtain ⟨r, hr⟩ := List.head?_eq_some_iff.mp hfirst
  obtain ⟨t, ht⟩ := List.getLast?_eq_some_iff.mp hlast
  have hend : glyphs s = glyphs t ++ [asciiGlyph b] := by
    rw [ht, glyphs_append_cons t (isGraphic_ascii hb) []]
    rfl
  have hstart : glyphs s = asciiGlyph a :: glyphs r := by rw [hr, glyphs_ascii_cons (isGraphic_ascii ha)]; rfl
  have hglyphs : glyphs (w ++ (s ++ w')) = glyphs w ++ (glyphs s ++ glyphs w') := by
    have hback : glyphs (s ++ w') = glyphs s ++ glyphs w' := by
      rw [hend, ht, List.append_assoc, List.singleton_append, glyphs_append_cons t (isGraphic_ascii hb),
        List.append_assoc, List.singleton_append]
    rw [← hback, hr, List.cons_append, glyphs_append_cons w (isGraphic_ascii ha), glyphs_ascii_cons (isGraphic_ascii ha)]
    rfl
  have hfront : (glyphs w ++ (glyphs s ++ glyphs w')).dropWhile Glyph.isBlank = glyphs s ++ glyphs w' := by
    refine dropWhile_blank hw fun g hg => ?_
    rw [hstart, List.cons_append, List.head?_cons, Option.some.injEq] at hg
    rw [← hg]
    exact asciiGlyph_not_blank ha
  have hback : ((glyphs w').reverse ++ (glyphs s).reverse).dropWhile Glyph.isBlank = (glyphs s).reverse := by
    refine dropWhile_blank (fun g hg => hw' g (List.mem_reverse.mp hg)) fun g hg => ?_
    rw [hend, List.reverse_append, List.reverse_singleton, List.singleton_append, List.head?_cons, Option.some.injEq] at hg
    rw [← hg]
    exact asciiGlyph_not_blank hb
  rw [trim, hglyphs, hfront, List.reverse_append, hback, List.reverse_reverse, ofGlyphs_glyphs]

/-- A space before a text that shows at both ends is taken off. -/
theorem trim_space {a b : UInt8} (ha : isGraphic a = true) (hb : isGraphic b = true) {s : Text}
    (hfirst : s.head? = some a) (hlast : s.getLast? = some b) : trim (0x20 :: s) = s := by
  have hspace : AllBlank [0x20] := allBlank_of_isGap (by decide +kernel)
  have := trim_between hspace AllBlank.nil ha hb hfirst hlast
  rwa [List.append_nil, List.singleton_append] at this

end Rv32Tools.Text
