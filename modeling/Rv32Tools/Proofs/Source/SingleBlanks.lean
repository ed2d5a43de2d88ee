import Rv32Tools.Proofs.Source.Layout
import Rv32Tools.Proofs.Source.Spans

/-
  Rv32Tools.Proofs.Source.SingleBlanks — the normal form of blanks.

  `tidy` is the rule on spans: blanks at the ends go, and each run of them between two other spans is one space. The line
  that `collapse` makes has just these spans (`spans_collapse`). So
  - it has the columns of the line it was made from (`columns_collapse`), and making it single again changes nothing;
  - without blanks outside quotes both are the same text, and they have the same quoted parts (`filter_tidy`);
  - each blank that is left is a space between two spans that are no blanks (`Tidy.singleSpaced`).
-/

namespace Rv32Tools.Source

/-- The quoted parts of a line with their marks, in order. -/
def quotedParts (s : Text) : List Text := (spans s).filterMap Span.part?

/-- The line without its blanks outside quotes. -/
def withoutBlanks (s : Text) : Text := textOf ((spans s).filter (!·.isBlank))

/-- Each blank is a space, and on both sides of it stands something that is no blank. -/
def SingleSpaced (ps : List Span) : Prop :=
  ∀ front b back, ps = front ++ .bare b :: back → Text.isColumnBlank b = true →
    b = 0x20 ∧ (∃ p, front.getLast? = some p ∧ p.isBlank = false) ∧ ∃ p, back.head? = some p ∧ p.isBlank = false

/-! ## Spans with single spaces -/

def Span.space : Span := .bare 0x20

/-- Each run of blanks as one space, and none at the ends. -/
def tidy : List Span → List Span
  | [] => []
  | p :: ps =>
    if p.isBlank then tidy ps
    else if ps.head?.any Span.isBlank && !(tidy ps).isEmpty then p :: .space :: tidy ps
    else p :: tidy ps

/-- No blanks at the ends, and single spaces between other spans. -/
inductive Tidy : List Span → Prop
  | nil : Tidy []
  | last {p : Span} (hp : p.isBlank = false) : Tidy [p]
  | joined {p q : Span} {ps : List Span} (hp : p.isBlank = false) (h : Tidy (q :: ps)) : Tidy (p :: q :: ps)
  | parted {p q : Span} {ps : List Span} (hp : p.isBlank = false) (h : Tidy (q :: ps)) : Tidy (p :: .space :: q :: ps)

theorem tidy_tidy (ps : List Span) : Tidy (tidy ps) := by
  fun_induction tidy ps with
  | case1 => exact .nil
  | case2 p ps _ ih => exact ih
  | case3 p ps hp hparted ih =>
    cases hps : tidy ps with
    | nil => simp [hps] at hparted
    | cons q qs => exact .parted (by simpa using hp) (hps ▸ ih)
  | case4 p ps hp _ ih =>
    cases hps : tidy ps with
    | nil => exact .last (by simpa using hp)
    | cons q qs => exact .joined (by simpa using hp) (hps ▸ ih)

/-- Nothing but blanks goes, and nothing but spaces comes. -/
theorem filter_tidy (ps : List Span) : (tidy ps).filter (!·.isBlank) = ps.filter (!·.isBlank) := by
  have hspace : Span.space.isBlank = true := by decide
  fun_induction tidy ps with
  | case1 => rfl
  | case2 p ps hp ih => simp [hp, ih]
  | case3 p ps hp _ ih => simp [hp, hspace, ih]
  | case4 p ps hp _ ih => simp [hp, ih]

theorem WellQuoted.tidy {ps : List Span} (h : WellQuoted ps) : WellQuoted (tidy ps) := by
  induction h with
  | nil => exact .nil
  | @whole p ps hp _ ih =>
    have hspace : Span.space.Whole := .bare (by decide)
    rw [Source.tidy]
    split
    · exact ih
    · split
      · exact .whole hp (.whole hspace ih)
      · exact .whole hp ih
  | «open» hp =>
    cases hp with
    | quoted hmark hbody htail => exact .open (.quoted hmark hbody htail)

theorem Tidy.solid {p : Span} {ps : List Span} (h : Tidy (p :: ps)) : p.isBlank = false := by
  cases h with
  | last hp => exact hp
  | joined hp _ => exact hp
  | parted hp _ => exact hp

namespace SingleSpaced

variable {p : Span} {ps : List Span} (hp : p.isBlank = false)

include hp

theorem cons (h : SingleSpaced ps) : SingleSpaced (p :: ps) := by
  intro front b back hps hb
  rcases List.cons_eq_append_iff.mp hps with ⟨-, hcons⟩ | ⟨front, rfl, hrest⟩
  · cases hcons
    exact absurd hb (by simpa [Span.isBlank] using hp)
  · obtain ⟨hspace, ⟨a, ha, hsolid⟩, hback⟩ := h front b back hrest hb
    exact ⟨hspace, ⟨a, by rw [List.getLast?_cons, ha]; rfl, hsolid⟩, hback⟩

theorem parted {q : Span} (hq : q.isBlank = false) (h : SingleSpaced (q :: ps)) :
    SingleSpaced (p :: .space :: q :: ps) := by
  intro front b back hps hb
  rcases List.cons_eq_append_iff.mp hps with ⟨-, hcons⟩ | ⟨front, rfl, hrest⟩
  · cases hcons
    exact absurd hb (by simpa [Span.isBlank] using hp)
  · rcases List.cons_eq_append_iff.mp hrest with ⟨rfl, hcons⟩ | ⟨front, rfl, hbehind⟩
    · cases hcons
      exact ⟨rfl, ⟨p, rfl, hp⟩, q, rfl, hq⟩
    · obtain ⟨hspace, ⟨a, ha, hsolid⟩, hback⟩ := h front b back hbehind hb
      exact ⟨hspace, ⟨a, by rw [List.getLast?_cons, List.getLast?_cons, ha]; rfl, hsolid⟩, hback⟩

end SingleSpaced

theorem Tidy.singleSpaced {ps : List Span} (h : Tidy ps) : SingleSpaced ps := by
  have hnil : SingleSpaced [] := fun front b back hps => absurd hps (by simp)
  induction h with
  | nil => exact hnil
  | last hp => exact hnil.cons hp
  | joined hp _ ih => exact ih.cons hp
  | parted hp h ih => exact ih.parted hp h.solid

/-! ## Columns of spans -/

/-- The texts between blanks. -/
def spanColumns (ps : List Span) : List Text := markedColumns (ps.flatMap Span.marks)

theorem spanColumns_blank {p : Span} (hp : p.isBlank = true) (ps : List Span) : spanColumns (p :: ps) = spanColumns ps := by
  rw [spanColumns, List.flatMap_cons, markedColumns_blanks fun m hm => (Span.isBlank_of_mem_marks hm).trans hp]
  rfl

section Solid

variable {p : Span} (hp : p.isBlank = false)

include hp

theorem spanColumns_last : spanColumns [p] = [p.text] := by
  have hsolid : ∀ m ∈ p.marks, m.isBlank = false := fun m hm => (Span.isBlank_of_mem_marks hm).trans hp
  rw [spanColumns, List.flatMap_singleton, ← List.append_nil p.marks, markedColumns_last p.marks_ne_nil hsolid (by simp),
    p.bytesOf_marks]

theorem spanColumns_parted {q : Span} (hq : q.isBlank = true) (ps : List Span) :
    spanColumns (p :: q :: ps) = p.text :: spanColumns ps := by
  rw [spanColumns, List.flatMap_cons, List.flatMap_cons,
    markedColumns_column p.marks_ne_nil (fun m hm => (Span.isBlank_of_mem_marks hm).trans hp) q.marks_ne_nil
      fun m hm => (Span.isBlank_of_mem_marks hm).trans hq, p.bytesOf_marks]
  rfl

/-- Without a blank between them, a span belongs to the column of the next one. -/
theorem spanColumns_joined {q : Span} (hq : q.isBlank = false) (ps : List Span) :
    ∃ x xs, spanColumns (q :: ps) = x :: xs ∧ spanColumns (p :: q :: ps) = (p.text ++ x) :: xs := by
  obtain ⟨m, ms, hms⟩ := List.exists_cons_of_ne_nil q.marks_ne_nil
  have hm : m.isBlank = false := (Span.isBlank_of_mem_marks (hms ▸ List.mem_cons_self)).trans hq
  obtain ⟨x, xs, hx, hfront⟩ := markedColumns_cons hm (ms ++ ps.flatMap Span.marks)
  refine ⟨x, xs, ?_, ?_⟩
  · rw [spanColumns, List.flatMap_cons, hms, List.cons_append, hx]
  · rw [spanColumns, List.flatMap_cons, List.flatMap_cons, hms, List.cons_append,
      hfront p.marks fun m hm => (Span.isBlank_of_mem_marks hm).trans hp, p.bytesOf_marks]

end Solid

/-- The columns are the same with single spaces. -/
theorem spanColumns_tidy (ps : List Span) : spanColumns (tidy ps) = spanColumns ps := by
  have hspace : Span.space.isBlank = true := by decide
  fun_induction tidy ps with
  | case1 => rfl
  | case2 p ps hp ih => rw [spanColumns_blank hp, ih]
  | case3 p ps hp hparted ih =>
    have hp' : p.isBlank = false := by simpa using hp
    cases ps with
    | nil => simp at hparted
    | cons q ps =>
      have hq : q.isBlank = true := by simp at hparted; exact hparted.1
      rw [spanColumns_parted hp' hspace, spanColumns_parted hp' hq, ih, spanColumns_blank hq]
  | case4 p ps hp hjoined ih =>
    have hp' : p.isBlank = false := by simpa using hp
    cases ps with
    | nil => rfl
    | cons q ps =>
      cases hq : q.isBlank with
      | true =>
        -- nothing but blanks comes behind `p`
        have hend : tidy (q :: ps) = [] := by simpa [hq] using hjoined
        have hnone : spanColumns ps = [] := by rw [← spanColumns_blank hq, ← ih, hend]; rfl
        rw [hend, spanColumns_last hp', spanColumns_parted hp' hq, hnone]
      | false =>
        obtain ⟨qs, hqs⟩ : ∃ qs, tidy (q :: ps) = q :: qs := by
          rw [tidy, if_neg (by simp [hq])]
          split
          · exact ⟨_, rfl⟩
          · exact ⟨_, rfl⟩
        obtain ⟨x, xs, hx, hjoin⟩ := spanColumns_joined hp' hq ps
        obtain ⟨y, ys, hy, hjoin'⟩ := spanColumns_joined hp' hq qs
        rw [hqs, hy, hx] at ih
        cases ih
        rw [hqs, hjoin', hjoin]

theorem Tidy.join_spanColumns {ps : List Span} (h : Tidy ps) : Text.join " " (spanColumns ps) = textOf ps := by
  have hspace : Span.space.isBlank = true := by decide
  induction h with
  | nil => rfl
  | last hp => rw [spanColumns_last hp, Text.join, List.intercalate_singleton, textOf, List.flatMap_singleton]
  | @joined p q ps hp h ih =>
    obtain ⟨x, xs, hx, hjoin⟩ := spanColumns_joined hp h.solid ps
    rw [hjoin, Text.join_append_cons, ← hx, ih, textOf_cons p]
  | @parted p q ps hp h ih =>
    have hne : spanColumns (q :: ps) ≠ [] := by
      intro hnil
      rw [hnil] at ih
      exact q.text_ne_nil (List.append_eq_nil_iff.mp (ih.symm.trans rfl)).1
    obtain ⟨x, xs, hx⟩ := List.exists_cons_of_ne_nil hne
    rw [spanColumns_parted hp hspace, hx, Text.join_space_cons, ← hx, ih]
    rfl

/-! ## Lines with single spaces -/

theorem columns_spans (s : Text) : columns s = spanColumns (spans s) := by
  rw [spanColumns, ← marked_eq]
  rfl

/-- A line in normal form has the spans of the line with single spaces. -/
theorem spans_collapse (s : Text) : spans (collapse s) = tidy (spans s) := by
  refine spans_eq_iff.mpr ⟨(wellQuoted_spans s).tidy, ?_⟩
  rw [← (tidy_tidy (spans s)).join_spanColumns, spanColumns_tidy, ← columns_spans]
  rfl

theorem columns_collapse (s : Text) : columns (collapse s) = columns s := by
  rw [columns_spans, spans_collapse, spanColumns_tidy, ← columns_spans]

/-- No blank is a quoted part. -/
theorem filterMap_part? (ps : List Span) : (ps.filter (!·.isBlank)).filterMap Span.part? = ps.filterMap Span.part? := by
  rw [List.filterMap_filter]
  refine List.filterMap_congr fun p _ => ?_
  cases p with
  | bare b => simp [Span.part?]
  | quoted mark rest => rfl

/-- A line in normal form stays as it is. It has the columns and the quoted parts of the line that it was made from, and
is the same text without blanks outside quotes. Its own blanks outside quotes are single spaces, none of them at an
end. -/
theorem collapse_normalizes (s : Text) :
    collapse (collapse s) = collapse s ∧ columns (collapse s) = columns s ∧
      withoutBlanks (collapse s) = withoutBlanks s ∧ quotedParts (collapse s) = quotedParts s ∧
      SingleSpaced (spans (collapse s)) := by
  refine ⟨?_, columns_collapse s, ?_, ?_, ?_⟩
  · rw [collapse, columns_collapse, ← collapse]
  · rw [withoutBlanks, spans_collapse, filter_tidy, withoutBlanks]
  · rw [quotedParts, spans_collapse, ← filterMap_part?, filter_tidy, filterMap_part?, quotedParts]
  · rw [spans_collapse]
    exact (tidy_tidy (spans s)).singleSpaced

end Rv32Tools.Source
