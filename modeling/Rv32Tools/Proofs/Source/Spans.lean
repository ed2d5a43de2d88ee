import Rv32Tools.Proofs.Source.Columns

/-
  Rv32Tools.Proofs.Source.Spans — a line as bytes outside quotes and quoted parts.

  A span is one byte outside quotes or one quoted part with its marks (`Span`), and `spans` reads a line as spans.
  Behind its opening mark a quoted part goes on to the next such mark that no backslash takes along; one that nothing
  closes goes on to the end of the line. That rule is also stated as a grammar (`Span.Whole`, `Span.Open`), and a line has
  just one list of spans by it, the one that is read (`spans_eq_iff`).

  The labels that a line is cut by are those of its spans (`marked_eq`): bytes of quoted parts are labelled as quoted,
  and no others. So a quoted part that is closed is one column, whatever bytes it has (`Span.Whole.column`).
-/

namespace Rv32Tools.Source

/-- A byte outside quotes, or a quoted part: the mark that opens it and the rest, with the mark that closes it. -/
inductive Span where
  | bare (b : UInt8)
  | quoted (mark : UInt8) (rest : Text)
  deriving DecidableEq, Repr

namespace Span

def text : Span → Text
  | .bare b => [b]
  | .quoted mark rest => mark :: rest

def part? : Span → Option Text
  | .bare _ => none
  | .quoted mark rest => some (mark :: rest)

/-- A blank outside quotes. -/
def isBlank : Span → Bool
  | .bare b => Text.isColumnBlank b
  | .quoted _ _ => false

/-- The labels of a span: all bytes of a quoted part lie in quotes, its marks included. -/
def marks : Span → List Marked
  | .bare b => [⟨b, false⟩]
  | .quoted mark rest => (mark :: rest).map (⟨·, true⟩)

theorem text_ne_nil (p : Span) : p.text ≠ [] := by
  cases p with
  | bare b => exact List.cons_ne_nil _ _
  | quoted mark rest => exact List.cons_ne_nil _ _

theorem marks_ne_nil (p : Span) : p.marks ≠ [] := by
  cases p with
  | bare b => exact List.cons_ne_nil _ _
  | quoted mark rest => exact List.cons_ne_nil _ _

theorem bytesOf_marks (p : Span) : bytesOf p.marks = p.text := by
  cases p with
  | bare b => rfl
  | quoted mark rest => simp [bytesOf, marks, text, Function.comp_def]

theorem isBlank_of_mem_marks {p : Span} {m : Marked} (h : m ∈ p.marks) : m.isBlank = p.isBlank := by
  cases p with
  | bare b =>
    rw [List.mem_singleton.mp h]
    simp [Marked.isBlank, isBlank]
  | quoted mark rest =>
    obtain ⟨b, -, rfl⟩ := List.mem_map.mp h
    simp [Marked.isBlank, isBlank]

end Span

def textOf (ps : List Span) : Text := ps.flatMap Span.text

/-! ## Reading -/

/-- A text from behind an opening mark: what belongs to the quoted part, and what comes behind it. -/
def splitQuoted (mark : UInt8) : Text → Text × Text
  | [] => ([], [])
  | 0x5C :: b :: r => (0x5C :: b :: (splitQuoted mark r).1, (splitQuoted mark r).2)
  | b :: r => if b = mark then ([b], r) else (b :: (splitQuoted mark r).1, (splitQuoted mark r).2)

theorem splitQuoted_length (mark : UInt8) (s : Text) : (splitQuoted mark s).2.length ≤ s.length := by
  fun_induction splitQuoted mark s with
  | case1 => exact Nat.le_refl 0
  | case2 b r ih => simp only [List.length_cons]; omega
  | case3 r _ => simp
  | case4 b r _ _ ih => simp only [List.length_cons]; omega

def spans : Text → List Span
  | [] => []
  | b :: r =>
    if isQuoteMark b then .quoted b (splitQuoted b r).1 :: spans (splitQuoted b r).2
    else .bare b :: spans r
termination_by s => s.length
decreasing_by
  · have := splitQuoted_length b r
    simp only [List.length_cons]
    omega
  · simp

/-! ## Grammar -/

/-- What may stand between the marks of a quoted part. -/
inductive Body (mark : UInt8) : Text → Prop
  | nil : Body mark []
  | byte {b : UInt8} {r : Text} (hmark : b ≠ mark) (hslash : b ≠ 0x5C) (h : Body mark r) : Body mark (b :: r)
  | escape {b : UInt8} {r : Text} (h : Body mark r) : Body mark (0x5C :: b :: r)

namespace Span

/-- A byte that opens nothing, or a quoted part that is closed. -/
inductive Whole : Span → Prop
  | bare {b : UInt8} (h : isQuoteMark b = false) : Whole (.bare b)
  | quoted {mark : UInt8} {body : Text} (hmark : isQuoteMark mark = true) (h : Body mark body) :
    Whole (.quoted mark (body ++ [mark]))

/-- A quoted part that is not closed. The line may end on a backslash that has nothing to take along. -/
inductive Open : Span → Prop
  | quoted {mark : UInt8} {body tail : Text} (hmark : isQuoteMark mark = true) (h : Body mark body)
    (htail : tail = [] ∨ tail = [0x5C]) : Open (.quoted mark (body ++ tail))

end Span

/-- Spans that are whole, but for the last one, which may be open. -/
inductive WellQuoted : List Span → Prop
  | nil : WellQuoted []
  | whole {p : Span} {ps : List Span} (hp : p.Whole) (h : WellQuoted ps) : WellQuoted (p :: ps)
  | open {p : Span} (hp : p.Open) : WellQuoted [p]

theorem isQuoteMark_ne_slash {b : UInt8} (h : isQuoteMark b = true) : b ≠ 0x5C := by
  rintro rfl
  exact absurd h (by decide)

/-! ## What is read is what the grammar says -/

theorem splitQuoted_byte {mark b : UInt8} (hmark : b ≠ mark) (hslash : b ≠ 0x5C) (r : Text) :
    splitQuoted mark (b :: r) = (b :: (splitQuoted mark r).1, (splitQuoted mark r).2) := by
  rw [splitQuoted.eq_3 _ _ _ fun _ _ h => absurd h hslash, if_neg hmark]

theorem splitQuoted_mark {mark : UInt8} (hmark : isQuoteMark mark = true) (r : Text) :
    splitQuoted mark (mark :: r) = ([mark], r) := by
  rw [splitQuoted.eq_3 _ _ _ fun _ _ h => absurd h (isQuoteMark_ne_slash hmark), if_pos rfl]

theorem splitQuoted_tail {mark : UInt8} (hmark : isQuoteMark mark = true) {tail : Text} (h : tail = [] ∨ tail = [0x5C]) :
    splitQuoted mark tail = (tail, []) := by
  rcases h with rfl | rfl
  · rfl
  · rw [splitQuoted.eq_3 _ _ _ fun _ _ _ h => absurd h (by simp), if_neg (isQuoteMark_ne_slash hmark).symm]
    rfl

namespace Body

variable {mark : UInt8} {body : Text} (h : Body mark body)

include h

theorem splitQuoted (s : Text) :
    Source.splitQuoted mark (body ++ s) = (body ++ (Source.splitQuoted mark s).1, (Source.splitQuoted mark s).2) := by
  induction h with
  | nil => rfl
  | byte hmark hslash _ ih => rw [List.cons_append, splitQuoted_byte hmark hslash, ih, List.cons_append]
  | escape _ ih =>
    rw [List.cons_append, List.cons_append, Source.splitQuoted, ih]
    rfl

theorem markFrom (s : Text) :
    Source.markFrom (.inside mark) (body ++ s) = body.map (⟨·, true⟩) ++ Source.markFrom (.inside mark) s := by
  induction h with
  | nil => rfl
  | @byte b r hmark hslash _ ih =>
    have hnext : Quoting.next (.inside mark) b = .inside mark := by simp [Quoting.next, hmark, hslash]
    rw [List.cons_append, Source.markFrom, hnext, ih]
    rfl
  | @escape b r _ ih =>
    show _ :: _ :: Source.markFrom (.inside mark) (r ++ s) = _
    rw [ih]
    rfl

end Body

/-- Behind an opening mark a text holds the mark that closes it, or it ends without one. -/
theorem exists_body (mark : UInt8) (s : Text) :
    ∃ body, Body mark body ∧ ((∃ r, s = body ++ mark :: r) ∨ ∃ tail, s = body ++ tail ∧ (tail = [] ∨ tail = [0x5C])) := by
  fun_induction splitQuoted mark s with
  | case1 => exact ⟨[], .nil, Or.inr ⟨[], rfl, Or.inl rfl⟩⟩
  | case2 b r ih =>
    obtain ⟨body, hbody, ⟨t, rfl⟩ | ⟨tail, rfl, htail⟩⟩ := ih
    · exact ⟨_, hbody.escape, Or.inl ⟨t, rfl⟩⟩
    · exact ⟨_, hbody.escape, Or.inr ⟨tail, rfl, htail⟩⟩
  | case3 r _ => exact ⟨[], .nil, Or.inl ⟨r, rfl⟩⟩
  | case4 b r hescape hmark ih =>
    by_cases hslash : b = 0x5C
    · -- a backslash that is not followed by anything
      cases r with
      | nil => exact ⟨[], .nil, Or.inr ⟨[b], rfl, Or.inr (by rw [hslash])⟩⟩
      | cons c r => exact absurd rfl (hescape c r hslash)
    · obtain ⟨body, hbody, ⟨t, rfl⟩ | ⟨tail, rfl, htail⟩⟩ := ih
      · exact ⟨_, hbody.byte hmark hslash, Or.inl ⟨t, rfl⟩⟩
      · exact ⟨_, hbody.byte hmark hslash, Or.inr ⟨tail, rfl, htail⟩⟩

theorem spans_bare {b : UInt8} (h : isQuoteMark b = false) (r : Text) : spans (b :: r) = .bare b :: spans r := by
  rw [spans, if_neg (by simp [h])]

theorem spans_mark {mark : UInt8} (h : isQuoteMark mark = true) (r : Text) :
    spans (mark :: r) = .quoted mark (splitQuoted mark r).1 :: spans (splitQuoted mark r).2 := by
  rw [spans, if_pos h]

namespace Span

/-- A whole span is read as one, and the line goes on behind it as it does by itself. -/
theorem Whole.spans {p : Span} (hp : p.Whole) (r : Text) : Source.spans (p.text ++ r) = p :: Source.spans r := by
  cases hp with
  | bare h => exact spans_bare h r
  | @quoted mark body hmark h =>
    rw [text, List.cons_append, List.append_assoc, List.singleton_append, spans_mark hmark, h.splitQuoted,
      splitQuoted_mark hmark]

theorem Whole.marked {p : Span} (hp : p.Whole) (r : Text) : Source.marked (p.text ++ r) = p.marks ++ Source.marked r := by
  cases hp with
  | @bare b h => exact marked_append_of_noQuote (s := [b]) (by simpa using h) r
  | @quoted mark body hmark h =>
    have hopen : Quoting.next .outside mark = .inside mark := by simp [Quoting.next, hmark]
    have hclose : Quoting.next (.inside mark) mark = .outside := by simp [Quoting.next, isQuoteMark_ne_slash hmark]
    rw [text, marks, List.cons_append, List.append_assoc, List.singleton_append, Source.marked, markFrom, hopen,
      h.markFrom, markFrom, hclose]
    simp [Source.marked]

/-- A quoted part that is closed is a column, with all its blanks and hashes. -/
theorem Whole.column {mark : UInt8} {rest : Text} (h : (Span.quoted mark rest).Whole) : Column (mark :: rest) := by
  have hmarks : Source.marked (mark :: rest) = (mark :: rest).map (⟨·, true⟩) := by
    have := h.marked []
    rwa [List.append_nil, show Source.marked [] = [] from rfl, List.append_nil] at this
  refine ⟨List.cons_ne_nil _ _, fun r => ?_, fun m hm => ?_⟩
  · rw [hmarks]
    exact h.marked r
  · rw [hmarks] at hm
    obtain ⟨b, -, rfl⟩ := List.mem_map.mp hm
    simp [Marked.isBlank, Marked.isHash]

theorem Open.spans {p : Span} (hp : p.Open) : Source.spans p.text = [p] := by
  cases hp with
  | quoted hmark h htail =>
    rw [text, spans_mark hmark, h.splitQuoted, splitQuoted_tail hmark htail, Source.spans]

theorem Open.marked {p : Span} (hp : p.Open) : Source.marked p.text = p.marks := by
  cases hp with
  | @quoted mark body tail hmark h htail =>
    have hopen : Quoting.next .outside mark = .inside mark := by simp [Quoting.next, hmark]
    have hend : markFrom (.inside mark) tail = tail.map (⟨·, true⟩) := by
      rcases htail with rfl | rfl
      · rfl
      · rfl
    rw [text, marks, Source.marked, markFrom, hopen, h.markFrom, hend]
    simp

end Span

theorem textOf_cons (p : Span) (ps : List Span) : textOf (p :: ps) = p.text ++ textOf ps := List.flatMap_cons

namespace WellQuoted

variable {ps : List Span} (h : WellQuoted ps)

include h

theorem spans : Source.spans (textOf ps) = ps := by
  induction h with
  | nil => rw [textOf, List.flatMap_nil, Source.spans]
  | whole hp _ ih => rw [textOf_cons, hp.spans, ih]
  | «open» hp => rw [textOf, List.flatMap_singleton, hp.spans]

theorem marked : Source.marked (textOf ps) = ps.flatMap Span.marks := by
  induction h with
  | nil => rfl
  | whole hp _ ih => rw [textOf_cons, hp.marked, ih, List.flatMap_cons]
  | «open» hp => rw [textOf, List.flatMap_singleton, hp.marked, List.flatMap_singleton]

end WellQuoted

theorem exists_wellQuoted (s : Text) : ∃ ps, WellQuoted ps ∧ textOf ps = s := by
  -- by the length of what is left, since a quoted part is taken as a whole
  induction hn : s.length using Nat.strongRecOn generalizing s with
  | _ n ih =>
    cases s with
    | nil => exact ⟨[], .nil, rfl⟩
    | cons b r =>
      cases hb : isQuoteMark b with
      | false =>
        obtain ⟨ps, hps, rfl⟩ := ih r.length (by simp at hn; omega) r rfl
        exact ⟨.bare b :: ps, .whole (.bare hb) hps, rfl⟩
      | true =>
        obtain ⟨body, hbody, ⟨t, rfl⟩ | ⟨tail, rfl, htail⟩⟩ := exists_body b r
        · obtain ⟨ps, hps, rfl⟩ := ih t.length (by simp at hn; omega) t rfl
          exact ⟨.quoted b (body ++ [b]) :: ps, .whole (.quoted hb hbody) hps, by simp [textOf, Span.text]⟩
        · exact ⟨[.quoted b (body ++ tail)], .open (.quoted hb hbody htail), by simp [textOf, Span.text]⟩

/-- Every line has one list of spans by the grammar, and it is read as that. -/
theorem spans_eq_iff {s : Text} {ps : List Span} : spans s = ps ↔ WellQuoted ps ∧ textOf ps = s := by
  constructor
  · rintro rfl
    obtain ⟨ps, hps, rfl⟩ := exists_wellQuoted s
    rw [hps.spans]
    exact ⟨hps, rfl⟩
  · rintro ⟨h, rfl⟩
    exact h.spans

theorem wellQuoted_spans (s : Text) : WellQuoted (spans s) := (spans_eq_iff.mp rfl).1

theorem textOf_spans (s : Text) : textOf (spans s) = s := (spans_eq_iff.mp rfl).2

/-- The labels of a line are those of its spans. -/
theorem marked_eq (s : Text) : marked s = (spans s).flatMap Span.marks := by
  rw [← (wellQuoted_spans s).marked, textOf_spans]

end Rv32Tools.Source
