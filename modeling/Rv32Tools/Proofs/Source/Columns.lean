import Rv32Tools.Proofs.Source.Reading

/-
  Rv32Tools.Proofs.Source.Columns — a line by its columns, and a file around a line.

  A column has neither a blank nor a `#` outside quotes, and closes the quotes it opens (`Column`). Columns can be spread
  over a line in many ways, with spaces and tabs around them and a comment behind them (`Spread`); in one spelling they
  are always the same columns with single spaces between them (`collapse_spread`).

  A line of a file ends at the end of the file, at a line feed, or at a carriage return and a line feed (`EndsLine`). The
  lines of the file are those before it, itself and those after it (`rawLines_cut`).
-/

namespace Rv32Tools

namespace Source

/-! ## Marks -/

/-- The marks of the front of a text are the front of its marks. -/
theorem markFrom_takeWhile (p : Marked → Bool) (q : Quoting) (s : Text) :
    markFrom q (bytesOf ((markFrom q s).takeWhile p)) = (markFrom q s).takeWhile p := by
  induction s generalizing q with
  | nil => rfl
  | cons b s ih =>
    simp only [markFrom, List.takeWhile_cons]
    split
    · show markFrom q (b :: bytesOf ((markFrom (q.next b) s).takeWhile p)) = _
      rw [markFrom, ih]
    · rfl

/-- The parts of marked bytes between blanks outside quotes. -/
def markedColumns (ms : List Marked) : List Text := ((Text.pieces Marked.isBlank ms).filter (!·.isEmpty)).map bytesOf

theorem columns_splitComment (s : Text) :
    columns (splitComment s).1 = markedColumns ((marked s).takeWhile (!·.isHash)) := by
  show markedColumns (marked (bytesOf ((marked s).takeWhile (!·.isHash)))) = _
  rw [marked, marked, markFrom_takeWhile]

theorem markedColumns_blanks {gap : List Marked} (h : ∀ m ∈ gap, m.isBlank = true) (ms : List Marked) :
    markedColumns (gap ++ ms) = markedColumns ms := by
  induction gap with
  | nil => rfl
  | cons m gap ih =>
    have hm := h m List.mem_cons_self
    rw [← ih fun m' hm' => h m' (List.mem_cons_of_mem _ hm')]
    simp [markedColumns, Text.pieces, hm]

/-- A part without blanks is a column if a blank comes behind it. -/
theorem markedColumns_column {c gap : List Marked} (hne : c ≠ []) (h : ∀ m ∈ c, m.isBlank = false) (hgap : gap ≠ [])
    (hblank : ∀ m ∈ gap, m.isBlank = true) (ms : List Marked) :
    markedColumns (c ++ (gap ++ ms)) = bytesOf c :: markedColumns ms := by
  obtain ⟨m, gap, rfl⟩ := List.exists_cons_of_ne_nil hgap
  have hpieces := Text.pieces_append_cons h (hblank m List.mem_cons_self) (gap ++ ms)
  rw [List.cons_append, ← markedColumns_blanks (fun m' hm' => hblank m' (List.mem_cons_of_mem m hm')) ms]
  simp [markedColumns, hpieces, hne]

/-- So it is at the end of a line. -/
theorem markedColumns_last {c gap : List Marked} (hne : c ≠ []) (h : ∀ m ∈ c, m.isBlank = false)
    (hblank : ∀ m ∈ gap, m.isBlank = true) : markedColumns (c ++ gap) = [bytesOf c] := by
  by_cases hgap : gap = []
  · rw [hgap, List.append_nil]
    simp [markedColumns, Text.pieces_of_neg h, hne]
  · have := markedColumns_column hne h hgap hblank []
    rwa [List.append_nil] at this

/-! ## Columns spread over a line -/

/-- A text that stands in a line as one column, whatever comes behind it. -/
structure Column (c : Text) : Prop where
  ne_nil : c ≠ []
  closed : ∀ r, marked (c ++ r) = marked c ++ marked r
  solid : ∀ m ∈ marked c, m.isBlank = false ∧ m.isHash = false

theorem marked_ne_nil {c : Text} (h : c ≠ []) : marked c ≠ [] := by
  obtain ⟨b, r, rfl⟩ := List.exists_cons_of_ne_nil h
  exact List.cons_ne_nil _ _

theorem bytesOf_marked (s : Text) : bytesOf (marked s) = s := by
  show bytesOf (markFrom .outside s) = s
  generalize Quoting.outside = q
  induction s generalizing q with
  | nil => rfl
  | cons b s ih =>
    show b :: bytesOf (markFrom (q.next b) s) = b :: s
    rw [ih]

theorem column_of_noQuote {c : Text} (hne : c ≠ [])
    (h : ∀ b ∈ c, isQuoteMark b = false ∧ Text.isColumnBlank b = false ∧ b ≠ 0x23) : Column c := by
  have hmarks := marked_of_noQuote fun b hb => (h b hb).1
  refine ⟨hne, fun r => ?_, fun m hm => ?_⟩
  · rw [marked_append_of_noQuote fun b hb => (h b hb).1, hmarks]
  · rw [hmarks] at hm
    obtain ⟨b, hb, rfl⟩ := List.mem_map.mp hm
    simp [Marked.isBlank, Marked.isHash, (h b hb).2]

/-- Spaces and tabs. -/
def Gap (s : Text) : Prop := ∀ b ∈ s, Text.isGap b = true

instance (s : Text) : Decidable (Gap s) := inferInstanceAs (Decidable (∀ b ∈ s, Text.isGap b = true))

theorem Gap.noQuote {s : Text} (h : Gap s) : ∀ b ∈ s, isQuoteMark b = false := by
  have gap : ∀ b, Text.isGap b = true → isQuoteMark b = false := Text.forall_byte (by decide +kernel)
  exact fun b hb => gap b (h b hb)

theorem Gap.marks {s : Text} (h : Gap s) (r : Text) :
    ∃ ms, marked (s ++ r) = ms ++ marked r ∧ (s ≠ [] → ms ≠ []) ∧ ∀ m ∈ ms, m.isBlank = true ∧ m.isHash = false := by
  have gap : ∀ b, Text.isGap b = true → Marked.isBlank ⟨b, false⟩ = true ∧ Marked.isHash ⟨b, false⟩ = false :=
    Text.forall_byte (by decide +kernel)
  refine ⟨_, marked_append_of_noQuote h.noQuote r, by simp, fun m hm => ?_⟩
  obtain ⟨b, hb, rfl⟩ := List.mem_map.mp hm
  exact gap b (h b hb)

theorem Gap.oneLine {s : Text} (h : Gap s) : 0x0A ∉ s := fun hmem => absurd (h _ hmem) (by decide)

/-- The columns `cs` one after the other, each with spaces or tabs behind it. Behind the last there may be none, and a
comment up to the end of the line may follow. -/
inductive Spread : (cs : List Text) → (s : Text) → Prop
  | last {c gap comment : Text} (hgap : Gap gap) (hcomment : comment = [] ∨ ∃ r, comment = 0x23 :: r ∧ 0x0A ∉ r) :
    Spread [c] (c ++ (gap ++ comment))
  | cons {c gap s : Text} {cs : List Text} (hgap : Gap gap) (hne : gap ≠ []) (h : Spread cs s) :
    Spread (c :: cs) (c ++ (gap ++ s))

/-- Columns that are spread over a line stay on it. -/
theorem Spread.oneLine {cs : List Text} {s : Text} (h : Spread cs s) (hcs : ∀ c ∈ cs, 0x0A ∉ c) : 0x0A ∉ s := by
  induction h with
  | @last c gap comment hgap hcomment =>
    have hend : 0x0A ∉ comment := by
      rcases hcomment with rfl | ⟨r, rfl, hr⟩
      · exact List.not_mem_nil
      · simp [hr]
    simp [hcs c List.mem_cons_self, hgap.oneLine, hend]
  | @cons c gap s cs hgap _ _ ih =>
    simp [hcs c List.mem_cons_self, hgap.oneLine, ih fun c' hc' => hcs c' (List.mem_cons_of_mem _ hc')]

theorem takeWhile_noHash {ms : List Marked} (h : ∀ m ∈ ms, m.isHash = false) (rest : List Marked) :
    (ms ++ rest).takeWhile (!·.isHash) = ms ++ rest.takeWhile (!·.isHash) :=
  List.takeWhile_append_of_pos fun m hm => by simp [h m hm]

theorem Spread.columns {cs : List Text} {s : Text} (h : Spread cs s) (hcs : ∀ c ∈ cs, Column c) :
    markedColumns ((marked s).takeWhile (!·.isHash)) = cs := by
  induction h with
  | @last c gap comment hgap hcomment =>
    have hc := hcs c List.mem_cons_self
    obtain ⟨ms, hms, _, hblank⟩ := hgap.marks comment
    have hend : (marked comment).takeWhile (!·.isHash) = [] := by
      rcases hcomment with rfl | ⟨r, rfl, _⟩
      · rfl
      · rfl
    rw [hc.closed, hms, takeWhile_noHash fun m hm => (hc.solid m hm).2, takeWhile_noHash fun m hm => (hblank m hm).2, hend,
      List.append_nil, markedColumns_last (marked_ne_nil hc.ne_nil) (fun m hm => (hc.solid m hm).1)
        fun m hm => (hblank m hm).1, bytesOf_marked]
  | @cons c gap s cs hgap hne _ ih =>
    have hc := hcs c List.mem_cons_self
    obtain ⟨ms, hms, hmsne, hblank⟩ := hgap.marks s
    rw [hc.closed, hms, takeWhile_noHash fun m hm => (hc.solid m hm).2, takeWhile_noHash fun m hm => (hblank m hm).2,
      markedColumns_column (marked_ne_nil hc.ne_nil) (fun m hm => (hc.solid m hm).1) (hmsne hne)
        fun m hm => (hblank m hm).1, bytesOf_marked, ih fun c' hc' => hcs c' (List.mem_cons_of_mem _ hc')]

/-- Columns in one spelling have single spaces between them. -/
theorem collapse_spread {cs : List Text} {indent s : Text} (hindent : Gap indent) (h : Spread cs s)
    (hcs : ∀ c ∈ cs, Column c) : collapse (splitComment (indent ++ s)).1 = Text.join " " cs := by
  obtain ⟨ms, hms, _, hblank⟩ := hindent.marks s
  rw [collapse, columns_splitComment, hms, takeWhile_noHash fun m hm => (hblank m hm).2,
    markedColumns_blanks fun m hm => (hblank m hm).1, h.columns hcs]

/-! ## A line in a file -/

theorem unifyEnds_cons (b : UInt8) (r : Text) :
    Line.unifyEnds (b :: r) =
      if b = 0x0D ∧ r.head? = some 0x0A then Line.unifyEnds r else b :: Line.unifyEnds r := by
  cases r with
  | nil => simp [Line.unifyEnds]
  | cons c r =>
    have hfeed : Line.unifyEnds (0x0A :: r) = 0x0A :: Line.unifyEnds r := by
      cases r with
      | nil => rfl
      | cons d r => simp [Line.unifyEnds]
    by_cases hb : b = 0x0D
    · by_cases hc : c = 0x0A
      · simp [Line.unifyEnds, hb, hc, hfeed]
      · simp [Line.unifyEnds, hb, hc]
    · simp [Line.unifyEnds, hb]

/-- Bytes without a line feed stay as they are, unless the last of them makes an end of line with what follows. -/
theorem unifyEnds_append {s r : Text} (h : 0x0A ∉ s) (hend : s.getLast? = some 0x0D → r.head? ≠ some 0x0A) :
    Line.unifyEnds (s ++ r) = s ++ Line.unifyEnds r := by
  induction s with
  | nil => rfl
  | cons b s ih =>
    have hkeep : ¬ (b = 0x0D ∧ (s ++ r).head? = some 0x0A) := by
      rintro ⟨rfl, hhead⟩
      cases s with
      | nil => exact hend rfl hhead
      | cons c s =>
        rw [List.cons_append, List.head?_cons, Option.some.injEq] at hhead
        exact h (by simp [hhead])
    have hend' : s.getLast? = some 0x0D → r.head? ≠ some 0x0A := by
      intro hs
      refine hend ?_
      rw [List.getLast?_cons, hs]
      rfl
    rw [List.cons_append, unifyEnds_cons, if_neg hkeep, ih (fun hs => h (List.mem_cons_of_mem _ hs)) hend',
      List.cons_append]

/-- Ends of lines are made alike on both sides of a line feed by itself. -/
theorem unifyEnds_append_feed (s r : Text) :
    ∃ t, Line.unifyEnds (s ++ 0x0A :: r) = t ++ 0x0A :: Line.unifyEnds r ∧ Line.unifyEnds (s ++ [0x0A]) = t ++ [0x0A] := by
  induction s with
  | nil =>
    refine ⟨[], ?_, rfl⟩
    rw [List.nil_append, unifyEnds_cons, if_neg (by simp)]
    rfl
  | cons b s ih =>
    obtain ⟨t, hr, hnil⟩ := ih
    have hhead : (s ++ 0x0A :: r).head? = (s ++ [0x0A]).head? := by
      cases s with
      | nil => rfl
      | cons c s => rfl
    rw [List.cons_append, List.cons_append, unifyEnds_cons, unifyEnds_cons, hhead]
    split
    · exact ⟨t, hr, hnil⟩
    · exact ⟨b :: t, by rw [hr, List.cons_append], by rw [hnil, List.cons_append]⟩

/-- The line `raw` ends before `back`: the file ends there, or an end of line stands there. -/
def EndsLine (raw back : Text) : Prop :=
  back = [] ∨ (∃ r, back = 0x0D :: 0x0A :: r) ∨ ∃ r, back = 0x0A :: r ∧ raw.getLast? ≠ some 0x0D

/-- Pieces without the last of them, if it is empty. -/
def dropEmptyLast (rows : List Text) : List Text := if rows.getLast? == some [] then rows.dropLast else rows

theorem dropEmptyLast_append (rows : List Text) {rows' : List Text} (h : rows' ≠ []) :
    dropEmptyLast (rows ++ rows') = rows ++ dropEmptyLast rows' := by
  unfold dropEmptyLast
  rw [List.getLast?_append_of_ne_nil _ h, List.dropLast_append_of_ne_nil h]
  split <;> rfl

theorem rawLines_eq (source : Text) :
    Line.rawLines source = dropEmptyLast (Text.pieces (· == 0x0A) (Line.unifyEnds source)) := rfl

/-- A line that starts a file is its first line. -/
theorem rawLines_first {raw back : Text} (hne : raw ≠ []) (h : 0x0A ∉ raw) (hend : EndsLine raw back) :
    ∃ after, Line.rawLines (raw ++ back) = raw :: after := by
  have hpiece : ∀ b ∈ raw, (b == 0x0A) = false := by
    intro b hb
    rw [beq_eq_false_iff_ne]
    rintro rfl
    exact h hb
  have behind : ∀ r, Line.unifyEnds (raw ++ back) = raw ++ 0x0A :: r →
      ∃ after, Line.rawLines (raw ++ back) = raw :: after := by
    intro r hr
    refine ⟨dropEmptyLast (Text.pieces (· == 0x0A) r), ?_⟩
    rw [rawLines_eq, hr, Text.pieces_append_cons hpiece (by decide), ← List.singleton_append,
      dropEmptyLast_append _ (Text.pieces_ne_nil _ _), List.singleton_append]
  rcases hend with rfl | ⟨r, rfl⟩ | ⟨r, rfl, hlast⟩
  · refine ⟨[], ?_⟩
    rw [rawLines_eq, unifyEnds_append h (by simp), show Line.unifyEnds [] = [] from rfl, List.append_nil,
      Text.pieces_of_neg hpiece]
    simp [dropEmptyLast, hne]
  · refine behind (Line.unifyEnds r) ?_
    rw [unifyEnds_append h (by simp), unifyEnds_cons, if_pos ⟨rfl, rfl⟩, unifyEnds_cons, if_neg (by simp)]
  · refine behind (Line.unifyEnds r) ?_
    rw [unifyEnds_append h fun hcr => absurd hcr hlast, unifyEnds_cons, if_neg (by simp)]

/-- The lines of a file are those before a line, the line and those after it. -/
theorem rawLines_cut {front raw back : Text} (hfront : front = [] ∨ front.getLast? = some 0x0A) (hne : raw ≠ [])
    (h : 0x0A ∉ raw) (hend : EndsLine raw back) :
    ∃ after, Line.rawLines (front ++ (raw ++ back)) = Line.rawLines front ++ raw :: after := by
  obtain ⟨after, hafter⟩ := rawLines_first hne h hend
  refine ⟨after, ?_⟩
  rcases hfront with rfl | hfront
  · exact hafter
  · obtain ⟨s, rfl⟩ := List.getLast?_eq_some_iff.mp hfront
    obtain ⟨t, hboth, hfront⟩ := unifyEnds_append_feed s (raw ++ back)
    rw [List.append_assoc, List.singleton_append, rawLines_eq, rawLines_eq, hboth, hfront,
      Text.pieces_append_sep t (by decide), Text.pieces_append_sep t (by decide),
      dropEmptyLast_append _ (Text.pieces_ne_nil _ _), dropEmptyLast_append _ (Text.pieces_ne_nil _ _), ← rawLines_eq,
      hafter, List.append_assoc]
    rfl

end Source

end Rv32Tools
