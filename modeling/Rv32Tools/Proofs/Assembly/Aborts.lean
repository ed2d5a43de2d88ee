import Rv32Tools.Proofs.Assembly.Emitted
import Rv32Tools.Proofs.Assembly.Sections

/-
  Rv32Tools.Proofs.Assembly.Aborts — the sources that a run has no answer for.

  A run ends with a result or a fatal diagnostic, but for two kinds of lines, reached before any fault:
  - a line of the text segment that holds nothing but white space, some of it not ASCII: blanks are taken off as bytes
    and words are found by characters, so that there is something on the line and no word in it;
  - a line of the data segment whose directive is longer in lower case than the whole statement.
  `assemble_answers_iff` says that there are no others. `Layout.step_abort_iff` and `DataSegment.line_abort_iff` are
  about one line, `Layout.place_abort_iff` and `buildData_abort_iff` about all of them. The encoder never aborts:
  what is laid out has a word on it, also after its calls are replaced (`Stages.no_abort`).
-/

namespace Rv32Tools.Assembly

open Source (Line)

/-! ## The step that stops a run -/

/-- A run fails at the first of its steps that fails. -/
theorem foldlM_eq_error_iff {ε σ α : Type} {step : σ → α → Except ε σ} {s : σ} {as : List α} {e : ε} :
    as.foldlM step s = .error e ↔
      ∃ before a after s', as = before ++ a :: after ∧ before.foldlM step s = .ok s' ∧ step s' a = .error e := by
  induction as generalizing s with
  | nil => simp [pure, Except.pure]
  | cons a as ih =>
    rw [List.foldlM_cons]
    cases hstep : step s a with
    | ok s₁ =>
      show as.foldlM step s₁ = .error e ↔ _
      rw [ih]
      constructor
      · rintro ⟨before, a', after, s', rfl, hbefore, he⟩
        refine ⟨a :: before, a', after, s', rfl, ?_, he⟩
        rw [List.foldlM_cons, hstep]
        exact hbefore
      · rintro ⟨before, a', after, s', has, hbefore, he⟩
        cases before with
        | nil =>
          cases has
          cases hbefore
          rw [hstep] at he
          cases he
        | cons a₀ before =>
          cases has
          rw [List.foldlM_cons, hstep] at hbefore
          exact ⟨before, a', after, s', rfl, hbefore, he⟩
    | error e' =>
      show Except.error e' = .error e ↔ _
      constructor
      · rintro ⟨⟩
        exact ⟨[], a, as, s, rfl, rfl, hstep⟩
      · rintro ⟨before, a', after, s', has, hbefore, he⟩
        cases before with
        | nil =>
          cases has
          cases hbefore
          exact hstep.symm.trans he
        | cons a₀ before =>
          cases has
          rw [List.foldlM_cons, hstep] at hbefore
          cases hbefore

/-! ## The text segment -/

namespace Layout

theorem body_abort_iff {y : Layout} {l : Line} {code : Text} {a : Abort} :
    y.body l code = .error (.abort a) ↔
      a = .blankInstruction ∧ code ≠ [] ∧ Source.directive? code = none ∧ Text.words code = [] := by
  unfold body
  split
  · rename_i he
    simp [List.isEmpty_iff.mp he]
  · rename_i he
    have hne : code ≠ [] := by simpa using he
    split
    · rename_i name hd
      simp [hd]
    · rename_i hd
      split
      · rename_i hw
        simp [hne, hd, hw, eq_comm]
      · rename_i name operands hw
        simp only [hw]
        split <;> simp

theorem step_abort_iff {y : Layout} {l : Line} {a : Abort} :
    y.step l = .error (.abort a) ↔ a = .blankInstruction ∧ l.text ≠ [] ∧ Text.words l.text = [] := by
  constructor
  · intro h
    unfold step at h
    split at h
    · cases h
    · rename_i hb
      have hbody : ∃ y' : Layout, y'.body l l.statement.body = .error (.abort a) := by
        simp only at h
        split at h
        · exact ⟨y, h⟩
        · split at h
          · cases h
          · exact ⟨_, h⟩
      obtain ⟨y', hy'⟩ := hbody
      obtain ⟨ha, hne, _, hw⟩ := body_abort_iff.mp hy'
      exact ⟨ha, by simpa [Line.isBlank] using hb, Source.ofCode_blank hne hw⟩
  · rintro ⟨rfl, hne, hw⟩
    have hst : l.statement = ⟨[], l.text⟩ := Source.ofCode_unlabelled (Source.isLabelled_eq_false hw)
    have hd : Source.directive? l.text = none := by
      unfold Source.directive?
      refine if_neg fun hdot => ?_
      have hmem : 0x2E ∈ l.text := List.mem_of_head? (by simpa using hdot)
      exact Text.words_ne_nil (by decide) hmem hw
    unfold step
    rw [if_neg (by simpa [Line.isBlank] using hne), hst]
    exact body_abort_iff.mpr ⟨rfl, hne, hd, hw⟩

/-- A step of a layout, with the line at which it stops. -/
def takeLine (y : Layout) (l : Line) : Except LayoutFault Layout :=
  match y.step l with
  | .ok y' => .ok y'
  | .error halt => .error ⟨l.number, halt⟩

theorem foldlM_takeLine (y : Layout) (ls : List Line) :
    ls.foldlM takeLine y = match y.place ls with
      | (y', none) => .ok y'
      | (_, some fault) => .error fault := by
  induction ls generalizing y with
  | nil => rfl
  | cons l ls ih =>
    rw [List.foldlM_cons, takeLine, place]
    cases y.step l with
    | ok y₁ => exact ih y₁
    | error halt => rfl

theorem place_eq_none_iff {y y' : Layout} {ls : List Line} :
    y.place ls = (y', none) ↔ ls.foldlM takeLine y = .ok y' := by
  rw [foldlM_takeLine]
  rcases y.place ls with ⟨z, _ | fault⟩ <;> simp

theorem place_eq_some_iff {y : Layout} {ls : List Line} {fault : LayoutFault} :
    (y.place ls).2 = some fault ↔ ls.foldlM takeLine y = .error fault := by
  rw [foldlM_takeLine]
  rcases y.place ls with ⟨z, _ | fault⟩ <;> simp

/-- A layout stops without a diagnostic at the first line of white space, if no fault comes before it. -/
theorem place_abort_iff {y : Layout} {ls : List Line} {a : Abort} :
    (∃ n, (y.place ls).2 = some ⟨n, .abort a⟩) ↔ a = .blankInstruction ∧ ∃ before l after y',
      ls = before ++ l :: after ∧ y.place before = (y', none) ∧ l.text ≠ [] ∧ Text.words l.text = [] := by
  have stops : ∀ {y : Layout} {l : Line} {n : Nat},
      y.takeLine l = .error ⟨n, .abort a⟩ ↔ n = l.number ∧ y.step l = .error (.abort a) := by
    intro y l n
    unfold takeLine
    split
    · rename_i y' hy
      simp [hy]
    · rename_i halt hy
      simp [hy, eq_comm]
  simp only [place_eq_some_iff, foldlM_eq_error_iff, place_eq_none_iff, stops, step_abort_iff]
  constructor
  · rintro ⟨n, before, l, after, y', hls, hbefore, rfl, ha, hblank⟩
    exact ⟨ha, before, l, after, y', hls, hbefore, hblank⟩
  · rintro ⟨ha, before, l, after, y', hls, hbefore, hblank⟩
    exact ⟨l.number, before, l, after, y', hls, hbefore, rfl, ha, hblank⟩

end Layout

/-! ## The data segment -/

namespace DataSegment

/-- The line is without a fault, its label can be defined, and its directive is longer in lower case than the whole
statement. -/
def Overruns (d : DataSegment) (l : Line) : Prop :=
  l.fault = none ∧ (∃ d', d.labelled l = .ok d') ∧
    ∃ name, Source.directive? l.statement.body = some name ∧ l.statement.body.length < name.length

theorem body_abort_iff {d : DataSegment} {code : Text} {a : Abort} :
    (d.body code).2 = some (.abort a) ↔
      a = .directiveOverrun ∧ ∃ name, Source.directive? code = some name ∧ code.length < name.length := by
  unfold body
  split
  · rename_i he
    rw [List.isEmpty_iff.mp he]
    simp [Source.directive?]
  · split
    · rename_i hd
      simp [hd]
    · rename_i name hd
      split
      · rename_i hlt
        simp [hd, hlt, eq_comm]
      · rename_i hge
        simp only [hd, Option.some.injEq]
        constructor
        · intro h
          obtain ⟨e, _, he⟩ := Option.map_eq_some_iff.mp h
          cases he
        · rintro ⟨_, name', rfl, hlt⟩
          exact absurd hlt hge

theorem line_abort_iff {d : DataSegment} {l : Line} {a : Abort} :
    l.fault = none ∧ (d.line l).2 = some (.abort a) ↔ a = .directiveOverrun ∧ d.Overruns l := by
  rw [line_eq, Overruns]
  cases h : d.labelled l with
  | error e => simp
  | ok d₁ =>
    simp only [body_abort_iff]
    constructor
    · exact fun ⟨hf, ha, hname⟩ => ⟨ha, hf, ⟨d₁, rfl⟩, hname⟩
    · exact fun ⟨ha, hf, _, hname⟩ => ⟨hf, ha, hname⟩

end DataSegment

/-- A step of a data segment. -/
def takeDataLine (d : DataSegment) (l : Line) : Except (Halt Diagnostic) DataSegment :=
  match l.fault, d.line l with
  | some message, _ => .error (.error ⟨.fatal, l.number, message⟩)
  | none, (d', none) => .ok d'
  | none, (_, some (.error e)) => .error (.error ⟨.fatal, l.number, e.message⟩)
  | none, (_, some (.abort a)) => .error (.abort a)

theorem buildData_eq_foldlM (d : DataSegment) (ls : List Line) : buildData d ls = ls.foldlM takeDataLine d := by
  induction ls generalizing d with
  | nil => rfl
  | cons l ls ih =>
    rw [List.foldlM_cons, takeDataLine, buildData]
    rcases l.fault with _ | message
    · rcases d.line l with ⟨d', _ | _ | _⟩
      · exact ih d'
      · rfl
      · rfl
    · rfl

theorem takeDataLine_abort_iff {d : DataSegment} {l : Line} {a : Abort} :
    takeDataLine d l = .error (.abort a) ↔ a = .directiveOverrun ∧ d.Overruns l := by
  rw [← DataSegment.line_abort_iff, takeDataLine]
  rcases l.fault with _ | message
  · rcases d.line l with ⟨d', _ | _ | _⟩ <;> simp
  · simp

/-- A data segment ends without a diagnostic at the first line that overruns, if no fault comes before it. -/
theorem buildData_abort_iff {d : DataSegment} {ls : List Line} {a : Abort} :
    buildData d ls = .error (.abort a) ↔ a = .directiveOverrun ∧ ∃ before l after e,
      ls = before ++ l :: after ∧ buildData d before = .ok e ∧ e.Overruns l := by
  simp only [buildData_eq_foldlM, foldlM_eq_error_iff, takeDataLine_abort_iff]
  constructor
  · rintro ⟨before, l, after, e, hls, hbefore, ha, hover⟩
    exact ⟨ha, before, l, after, e, hls, hbefore, hover⟩
  · rintro ⟨ha, before, l, after, e, hls, hbefore, hover⟩
    exact ⟨before, l, after, e, hls, hbefore, ha, hover⟩

theorem takeDataLine_fatal {d : DataSegment} {l : Line} {diagnostic : Diagnostic}
    (h : takeDataLine d l = .error (.error diagnostic)) : diagnostic.severity = .fatal := by
  unfold takeDataLine at h
  split at h
  · cases h; rfl
  · cases h
  · cases h; rfl
  · cases h

/-! ## The run -/

/-- There is a line in the data segment that overruns, before any fault. -/
def OverrunsDirective (source : Text) : Prop :=
  ∃ sections, (Sections.ofLines (Line.ofSource source)).2 = .ok sections ∧ ∃ region before l after e,
    sections.data = some region ∧ region.lines (Line.ofSource source) = before ++ l :: after ∧
    buildData (.start region.base .empty) before = .ok e ∧ e.Overruns l

/-- There is a line in the text segment with nothing on it but white space, before any fault. -/
def HasBlankInstruction (source : Text) : Prop :=
  ∃ sections data, (Sections.ofLines (Line.ofSource source)).2 = .ok sections ∧
    dataStage (Line.ofSource source) sections = .ok data ∧ ∃ before l after y,
    sections.text.lines (Line.ofSource source) = before ++ l :: after ∧
    Layout.ofLines sections.text.base (dataLabels data) before = (y, none) ∧ l.text ≠ [] ∧ Text.words l.text = []

theorem dataStage_abort_iff {ls : List Line} {sections : Sections} {a : Abort} :
    dataStage ls sections = .error (.abort a) ↔ a = .directiveOverrun ∧ ∃ region before l after e,
      sections.data = some region ∧ region.lines ls = before ++ l :: after ∧
      buildData (.start region.base .empty) before = .ok e ∧ e.Overruns l := by
  cases hr : sections.data with
  | none => simp [dataStage, hr]
  | some region =>
    have stage : dataStage ls sections = .error (.abort a) ↔
        buildData (.start region.base .empty) (region.lines ls) = .error (.abort a) := by
      simp only [dataStage, hr]
      cases buildData (.start region.base .empty) (region.lines ls) <;> simp
    rw [stage, buildData_abort_iff]
    constructor
    · rintro ⟨ha, before, l, after, e, h⟩
      exact ⟨ha, region, before, l, after, e, rfl, h⟩
    · rintro ⟨ha, _, before, l, after, e, ⟨⟩, h⟩
      exact ⟨ha, before, l, after, e, h⟩

theorem dataStage_fatal {ls : List Line} {sections : Sections} {diagnostic : Diagnostic}
    (h : dataStage ls sections = .error (.error diagnostic)) : diagnostic.severity = .fatal := by
  unfold dataStage at h
  split at h
  · cases h
  · split at h
    · rename_i hb
      cases h
      rw [buildData_eq_foldlM, foldlM_eq_error_iff] at hb
      obtain ⟨_, _, _, _, _, _, he⟩ := hb
      exact takeDataLine_fatal he
    · cases h

theorem LayoutFault.ending_abort_iff {fault : LayoutFault} {a : Abort} :
    fault.ending = .abort a ↔ ∃ n, fault = ⟨n, .abort a⟩ := by
  rcases fault with ⟨n, _ | _⟩ <;> simp [ending]

theorem LayoutFault.ending_fatal {fault : LayoutFault} {diagnostic : Diagnostic}
    (h : fault.ending = .error diagnostic) : diagnostic.severity = .fatal := by
  rcases fault with ⟨n, _ | _⟩
  · cases h; rfl
  · cases h

/-- The stages of a source end without a diagnostic at one of the two kinds of lines. -/
theorem Stages.ofSource_abort_iff {source : Text} {a : Abort} :
    Stages.ofSource source = .error (.abort a) ↔
      a = .directiveOverrun ∧ OverrunsDirective source ∨ a = .blankInstruction ∧ HasBlankInstruction source := by
  rw [ofSource_error_iff]
  constructor
  · rintro (⟨e, _, h⟩ | ⟨sections, hs, hd | ⟨data, fault, hd, hf, he⟩⟩)
    · cases h
    · obtain ⟨ha, h⟩ := dataStage_abort_iff.mp hd
      exact Or.inl ⟨ha, sections, hs, h⟩
    · obtain ⟨n, rfl⟩ := LayoutFault.ending_abort_iff.mp he.symm
      obtain ⟨ha, h⟩ := Layout.place_abort_iff.mp ⟨n, hf⟩
      exact Or.inr ⟨ha, sections, data, hs, hd, h⟩
  · rintro (⟨ha, sections, hs, h⟩ | ⟨ha, sections, data, hs, hd, h⟩)
    · exact Or.inr ⟨sections, hs, Or.inl (dataStage_abort_iff.mpr ⟨ha, h⟩)⟩
    · obtain ⟨n, hn⟩ := Layout.place_abort_iff.mpr ⟨ha, h⟩
      exact Or.inr ⟨sections, hs, Or.inr ⟨data, _, hd, hn, rfl⟩⟩

theorem Stages.ofSource_fatal {source : Text} {diagnostic : Diagnostic}
    (h : Stages.ofSource source = .error (.error diagnostic)) : diagnostic.severity = .fatal := by
  rcases ofSource_error_iff.mp h with ⟨e, _, he⟩ | ⟨sections, _, hd | ⟨data, fault, _, _, he⟩⟩
  · cases he; rfl
  · exact dataStage_fatal hd
  · exact LayoutFault.ending_fatal he.symm

/-- What a run reads by position is there: the bodies of the segments lie inside the source, a placed line is found by
its number, and an encoded line has the words that its name stands for. -/
structure InRange (o : Options) (source : Text) : Prop where
  sections : ∀ sections, (Sections.ofLines (Line.ofSource source)).2 = .ok sections →
    sections.text.Within (Line.ofSource source).length ∧
      ∀ region, sections.data = some region → region.Within (Line.ofSource source).length
  placements : ∀ s, Stages.ofSource source = .ok s → ∀ p ∈ s.layout.placements,
    0 < p.line.number ∧ (Line.ofSource source)[p.line.number - 1]? = some p.line
  widths : ∀ s, Stages.ofSource source = .ok s → ∀ a ∈ s.attempts o, ∀ is, a.outcome = .ok is →
    ∃ name operands m, Text.words a.placement.line.statement.body = name :: operands ∧
      Mnemonic.ofText? name = some m ∧ is.length = m.words

theorem placement_line {source : Text} {s : Stages} (h : Stages.ofSource source = .ok s) {p : Placement}
    (hp : p ∈ s.layout.placements) :
    0 < p.line.number ∧ (Line.ofSource source)[p.line.number - 1]? = some p.line := by
  have hlines : s.layout.placements.map Placement.line = (s.textLines source).filter Line.isInstruction := by
    rw [(Stages.laidOut h).placements, List.nil_append, Layout.along_placedOn_lines]
  have hmem : p.line ∈ Line.ofSource source := by
    have hline : p.line ∈ (s.textLines source).filter Line.isInstruction := hlines ▸ List.mem_map_of_mem hp
    exact (Region.lines_sublist _ _).subset (List.mem_of_mem_filter hline)
  obtain ⟨i, hi⟩ := List.mem_iff_getElem?.mp hmem
  have hnumber : p.line.number = 1 + i := Line.numbered_getElem? hi
  rw [hnumber, Nat.add_sub_cancel_left]
  exact ⟨by omega, hi⟩

theorem inRange (o : Options) (source : Text) : InRange o source where
  sections sections hs := by
    obtain ⟨htext, _, hdata⟩ := Sections.ofLines_ok hs
    exact ⟨htext, hdata⟩
  placements s h p hp := placement_line h hp
  widths s _ a ha is his := by
    obtain ⟨e, _, rfl⟩ := List.mem_map.mp ha
    obtain ⟨_, name, operands, hw, hx⟩ := Context.line_eq_ok _ his
    obtain ⟨m, hm, hlen⟩ := Context.expand_length _ hx
    exact ⟨name, operands, m, hw, hm, hlen⟩

/-- A run has an answer, a result or a fatal diagnostic, for every source without the two kinds of lines and for no
other. -/
theorem assemble_answers_iff (o : Options) (source : Text) :
    (((∃ r, (assemble o source).outcome = .ok r) ∨
        ∃ d, (assemble o source).outcome = .error (.error d) ∧ d.severity = .fatal) ↔
      ¬ OverrunsDirective source ∧ ¬ HasBlankInstruction source) ∧ InRange o source := by
  refine ⟨?_, inRange o source⟩
  have aborts : (OverrunsDirective source ∨ HasBlankInstruction source) ↔
      ∃ a, Stages.ofSource source = .error (.abort a) := by
    simp only [Stages.ofSource_abort_iff]
    constructor
    · rintro (h | h)
      · exact ⟨_, Or.inl ⟨rfl, h⟩⟩
      · exact ⟨_, Or.inr ⟨rfl, h⟩⟩
    · rintro ⟨a, ⟨_, h⟩ | ⟨_, h⟩⟩
      · exact Or.inl h
      · exact Or.inr h
  rw [← not_or, aborts, assemble_eq]
  cases h : Stages.ofSource source with
  | ok s => simp [Except.map]
  | error halt =>
    cases halt with
    | abort a => simp [Except.map]
    | error d => simp [Except.map, Stages.ofSource_fatal h]

/-- Why a run has no answer. -/
def Run.abort? (r : Run) : Option Abort :=
  match r.outcome with
  | .error (.abort a) => some a
  | _ => none

theorem Run.outcome_of_abort? {r : Run} {a : Abort} (h : r.abort? = some a) : r.outcome = .error (.abort a) := by
  unfold abort? at h
  split at h
  · rename_i ha
    cases h
    exact ha
  · cases h

/-- A line with a no-break space on it, and a directive whose lower case takes one byte more. -/
theorem no_answer :
    (assemble {} ".section .text\n.org 0x0\n\u00a0").outcome = .error (.abort .blankInstruction) ∧
      (assemble {} ".section .data\n.org 0x0\n.\u023a\n.section .text\n.org 0x0").outcome =
        .error (.abort .directiveOverrun) := by
  refine ⟨Run.outcome_of_abort? ?_, Run.outcome_of_abort? ?_⟩
  · decide +kernel
  · decide +kernel

end Rv32Tools.Assembly
