import Rv32Tools.Proofs.Assembly.LineNumbers
import Rv32Tools.Proofs.Source.Reading
import Rv32Tools.Proofs.Text.Words

/-
  Rv32Tools.Proofs.Assembly.BlankLines — a line without code may stand anywhere.

  A line of blanks, with or without a comment behind them, is read as a blank line (`ofRaw_of_holdsNoCode`). Where it
  is put in behind `k` lines, the lines after it get the next number (`shiftNumber k`) and the next index
  (`shiftIndex k`), and the stages go through the source as before:
  - the sections are found with the same bases and move along (`Sections.ofLines_insert`);
  - each region has the lines it had, but for blank ones (`Region.lines_insert`);
  - a blank line adds nothing to the data segment (`buildData_filter`) and nothing to the layout (`Layout.place_filter`).

  Under other numbers the stages do what they did (`Rv32Tools.Proofs.Assembly.LineNumbers`), so the two runs end alike, and
  with the same result but for numbers of lines (`blank_line_neutral`).
-/

namespace Rv32Tools

namespace Source

/-! ## A line without code -/

/-- Blanks, and behind them nothing or a comment. -/
def HoldsNoCode (raw : Text) : Prop :=
  ∃ blanks rest, raw = blanks ++ rest ∧ (∀ b ∈ blanks, b = 0x20 ∨ b = 0x09) ∧
    (rest = [] ∨ ∃ comment, rest = 0x23 :: comment)

theorem noQuote_of_blanks {blanks : Text} (h : ∀ b ∈ blanks, b = 0x20 ∨ b = 0x09) :
    ∀ b ∈ blanks, isQuoteMark b = false := by
  intro b hb
  rcases h b hb with rfl | rfl
  · rfl
  · rfl

theorem splitComment_of_blanks {blanks rest : Text} (h : ∀ b ∈ blanks, b = 0x20 ∨ b = 0x09)
    (hrest : rest = [] ∨ ∃ comment, rest = 0x23 :: comment) : (splitComment (blanks ++ rest)).1 = blanks := by
  have hhash : ∀ m ∈ blanks.map (fun b => (⟨b, false⟩ : Marked)), (!m.isHash) = true := by
    intro m hm
    obtain ⟨b, hb, rfl⟩ := List.mem_map.mp hm
    rcases h b hb with rfl | rfl
    · rfl
    · rfl
  have hend : (marked rest).takeWhile (!·.isHash) = [] := by
    rcases hrest with rfl | ⟨comment, rfl⟩
    · rfl
    · rfl
  show bytesOf ((marked (blanks ++ rest)).takeWhile (!·.isHash)) = blanks
  rw [marked_append_of_noQuote (noQuote_of_blanks h), List.takeWhile_append_of_pos hhash, hend, List.append_nil, bytesOf_unquoted]

theorem collapse_of_blanks {blanks : Text} (h : ∀ b ∈ blanks, b = 0x20 ∨ b = 0x09) : collapse blanks = [] := by
  have hcolumns : columns blanks = [] := by
    rw [columns_of_noQuote (noQuote_of_blanks h), List.filter_eq_nil_iff]
    intro piece hpiece
    obtain ⟨hpart, hnone⟩ := (Text.pieces_spec (p := Text.isColumnBlank) blanks).2 piece hpiece
    cases piece with
    | nil => decide
    | cons b piece =>
      have hb := hnone b List.mem_cons_self
      rcases h b (hpart.subset List.mem_cons_self) with rfl | rfl
      · cases hb
      · cases hb
  rw [collapse, hcolumns]
  rfl

namespace Line

theorem ofRaw_of_holdsNoCode {raw : Text} (h : HoldsNoCode raw) (number : Nat) : (ofRaw number raw).isBlank = true := by
  obtain ⟨blanks, rest, rfl, hblanks, hrest⟩ := h
  have hcode : collapse (splitComment (blanks ++ rest)).1 = [] := by
    rw [splitComment_of_blanks hblanks hrest, collapse_of_blanks hblanks]
  unfold ofRaw
  simp only [hcode]
  rfl

/-- A line with a fault has code on it. -/
theorem ofRaw_fault_of_isBlank {raw : Text} {number : Nat} (h : (ofRaw number raw).isBlank = true) :
    (ofRaw number raw).fault = none := by
  unfold ofRaw at h ⊢
  simp only at h ⊢
  split at h
  · rename_i hc
    rw [if_pos hc]
  · rename_i hc
    rw [if_neg hc]
    split at h
    · rename_i hb
      rw [if_pos hb]
    · rename_i hb
      rw [if_neg hb]
      split at h
      · exact absurd h hc
      · rfl

/-- Raw lines under other numbers. -/
theorem numbered_renumber (f : Nat → Nat) {n m : Nat} {raws : List Text} (h : ∀ i < raws.length, f (n + i) = m + i) :
    (numbered n raws).map (renumber f) = numbered m raws := by
  induction raws generalizing n m with
  | nil => rfl
  | cons raw raws ih =>
    have hfirst : f n = m := h 0 (by simp)
    have hrest : ∀ i < raws.length, f (n + 1 + i) = m + 1 + i := by
      intro i hi
      have := h (i + 1) (by simpa using hi)
      rw [show n + 1 + i = n + (i + 1) by omega, this]
      omega
    simp only [numbered, List.map_cons, ofRaw_renumber, hfirst, ih hrest]

theorem numbered_fault_of_isBlank {number : Nat} {raws : List Text} :
    ∀ l ∈ numbered number raws, l.isBlank = true → l.fault = none := by
  induction raws generalizing number with
  | nil =>
    intro l hl
    cases hl
  | cons raw raws ih =>
    intro l hl hb
    rcases List.mem_cons.mp hl with rfl | hl
    · exact ofRaw_fault_of_isBlank hb
    · exact ih l hl hb

end Line

end Source

namespace Assembly

open Source (Line)

/-! ## Numbers behind an insertion -/

/-- The number of line `n` when a line is put in behind line `k`. -/
def shiftNumber (k n : Nat) : Nat := if n ≤ k then n else n + 1

/-- The index of the line at index `i` when a line is put in behind line `k`. -/
def shiftIndex (k i : Nat) : Nat := if i < k then i else i + 1

@[simp] theorem shiftNumber_zero (k : Nat) : shiftNumber k 0 = 0 := if_pos (Nat.zero_le k)

theorem shiftNumber_succ (k i : Nat) : shiftNumber k (i + 1) = shiftIndex k i + 1 := by
  unfold shiftNumber shiftIndex
  by_cases h : i < k
  · rw [if_pos h, if_pos (by omega)]
  · rw [if_neg h, if_neg (by omega)]

theorem shiftIndex_of_le {k i : Nat} (h : k ≤ i) : shiftIndex k i = i + 1 := if_neg (by omega)

/-- Lines with one more put in, and those behind it pushed on. -/
def insertLine (before : List Line) (l : Line) (after : List Line) : List Line :=
  before.map (Line.renumber (shiftNumber before.length)) ++ l :: after.map (Line.renumber (shiftNumber before.length))

theorem insertLine_length (before : List Line) (l : Line) (after : List Line) :
    (insertLine before l after).length = (before ++ after).length + 1 := by
  simp only [insertLine, List.length_append, List.length_map, List.length_cons]
  omega

theorem ofSource_insertLine {source source' raw : Text} {before after : List Text}
    (h : Line.rawLines source = before ++ after) (h' : Line.rawLines source' = before ++ raw :: after) :
    Line.ofSource source = Line.numbered 1 before ++ Line.numbered (before.length + 1) after ∧
      Line.ofSource source' =
        insertLine (Line.numbered 1 before) (Line.ofRaw (before.length + 1) raw)
          (Line.numbered (before.length + 1) after) := by
  have hbefore : (Line.numbered 1 before).map (Line.renumber (shiftNumber before.length)) = Line.numbered 1 before := by
    refine Line.numbered_renumber _ fun i hi => ?_
    exact if_pos (by omega)
  have hafter : (Line.numbered (before.length + 1) after).map (Line.renumber (shiftNumber before.length)) =
      Line.numbered (before.length + 2) after := by
    refine Line.numbered_renumber _ fun i _ => ?_
    rw [shiftNumber, if_neg (by omega)]
    omega
  constructor
  · rw [Line.ofSource, h, Line.numbered_append, Nat.add_comm 1]
  · rw [Line.ofSource_of_rawLines h', insertLine, Line.numbered_length, hbefore, hafter]

/-! ## Sections -/

def Region.shift (k : Nat) (r : Region) : Region := ⟨r.base, shiftNumber k r.start, shiftIndex k r.stop⟩

def Sections.shift (k : Nat) (s : Sections) : Sections := ⟨s.data.map (Region.shift k), s.text.shift k⟩

def SectionFault.renumber (f : Nat → Nat) (e : SectionFault) : SectionFault := { e with line := f e.line }

def Rounding.renumber (f : Nat → Nat) (r : Rounding) : Rounding := { r with line := f r.line }

namespace Sections

def Stage.renumber (f : Nat → Nat) : Stage → Stage
  | .before => .before
  | .awaitingOrg kind line => .awaitingOrg kind (f line)
  | .inBody => .inBody

/-- A region that has its start but not yet its end. -/
def Scan.shiftStart (k : Nat) (r : Region) : Region := { r with start := shiftNumber k r.start }

/-- A scan with the numbers behind line `k` pushed on. The data segment has its end once the text segment is opened. -/
def Scan.shift (k : Nat) (s : Scan) : Scan where
  stage := s.stage.renumber (shiftNumber k)
  data := s.data.map (if s.text.isSome then Region.shift k else shiftStart k)
  text := s.text.map (shiftStart k)
  roundings := s.roundings.map (Rounding.renumber (shiftNumber k))

/-- What becomes of a step of a scan. -/
def stepShifted (k : Nat) : Except SectionFault Scan → Except SectionFault Scan
  | .ok s => .ok (s.shift k)
  | .error e => .error (e.renumber (shiftNumber k))

variable (k : Nat) (s : Scan) (i : Nat) (l : Line)

@[simp] theorem Scan.shift_data_isSome : (s.shift k).data.isSome = s.data.isSome := Option.isSome_map

@[simp] theorem Scan.shift_text_isSome : (s.shift k).text.isSome = s.text.isSome := Option.isSome_map

variable {s} in
theorem openData_shift (ht : s.text = none) (number : Nat) :
    Scan.shift k { s with stage := .awaitingOrg .data number, data := some {} } =
      { s.shift k with stage := .awaitingOrg .data (shiftNumber k number), data := some {} } := by
  simp [Scan.shift, Stage.renumber, ht, Scan.shiftStart]

variable {s} in
theorem openText_shift (ht : s.text = none) (number : Nat) :
    Scan.shift k { s with
        stage := .awaitingOrg .text number
        data := s.data.map fun r => { r with stop := i }
        text := some {} } =
      { s.shift k with
        stage := .awaitingOrg .text (shiftNumber k number)
        data := (s.shift k).data.map fun r => { r with stop := shiftIndex k i }
        text := some {} } := by
  simp [Scan.shift, Stage.renumber, ht, Function.comp_def, Region.shift, Scan.shiftStart]

theorem baseData_shift (base : Word) (roundings : List Rounding) :
    Scan.shift k { s with
        stage := .inBody
        data := s.data.map fun r => { r with base, start := i + 1 }
        roundings } =
      { s.shift k with
        stage := .inBody
        data := (s.shift k).data.map fun r => { r with base, start := shiftIndex k i + 1 }
        roundings := roundings.map (Rounding.renumber (shiftNumber k)) } := by
  cases ht : s.text with
  | none => simp [Scan.shift, Stage.renumber, ht, Function.comp_def, Scan.shiftStart, shiftNumber_succ]
  | some text => simp [Scan.shift, Stage.renumber, ht, Function.comp_def, Region.shift, shiftNumber_succ]

theorem baseText_shift (base : Word) (roundings : List Rounding) :
    Scan.shift k { s with
        stage := .inBody
        text := s.text.map fun r => { r with base, start := i + 1 }
        roundings } =
      { s.shift k with
        stage := .inBody
        text := (s.shift k).text.map fun r => { r with base, start := shiftIndex k i + 1 }
        roundings := roundings.map (Rounding.renumber (shiftNumber k)) } := by
  simp [Scan.shift, Stage.renumber, Function.comp_def, Scan.shiftStart, shiftNumber_succ]

theorem openSection_shift :
    openSection (s.shift k) (shiftIndex k i) (l.renumber (shiftNumber k)) = stepShifted k (openSection s i l) := by
  have hstatement : (l.renumber (shiftNumber k)).statement = l.statement := rfl
  have hwords : (l.renumber (shiftNumber k)).words = l.words := rfl
  have hstage : (s.shift k).stage = s.stage.renumber (shiftNumber k) := rfl
  unfold openSection
  simp only [hstatement, hwords, hstage, Scan.shift_data_isSome, Scan.shift_text_isSome]
  by_cases hlabel : l.statement.label ≠ []
  · rw [if_pos hlabel, if_pos hlabel]
    rfl
  · rw [if_neg hlabel, if_neg hlabel]
    rcases hs : s.stage with _ | ⟨kind, line⟩ | _
    case awaitingOrg => rfl
    all_goals
      rcases l.words with _ | ⟨_, _ | ⟨argument, _ | _⟩⟩
      case cons.cons.nil =>
        simp only [Stage.renumber]
        rcases kindOf? argument with _ | _ | _
        case none => rfl
        case some.data =>
          by_cases hd : s.data.isSome = true
          · simp only [hd, if_true]
            rfl
          · by_cases ht : s.text.isSome = true
            · simp only [hd, ht, if_true]
              rfl
            · simp only [hd, ht, Bool.false_eq_true, if_false, stepShifted, openData_shift k (Option.not_isSome_iff_eq_none.mp ht)]
              rfl
        case some.text =>
          by_cases ht : s.text.isSome = true
          · simp only [ht, if_true]
            rfl
          · simp only [ht, Bool.false_eq_true, if_false, stepShifted, openText_shift k i (Option.not_isSome_iff_eq_none.mp ht)]
            rfl
      all_goals rfl

theorem setOrg_shift : setOrg (s.shift k) (shiftIndex k i) (l.renumber (shiftNumber k)) = stepShifted k (setOrg s i l) := by
  have hstatement : (l.renumber (shiftNumber k)).statement = l.statement := rfl
  have horg : orgAddress (l.renumber (shiftNumber k)) = orgAddress l := rfl
  have hstage : (s.shift k).stage = s.stage.renumber (shiftNumber k) := rfl
  unfold setOrg
  simp only [hstatement, horg, hstage]
  rcases s.stage with _ | ⟨kind, line⟩ | _
  · rfl
  · simp only [Stage.renumber]
    by_cases hlabel : l.statement.label ≠ []
    · rw [if_pos hlabel, if_pos hlabel]
      rfl
    · rw [if_neg hlabel, if_neg hlabel]
      rcases orgAddress l with e | ⟨written, rounded⟩
      · rfl
      · have hroundings : (if written = rounded then (s.shift k).roundings
              else (s.shift k).roundings ++ [⟨shiftNumber k l.number, written, rounded⟩]) =
            (if written = rounded then s.roundings else s.roundings ++ [⟨l.number, written, rounded⟩]).map
              (Rounding.renumber (shiftNumber k)) := by
          by_cases he : written = rounded
          · rw [if_pos he, if_pos he]
            rfl
          · rw [if_neg he, if_neg he, List.map_append]
            rfl
        cases kind with
        | data =>
          simp only [stepShifted, baseData_shift, ← hroundings]
          rfl
        | text =>
          simp only [stepShifted, baseText_shift, ← hroundings]
          rfl
  · rfl

theorem step_shift : step (s.shift k) (shiftIndex k i) (l.renumber (shiftNumber k)) = stepShifted k (step s i l) := by
  have hdirective : (l.renumber (shiftNumber k)).directive? = l.directive? := rfl
  have hordinary : step.ordinary (s.shift k) (l.renumber (shiftNumber k)) = stepShifted k (step.ordinary s l) := by
    have hstage : (s.shift k).stage = s.stage.renumber (shiftNumber k) := rfl
    unfold step.ordinary
    rw [hstage]
    rcases hs : s.stage with _ | ⟨kind, line⟩ | _
    · rfl
    · rfl
    · rfl
  unfold step
  rw [hdirective]
  cases l.directive? with
  | none => exact hordinary
  | some name =>
    simp only [openSection_shift, setOrg_shift, hordinary, apply_ite (stepShifted k)]

theorem scan_shift (k : Nat) (s : Scan) (i j : Nat) (ls : List Line) (h : ∀ m < ls.length, shiftIndex k (i + m) = j + m) :
    scan (s.shift k) j (ls.map (Line.renumber (shiftNumber k))) =
      ((scan s i ls).1.shift k, (scan s i ls).2.map (SectionFault.renumber (shiftNumber k))) := by
  induction ls generalizing s i j with
  | nil => rfl
  | cons l ls ih =>
    have hfirst : shiftIndex k i = j := h 0 (by simp)
    have hrest : ∀ m < ls.length, shiftIndex k (i + 1 + m) = j + 1 + m := by
      intro m hm
      have := h (m + 1) (by simpa using hm)
      rw [show i + 1 + m = i + (m + 1) by omega, this]
      omega
    simp only [List.map_cons, scan]
    rw [Line.isBlank_renumber]
    by_cases hb : l.isBlank = true
    · rw [if_pos hb, if_pos hb]
      exact ih s _ _ hrest
    · rw [if_neg hb, if_neg hb, ← hfirst, step_shift]
      cases step s i l with
      | error e => rfl
      | ok s' =>
        rw [hfirst]
        exact ih s' _ _ hrest

theorem finish_shift {k : Nat} (s : Scan) {count : Nat} (h : k ≤ count) :
    finish (s.shift k) (count + 1) =
      ((finish s count).map (Sections.shift k)).mapError (SectionFault.renumber (shiftNumber k)) := by
  have hcount : shiftIndex k count = count + 1 := shiftIndex_of_le h
  rcases s with ⟨_ | ⟨kind, line⟩ | _, data, _ | text, roundings⟩
  · simp [finish, Scan.shift, Stage.renumber, Except.map, Except.mapError, SectionFault.renumber]
  · simp [finish, Scan.shift, Stage.renumber, Except.map, Except.mapError, Sections.shift, Region.shift, Scan.shiftStart, hcount]
  · rfl
  · rfl
  · simp [finish, Scan.shift, Stage.renumber, Except.map, Except.mapError, SectionFault.renumber]
  · simp [finish, Scan.shift, Stage.renumber, Except.map, Except.mapError, Sections.shift, Region.shift, Scan.shiftStart, hcount]

theorem scan_insert (before after : List Line) {l : Line} (hl : l.isBlank = true) :
    scan {} 0 (insertLine before l after) =
      ((scan {} 0 (before ++ after)).1.shift before.length,
        (scan {} 0 (before ++ after)).2.map (SectionFault.renumber (shiftNumber before.length))) := by
  have hbefore := scan_shift before.length {} 0 0 before fun m hm => by
    rw [shiftIndex, if_pos (by omega)]
  have hstart : Scan.shift before.length {} = {} := rfl
  rw [hstart] at hbefore
  rw [insertLine, scan_append, scan_append, hbefore, List.length_map]
  rcases scan {} 0 before with ⟨s, _ | e⟩
  · -- from here on the indices are one ahead
    have hafter := scan_shift before.length s (0 + before.length) (0 + before.length + 1) after fun m _ => by
      rw [shiftIndex_of_le (by omega)]
      omega
    simp only [Option.map_none, scan, hl, if_true]
    exact hafter
  · rfl

/-- A blank line put in leaves the sections where they were among the other lines. -/
theorem ofLines_insert (before after : List Line) {l : Line} (hl : l.isBlank = true) :
    ofLines (insertLine before l after) =
      ((ofLines (before ++ after)).1.map (Rounding.renumber (shiftNumber before.length)),
        ((ofLines (before ++ after)).2.map (Sections.shift before.length)).mapError
          (SectionFault.renumber (shiftNumber before.length))) := by
  have hle : before.length ≤ (before ++ after).length := by
    rw [List.length_append]
    omega
  unfold ofLines
  rw [scan_insert before after hl, insertLine_length]
  rcases scan {} 0 (before ++ after) with ⟨s, _ | e⟩
  · simp only [Option.map_none, finish_shift s hle]
    rfl
  · rfl

end Sections

/-! ## Lines of a region -/

theorem filter_insert (before after : List Line) {l : Line} (hl : l.isBlank = true) :
    (before ++ l :: after).filter (!·.isBlank) = (before ++ after).filter (!·.isBlank) := by
  simp [hl]

/-- A region has the lines that it had, but for blank ones. -/
theorem Region.lines_insert (r : Region) (before after : List Line) {l : Line} (hl : l.isBlank = true) :
    ((r.shift before.length).lines (before ++ l :: after)).filter (!·.isBlank) =
      (r.lines (before ++ after)).filter (!·.isBlank) := by
  obtain ⟨base, start, stop⟩ := r
  show (((before ++ l :: after).take (shiftIndex before.length stop)).drop (shiftNumber before.length start)).filter _ =
    (((before ++ after).take stop).drop start).filter _
  by_cases hstop : stop < before.length
  · -- the line is put in behind the region
    rw [shiftIndex, if_pos hstop, List.take_append_of_le_length (by omega), List.take_append_of_le_length (by omega)]
    by_cases hstart : start ≤ before.length
    · rw [shiftNumber, if_pos hstart]
    · rw [shiftNumber, if_neg hstart, List.drop_eq_nil_of_le, List.drop_eq_nil_of_le]
      · rw [List.length_take]
        omega
      · rw [List.length_take]
        omega
  · obtain ⟨m, rfl⟩ := Nat.exists_eq_add_of_le (Nat.le_of_not_lt hstop)
    rw [shiftIndex_of_le (by omega), Nat.add_assoc, List.take_length_add_append, List.take_length_add_append,
      List.take_succ_cons]
    by_cases hstart : start ≤ before.length
    · rw [shiftNumber, if_pos hstart, List.drop_append_of_le_length hstart, List.drop_append_of_le_length hstart,
        filter_insert _ _ hl]
    · obtain ⟨j, rfl⟩ := Nat.exists_eq_add_of_le (Nat.le_of_not_le hstart)
      rw [shiftNumber, if_neg hstart, Nat.add_assoc, List.drop_length_add_append, List.drop_length_add_append,
        List.drop_succ_cons]

theorem Region.lines_map (r : Region) (f : Nat → Nat) (ls : List Line) :
    r.lines (ls.map (Line.renumber f)) = (r.lines ls).map (Line.renumber f) := by
  rw [lines, lines, List.map_drop, List.map_take]

/-! ## The stages -/

theorem buildData_filter (d : DataSegment) {ls : List Line} (h : ∀ l ∈ ls, l.isBlank = true → l.fault = none) :
    buildData d (ls.filter (!·.isBlank)) = buildData d ls := by
  induction ls generalizing d with
  | nil => rfl
  | cons l ls ih =>
    rw [List.forall_mem_cons] at h
    by_cases hb : l.isBlank = true
    · have hline : d.line l = (d, none) := if_pos hb
      rw [List.filter_cons_of_neg (by simp [hb]), ih d h.2, buildData, h.1 hb, hline]
    · rw [List.filter_cons_of_pos (by simp [hb]), buildData, buildData]
      simp only [ih _ h.2]

theorem Layout.place_filter (y : Layout) (ls : List Line) : y.place (ls.filter (!·.isBlank)) = y.place ls := by
  induction ls generalizing y with
  | nil => rfl
  | cons l ls ih =>
    by_cases hb : l.isBlank = true
    · have hstep : y.step l = .ok y := if_pos hb
      rw [List.filter_cons_of_neg (by simp [hb]), ih, place, hstep]
    · rw [List.filter_cons_of_pos (by simp [hb]), place, place]
      simp only [ih]

theorem dataStage_eq_bind {ls : List Line} {sections : Sections} {region : Region} (h : sections.data = some region) :
    dataStage ls sections = (buildData (.start region.base .empty) (region.lines ls)).bind fun d => .ok (some d) := by
  unfold dataStage
  simp only [h]
  cases buildData (.start region.base .empty) (region.lines ls) with
  | error halt => rfl
  | ok d => rfl

/-- `ls'` are the lines `ls` with a blank one put in behind `k` of them, as the stages of a run see it. -/
structure LineInserted (k : Nat) (ls ls' : List Line) : Prop where
  length : ls'.length = ls.length + 1
  sections : Sections.ofLines ls' =
    ((Sections.ofLines ls).1.map (Rounding.renumber (shiftNumber k)),
      ((Sections.ofLines ls).2.map (Sections.shift k)).mapError (SectionFault.renumber (shiftNumber k)))
  lines (r : Region) : ((r.shift k).lines ls').filter (!·.isBlank) =
    ((r.lines ls).filter (!·.isBlank)).map (Line.renumber (shiftNumber k))
  fault : ∀ l ∈ ls, l.isBlank = true → l.fault = none
  fault' : ∀ l ∈ ls', l.isBlank = true → l.fault = none

theorem lineInserted_of_rawLines {source source' raw : Text} {before after : List Text}
    (h : Line.rawLines source = before ++ after) (h' : Line.rawLines source' = before ++ raw :: after)
    (hraw : Source.HoldsNoCode raw) :
    LineInserted before.length (Line.ofSource source) (Line.ofSource source') := by
  obtain ⟨hsource, hsource'⟩ := ofSource_insertLine h h'
  have hblank : (Line.ofRaw (before.length + 1) raw).isBlank = true := Line.ofRaw_of_holdsNoCode hraw _
  refine ⟨?_, ?_, ?_, Line.numbered_fault_of_isBlank, Line.numbered_fault_of_isBlank⟩
  · rw [hsource, hsource', insertLine_length]
  · have hsections := Sections.ofLines_insert (Line.numbered 1 before) (Line.numbered (before.length + 1) after) hblank
    rw [Line.numbered_length] at hsections
    rw [hsource, hsource', hsections]
  · intro r
    have hlines := r.lines_insert ((Line.numbered 1 before).map (Line.renumber (shiftNumber before.length)))
      ((Line.numbered (before.length + 1) after).map (Line.renumber (shiftNumber before.length))) hblank
    rw [List.length_map, Line.numbered_length, ← List.map_append, Region.lines_map, List.filter_map] at hlines
    rw [hsource, hsource', insertLine, Line.numbered_length, hlines]
    rfl

namespace LineInserted

variable {k : Nat} {ls ls' : List Line} (h : LineInserted k ls ls')

include h

theorem buildData_insert (base : Word) (r : Region) :
    SideBySide (shiftNumber k) (fun d d' => d' = d.renumber (shiftNumber k))
      (buildData (.start base .empty) (r.lines ls)) (buildData (.start base .empty) ((r.shift k).lines ls')) := by
  have key := buildData_renumber (shiftNumber k) (.start base .empty) ((r.lines ls).filter (!·.isBlank))
  rw [← h.lines, buildData_filter _ fun l hl => h.fault l ((r.lines_sublist ls).subset hl),
    buildData_filter _ fun l hl => h.fault' l (((r.shift k).lines_sublist ls').subset hl)] at key
  exact key

theorem dataStage_insert (sections : Sections) :
    SideBySide (shiftNumber k) (fun d d' => d' = d.map (DataSegment.renumber (shiftNumber k)))
      (dataStage ls sections) (dataStage ls' (sections.shift k)) := by
  obtain ⟨data, text⟩ := sections
  cases data with
  | none => exact .ok rfl
  | some region =>
    rw [dataStage_eq_bind rfl, dataStage_eq_bind rfl]
    exact (h.buildData_insert region.base region).bind fun d d' hd => .ok (congrArg some hd)

theorem layoutStage_insert (sections : Sections) (data : Option DataSegment) :
    layoutStage ls' (sections.shift k) (data.map (DataSegment.renumber (shiftNumber k))) =
      ((layoutStage ls sections data).1.renumber (shiftNumber k),
        (layoutStage ls sections data).2.map (LayoutFault.renumber (shiftNumber k))) := by
  have hlabels : dataLabels (data.map (DataSegment.renumber (shiftNumber k))) =
      (dataLabels data).renumber (shiftNumber k) := by
    cases data with
    | none => rfl
    | some d => rfl
  have hplace := Layout.place_renumber (shiftNumber k) { pc := sections.text.base.toNat, symbols := dataLabels data }
    ((sections.text.lines ls).filter (!·.isBlank))
  rw [← h.lines, Layout.place_filter, Layout.place_filter] at hplace
  unfold layoutStage Layout.ofLines
  rw [hlabels]
  exact hplace

end LineInserted

namespace Stages

def shift (k : Nat) (s : Stages) : Stages where
  sections := s.sections.shift k
  data := s.data.map (DataSegment.renumber (shiftNumber k))
  layout := s.layout.renumber (shiftNumber k)

theorem ofSource_eq_bind {source : Text} {sections : Sections}
    (h : (Sections.ofLines (Line.ofSource source)).2 = .ok sections) :
    ofSource source = (dataStage (Line.ofSource source) sections).bind fun data =>
      match layoutStage (Line.ofSource source) sections data with
      | (_, some fault) => .error fault.ending
      | (layout, none) => .ok ⟨sections, data, layout⟩ := by
  unfold ofSource
  simp only [h]
  cases dataStage (Line.ofSource source) sections with
  | error halt => rfl
  | ok data => rfl

/-- The stages of the two runs go side by side. -/
theorem ofSource_insert {k : Nat} {source source' : Text}
    (h : LineInserted k (Line.ofSource source) (Line.ofSource source')) :
    SideBySide (shiftNumber k) (fun s s' => s' = s.shift k) (ofSource source) (ofSource source') := by
  have hsections' := congrArg Prod.snd h.sections
  cases hsections : (Sections.ofLines (Line.ofSource source)).2 with
  | error e =>
    rw [hsections] at hsections'
    rw [ofSource_error_iff.mpr (Or.inl ⟨e, hsections, rfl⟩), ofSource_error_iff.mpr (Or.inl ⟨_, hsections', rfl⟩)]
    exact .fatal _ _ _
  | ok sections =>
    rw [hsections] at hsections'
    rw [ofSource_eq_bind hsections, ofSource_eq_bind hsections']
    refine (h.dataStage_insert sections).bind fun data data' hdata => ?_
    rw [hdata, h.layoutStage_insert]
    rcases layoutStage (Line.ofSource source) sections data with ⟨layout, _ | fault⟩
    · exact .ok rfl
    · exact fault.ending_renumber _ _

variable (k : Nat) (s : Stages) (o : Options)

theorem expandAll_shift :
    Relocation.expandAll (s.shift k).layout.symbols {} (s.shift k).layout.placements =
      (Relocation.expandAll s.layout.symbols {} s.layout.placements).map (List.map (Placement.renumber (shiftNumber k)))
        (Relocation.Memory.renumber (shiftNumber k)) :=
  Relocation.expandAll_renumber (shiftNumber k) s.layout.symbols {} s.layout.placements

theorem attempts_shift : (s.shift k).attempts o = (s.attempts o).map (Attempt.renumber (shiftNumber k)) := by
  rw [attempts, attempts, expanded, expanded, expandAll_shift, List.map_map]
  show List.map _ (List.map _ _) = _
  rw [List.map_map]
  exact List.map_congr_left fun p _ => attempt_renumber (shiftNumber k) o s.layout.symbols p

theorem errors_shift : (s.shift k).errors o = (s.errors o).map (Diagnostic.renumber (shiftNumber k)) := by
  rw [errors, errors, attempts_shift, List.filterMap_map, List.map_filterMap]
  exact List.filterMap_congr fun a _ => a.error?_renumber (shiftNumber k)

theorem words_shift : (s.shift k).words o = s.words o := by
  rw [words, words, attempts_shift, List.flatMap_map]
  rfl

theorem rows_shift : ((s.shift k).attempts o).flatMap Attempt.rows = (s.attempts o).flatMap Attempt.rows := by
  rw [attempts_shift, List.flatMap_map]
  rfl

theorem dataImage_shift : dataImage (s.shift k).sections (s.shift k).data = dataImage s.sections s.data := by
  obtain ⟨⟨region, text⟩, data, layout⟩ := s
  cases region with
  | none => rfl
  | some region =>
    cases data with
    | none => rfl
    | some d => rfl

variable {k} in
theorem warnings_shift {source source' : Text} (h : LineInserted k (Line.ofSource source) (Line.ofSource source')) :
    (s.shift k).warnings source' = (s.warnings source).map (Diagnostic.renumber (shiftNumber k)) := by
  have horg : orgWarnings source' = (orgWarnings source).map (Diagnostic.renumber (shiftNumber k)) := by
    rw [orgWarnings, orgWarnings, h.sections, List.map_map, List.map_map]
    rfl
  rw [warnings, warnings, expandAll_shift, horg, List.map_append, List.map_append, List.map_map, List.map_map]
  simp only [shift, Layout.renumber, Relocation.Memory.renumber, Prod.map_snd, List.map_map]
  rfl

end Stages

/-! ## The result -/

/-- The same result with the numbers behind line `k` pushed on by one. -/
structure Result.Shifted (k : Nat) (r r' : Result) : Prop where
  text : r'.text = r.text
  data : r'.data = r.data
  sections : r'.sections = r.sections.shift k
  symbols : r'.symbols = r.symbols.renumber (shiftNumber k)
  warnings : r'.warnings = r.warnings.map (Diagnostic.renumber (shiftNumber k))
  errors : r'.errors = r.errors.map (Diagnostic.renumber (shiftNumber k))
  listing : r'.listing = r.listing
  lines : r'.lines = r.lines + 1
  instructions : r'.instructions = r.instructions
  relocations : r'.relocations = r.relocations
  failed : r'.failed = r.failed

theorem Stages.result_shift {k : Nat} {source source' : Text}
    (h : LineInserted k (Line.ofSource source) (Line.ofSource source')) (s : Stages) (o : Options) :
    (s.result o source).Shifted k ((s.shift k).result o source') := by
  have hempty : ((s.shift k).errors o).isEmpty = (s.errors o).isEmpty := by rw [errors_shift, List.isEmpty_map]
  constructor
  · simp only [result, hempty, words_shift]
    rfl
  · simp only [result, hempty, dataImage_shift]
  · rfl
  · rfl
  · exact s.warnings_shift h
  · exact s.errors_shift k o
  · simp only [result, rows_shift]
  · exact h.length
  · exact List.length_map _
  · simp only [result, expandAll_shift]
    rfl
  · show ((s.shift k).errors o).length = (s.errors o).length
    rw [errors_shift, List.length_map]

/-- A line of blanks, with or without a comment, may be put in behind any `before`: the run ends as it did, and its
result is the same but for the numbers of the lines behind. -/
theorem blank_line_neutral (o : Options) (source source' raw : Text) (before after : List Text)
    (h : Line.rawLines source = before ++ after) (h' : Line.rawLines source' = before ++ raw :: after)
    (hraw : Source.HoldsNoCode raw) :
    SideBySide (shiftNumber before.length) (Result.Shifted before.length) (assemble o source).outcome
      (assemble o source').outcome := by
  have hinserted := lineInserted_of_rawLines h h' hraw
  rw [assemble_eq, assemble_eq]
  refine (Stages.ofSource_insert hinserted).bind fun s s' hs => ?_
  rw [hs]
  exact .ok (s.result_shift hinserted o)

/-- A base that is rounded up, and a label. -/
def labelRows : List Text := [".section .data", ".org 0x2", "v: .byte 1", "w:"]

/-- The directive of the label, and an instruction in error. -/
def alignedRows : List Text := [".p2align 2", ".word 7", ".section .text", ".org 0x0", "lw a0"]

def commentRow : Text := " \t# aligned"

/-- A comment between the two keeps the label waiting for its directive. -/
theorem blank_line_neutral_pending :
    ∃ r r', (assemble {} (Text.unlines (labelRows ++ alignedRows))).outcome = .ok r ∧
      (assemble {} (Text.unlines (labelRows ++ commentRow :: alignedRows))).outcome = .ok r' ∧
      r.errors.map Diagnostic.line = [9] ∧ r'.errors.map Diagnostic.line = [10] ∧ Result.Shifted 4 r r' := by
  have run : ((assemble {} (Text.unlines (labelRows ++ alignedRows))).outcome.toOption.map
      (·.errors.map Diagnostic.line)) = some [9] := by decide +kernel
  have hcomment : Source.HoldsNoCode commentRow :=
    ⟨" \t", "# aligned", by decide +kernel, by decide +kernel, Or.inr ⟨" aligned", by decide +kernel⟩⟩
  have neutral := blank_line_neutral {} (Text.unlines (labelRows ++ alignedRows))
    (Text.unlines (labelRows ++ commentRow :: alignedRows)) commentRow labelRows alignedRows (by decide +kernel)
    (by decide +kernel) hcomment
  obtain ⟨r, hr, he⟩ := Option.map_eq_some_iff.mp run
  rw [Source.toOption_eq_some hr] at neutral
  generalize hr' : (assemble {} (Text.unlines (labelRows ++ commentRow :: alignedRows))).outcome = outcome at neutral
  cases neutral with
  | @ok _ r' shifted =>
    refine ⟨r, r', Source.toOption_eq_some hr, rfl, he, ?_, shifted⟩
    have hlines : r'.errors.map Diagnostic.line = (r.errors.map Diagnostic.line).map (shiftNumber 4) := by
      rw [shifted.errors, List.map_map, List.map_map]
      rfl
    rw [hlines, he]
    decide

end Assembly

end Rv32Tools
