import Rv32Tools.Assembly.Run
import Rv32Tools.Proofs.Assembly.Sections

/-
  Rv32Tools.Proofs.Assembly.Stages — a run as the stages it goes through.

  `Stages` is what a run has in hand before it encodes: the sections of its source, the data segment if there is
  one, and the layout of the text segment. `Stages.ofSource` finds them or halts, and `assemble_outcome` gives the
  outcome of a run in their terms: it halts where they do, it aborts if an instruction has nothing to encode, and
  otherwise its result is `Stages.result`.
-/

namespace Rv32Tools.Assembly

open Source (Line)

/-- The data segment of a source, if it has one. -/
def dataStage (ls : List Line) (sections : Sections) : Except (Halt Diagnostic) (Option DataSegment) :=
  match sections.data with
  | none => .ok none
  | some region =>
    match buildData (.start region.base .empty) (region.lines ls) with
    | .error halt => .error halt
    | .ok d => .ok (some d)

theorem buildData_of_dataStage {ls : List Line} {sections : Sections} {region : Region} {data : Option DataSegment}
    (h : dataStage ls sections = .ok data) (hr : sections.data = some region) :
    ∃ d, data = some d ∧ buildData (.start region.base .empty) (region.lines ls) = .ok d := by
  unfold dataStage at h
  rw [hr] at h
  simp only at h
  split at h
  · cases h
  · rename_i d hd
    cases h
    exact ⟨d, rfl, hd⟩

/-- Lines behind the data segment have no part in it. -/
theorem dataStage_append {ls ls' : List Line} {sections : Sections}
    (h : ∀ r, sections.data = some r → r.stop ≤ ls.length) : dataStage (ls ++ ls') sections = dataStage ls sections := by
  unfold dataStage
  cases hr : sections.data with
  | none => rfl
  | some region => simp only [Region.lines_of_stop_le (h region hr)]

/-- The labels that are there when the text segment is laid out. -/
def dataLabels : Option DataSegment → SymbolTable
  | none => .empty
  | some d => d.symbols

/-- The image of the data segment. -/
def dataImage (sections : Sections) (data : Option DataSegment) : Option Image :=
  match sections.data, data with
  | some region, some d => some (.ofData region.base d.payload)
  | _, _ => none

/-- The text segment of a source laid out, after its data segment. -/
def layoutStage (ls : List Line) (sections : Sections) (data : Option DataSegment) : Layout × Option LayoutFault :=
  Layout.ofLines sections.text.base (dataLabels data) (sections.text.lines ls)

/-- How a layout that stopped ends the run. -/
def LayoutFault.ending : LayoutFault → Halt Diagnostic
  | ⟨_, .abort a⟩ => .abort a
  | ⟨line, .error e⟩ => .error ⟨.fatal, line, e.message⟩

/-- The warnings about base addresses that were rounded up. -/
def orgWarnings (source : Text) : List Diagnostic :=
  (Sections.ofLines (Line.ofSource source)).1.map fun r => warn r.line r.message

structure Stages where
  sections : Sections
  data : Option DataSegment
  layout : Layout

namespace Stages

def ofSource (source : Text) : Except (Halt Diagnostic) Stages :=
  let ls := Line.ofSource source
  match (Sections.ofLines ls).2 with
  | .error e => .error (.error ⟨.fatal, e.line, e.error.message⟩)
  | .ok sections =>
    match dataStage ls sections with
    | .error halt => .error halt
    | .ok data =>
      match layoutStage ls sections data with
      | (_, some fault) => .error fault.ending
      | (layout, none) => .ok ⟨sections, data, layout⟩

variable (s : Stages) (o : Options) (source : Text)

/-- The placed lines with their relocation calls replaced. -/
def expanded : List Placement := (Relocation.expandAll s.layout.symbols {} s.layout.placements).1

/-- The placed lines encoded. -/
def attempts : List Attempt := s.expanded.map (attempt o s.layout.symbols)

def errors : List Diagnostic := (s.attempts o).filterMap Attempt.error?

/-- The machine words of all lines, in order. -/
def words : List Word := (s.attempts o).flatMap Attempt.words

def warnings : List Diagnostic :=
  orgWarnings source ++ (s.layout.ignored.map fun i => warn i.line i.message) ++
    (Relocation.expandAll s.layout.symbols {} s.layout.placements).2.unanchored.map fun u =>
      warn u.1 (Relocation.unanchoredMessage u.2)

/-- What a run that comes to its end gives. -/
def result : Result where
  text := if (s.errors o).isEmpty then some (.ofText s.sections.text.base (s.words o)) else none
  data := if (s.errors o).isEmpty then dataImage s.sections s.data else none
  sections := s.sections
  symbols := s.layout.symbols
  warnings := s.warnings source
  errors := s.errors o
  listing := if o.listing then (s.attempts o).flatMap Attempt.rows else []
  lines := (Line.ofSource source).length
  instructions := s.layout.placements.length
  relocations := (Relocation.expandAll s.layout.symbols {} s.layout.placements).2.replaced

theorem result_data (h : s.errors o = []) : (s.result o source).data = dataImage s.sections s.data := by
  simp only [result, h, List.isEmpty_nil, if_true]

def outcome : Except (Halt Diagnostic) Result :=
  match (s.attempts o).findSome? Attempt.abort? with
  | some a => .error (.abort a)
  | none => .ok (s.result o source)

theorem ofSource_ok {s : Stages} {source : Text} (h : ofSource source = .ok s) :
    (Sections.ofLines (Line.ofSource source)).2 = .ok s.sections ∧
      dataStage (Line.ofSource source) s.sections = .ok s.data ∧
      layoutStage (Line.ofSource source) s.sections s.data = (s.layout, none) := by
  unfold ofSource at h
  simp only at h
  split at h
  · cases h
  · rename_i sections hs
    split at h
    · cases h
    · rename_i data hd
      split at h
      · cases h
      · rename_i layout hy
        cases h
        exact ⟨hs, hd, hy⟩

/-- Stages that are not found end at one of three places. -/
theorem ofSource_error_iff {source : Text} {halt : Halt Diagnostic} :
    ofSource source = .error halt ↔
      (∃ e, (Sections.ofLines (Line.ofSource source)).2 = .error e ∧
        halt = .error ⟨.fatal, e.line, e.error.message⟩) ∨
      ∃ sections, (Sections.ofLines (Line.ofSource source)).2 = .ok sections ∧
        (dataStage (Line.ofSource source) sections = .error halt ∨
          ∃ data fault, dataStage (Line.ofSource source) sections = .ok data ∧
            (layoutStage (Line.ofSource source) sections data).2 = some fault ∧ halt = fault.ending) := by
  cases hs : (Sections.ofLines (Line.ofSource source)).2 with
  | error e => simp [ofSource, hs, eq_comm]
  | ok sections =>
    cases hd : dataStage (Line.ofSource source) sections with
    | error halt' => simp [ofSource, hs, hd]
    | ok data =>
      rcases hy : layoutStage (Line.ofSource source) sections data with ⟨layout, _ | fault⟩
      · simp [ofSource, hs, hd, hy]
      · simp [ofSource, hs, hd, hy, eq_comm]

end Stages

theorem assembleText_outcome (o : Options) (source : Text) (sections : Sections) (data : Option DataSegment)
    (journal : List Event) :
    (assembleText o (Line.ofSource source) sections (dataImage sections data) (dataLabels data) journal
      (orgWarnings source)).outcome =
      match layoutStage (Line.ofSource source) sections data with
      | (_, some fault) => .error fault.ending
      | (layout, none) => Stages.outcome ⟨sections, data, layout⟩ o source := by
  unfold assembleText layoutStage
  rcases Layout.ofLines sections.text.base (dataLabels data) (sections.text.lines (Line.ofSource source)) with
    ⟨layout, _ | ⟨line, _ | _⟩⟩
  · simp only [Stages.outcome, Stages.attempts, Stages.expanded]
    cases List.findSome? Attempt.abort?
      ((Relocation.expandAll layout.symbols {} layout.placements).1.map (attempt o layout.symbols)) with
    | some a => rfl
    | none => rfl
  · rfl
  · rfl

theorem assembleText_journal (o : Options) (ls : List Line) (sections : Sections) (image : Option Image)
    (symbols : SymbolTable) (journal : List Event) (warnings : List Diagnostic) :
    journal <+: (assembleText o ls sections image symbols journal warnings).journal := by
  unfold assembleText
  rcases Layout.ofLines sections.text.base symbols (sections.text.lines ls) with ⟨layout, _ | ⟨line, _ | _⟩⟩
  · simp only
    split
    · exact (List.prefix_append _ _).trans (List.prefix_append _ _)
    · exact ((List.prefix_append _ _).trans (List.prefix_append _ _)).trans (List.prefix_append _ _)
  · exact List.prefix_append _ _
  · exact List.prefix_append _ _

/-- A run tells how many bytes its data segment has. -/
theorem dataLaidOut_mem {o : Options} {source : Text} {sections : Sections} {region : Region} {d : DataSegment}
    (hs : (Sections.ofLines (Line.ofSource source)).2 = .ok sections) (hr : sections.data = some region)
    (hd : dataStage (Line.ofSource source) sections = .ok (some d)) :
    .dataLaidOut d.bytes.length ∈ (assemble o source).journal := by
  rcases hsec : Sections.ofLines (Line.ofSource source) with ⟨roundings, sections?⟩
  rw [hsec] at hs
  simp only at hs
  subst hs
  obtain ⟨_, hsome, hb⟩ := buildData_of_dataStage hd hr
  cases hsome
  unfold assemble
  simp only [hsec, hr, hb]
  exact (assembleText_journal ..).subset (List.mem_append_right _ List.mem_cons_self)

theorem assemble_outcome (o : Options) (source : Text) :
    (assemble o source).outcome =
      match Stages.ofSource source with
      | .error halt => .error halt
      | .ok s => s.outcome o source := by
  unfold assemble Stages.ofSource
  rcases hs : Sections.ofLines (Line.ofSource source) with ⟨roundings, sections | sections⟩
  · simp only [hs]
  · have hw : (roundings.map fun r => warn r.line r.message) = orgWarnings source := by rw [orgWarnings, hs]
    simp only [hs, hw, dataStage]
    cases hd : sections.data with
    | none =>
      have key := assembleText_outcome o source sections none
      simp only [dataImage, hd, dataLabels] at key
      simp only [key]
      split <;> simp only
    | some region =>
      simp only
      cases hb : buildData (.start region.base .empty) (region.lines (Line.ofSource source)) with
      | error halt => simp only
      | ok d =>
        have key := assembleText_outcome o source sections (some d)
        simp only [dataImage, hd, dataLabels] at key
        simp only [key]
        split <;> simp only

end Rv32Tools.Assembly
