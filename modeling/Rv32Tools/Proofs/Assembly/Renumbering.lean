import Rv32Tools.Proofs.Assembly.PositionIndependence

/-
  Rv32Tools.Proofs.Assembly.Renumbering — lines with other numbers come to the same words.

  Two lines are alike if they have the same text and the same fault. What follows from a line hangs on no more than
  that, so two runs over alike lines go side by side:
  - the segments lie where they lie (`Sections.ofLines_ordinary`), as only `.section` and `.org` lines tell where;
  - the layouts have the same addresses and the same labels (`Layout.place_alike`);
  - the relocation calls give way to the same numbers (`Relocation.expandAll_alike`). Here the runs need not remember
    the same anchors, but only those that a `%pcrel_lo` still asks for;
  - the lines come to the same instructions (`encoded_alike`).
-/

namespace Rv32Tools

namespace Source.Line

/-- Two lines with the same code. -/
structure Alike (l l' : Line) : Prop where
  text : l.text = l'.text
  fault : l.fault = l'.fault

theorem Alike.refl (l : Line) : Alike l l := ⟨rfl, rfl⟩

theorem Alike.statement {l l' : Line} (h : Alike l l') : l.statement = l'.statement := by
  rw [Line.statement, Line.statement, h.text]

theorem Alike.isOrdinary {l l' : Line} (h : Alike l l') : l.isOrdinary = l'.isOrdinary := by
  rw [Line.isOrdinary, Line.isOrdinary, directive?, directive?, h.statement]

theorem ordinary_alike {ls ls' : List Line} (h : List.Forall₂ Alike ls ls') (ho : ∀ l ∈ ls, l.isOrdinary = true) :
    ∀ l ∈ ls', l.isOrdinary = true := by
  induction h with
  | nil => exact ho
  | cons hl _ ih =>
    rw [List.forall_mem_cons] at ho ⊢
    exact ⟨hl.isOrdinary ▸ ho.1, ih ho.2⟩

theorem ofRaw_alike (n n' : Nat) (raw : Text) : Alike (ofRaw n raw) (ofRaw n' raw) := by
  unfold ofRaw
  simp only
  repeat' split
  all_goals exact ⟨rfl, rfl⟩

theorem numbered_alike (n n' : Nat) (raws : List Text) : List.Forall₂ Alike (numbered n raws) (numbered n' raws) := by
  induction raws generalizing n n' with
  | nil => exact .nil
  | cons raw raws ih => exact .cons (ofRaw_alike n n' raw) (ih _ _)

end Source.Line

namespace Assembly

open Source (Line)

/-! ## Labels -/

/-- All of a label but the line that defines it. -/
def Symbol.spot (s : Symbol) : Text × Word × Segment := (s.name, s.address, s.segment)

theorem Symbol.spot_eq_iff {s s' : Symbol} :
    s.spot = s'.spot ↔ s.name = s'.name ∧ s.address = s'.address ∧ s.segment = s'.segment := by
  simp only [spot, Prod.mk.injEq]

/-- Two tables with the same labels, in the same order. -/
def SymbolTable.Alike (t t' : SymbolTable) : Prop := t.entries.map Symbol.spot = t'.entries.map Symbol.spot

namespace SymbolTable

variable {t t' : SymbolTable} (h : t.Alike t')

include h

theorem find?_alike (name : Text) : (t.find? name).map Symbol.spot = (t'.find? name).map Symbol.spot := by
  have spots : ∀ t : SymbolTable, (t.find? name).map Symbol.spot = (t.entries.map Symbol.spot).find? (·.1 == name) := by
    intro t
    rw [List.find?_map]
    rfl
  rw [spots, spots, h]

theorem define_alike {s s' : Symbol} (hs : s.spot = s'.spot) {u : SymbolTable} (hu : t.define s = .ok u) :
    ∃ u', t'.define s' = .ok u' ∧ u.Alike u' := by
  obtain ⟨hname, hnone, rfl⟩ := define_eq_ok_iff.mp hu
  have hname' := (Symbol.spot_eq_iff.mp hs).1
  have hnone' : t'.find? s'.name = none := by
    have hfind := find?_alike h s.name
    rw [hnone, Option.map_none, eq_comm, Option.map_eq_none_iff] at hfind
    rw [← hname', hfind]
  refine ⟨_, define_eq_ok_iff.mpr ⟨hname' ▸ hname, hnone', rfl⟩, ?_⟩
  show (t.entries ++ [s]).map Symbol.spot = (t'.entries ++ [s']).map Symbol.spot
  rw [List.map_append, List.map_append, h, List.map_singleton, List.map_singleton, hs]

/-- An operand is the same number, or a label in the same spot, or nothing. -/
theorem resolve_alike (token : Text) :
    Operand.resolve t token = Operand.resolve t' token ∨
      ∃ s s', Operand.resolve t token = .label s ∧ Operand.resolve t' token = .label s' ∧ s.spot = s'.spot := by
  have hfind := find?_alike h token
  unfold Operand.resolve
  cases Source.number? token with
  | some v => exact Or.inl rfl
  | none =>
    cases hs : t.find? token with
    | none =>
      rw [hs, Option.map_none, eq_comm, Option.map_eq_none_iff] at hfind
      rw [hfind]
      exact Or.inl rfl
    | some s =>
      rw [hs, Option.map_some, eq_comm, Option.map_eq_some_iff] at hfind
      obtain ⟨s', hs', hspot⟩ := hfind
      rw [hs']
      exact Or.inr ⟨s, s', rfl, rfl, hspot.symm⟩

theorem word?_alike (token : Text) : (Operand.resolve t token).word? = (Operand.resolve t' token).word? := by
  rcases resolve_alike h token with he | ⟨s, s', hs, hs', hspot⟩
  · rw [he]
  · rw [hs, hs', Operand.word?_label, Operand.word?_label, (Symbol.spot_eq_iff.mp hspot).2.1]

end SymbolTable

/-! ## The layout -/

/-- Alike lines at one address. -/
structure Placement.Alike (p p' : Placement) : Prop where
  line : p.line.Alike p'.line
  pc : p.pc = p'.pc

theorem Placement.Alike.refl (p : Placement) : Alike p p := ⟨.refl _, rfl⟩

namespace Layout

structure Alike (y y' : Layout) : Prop where
  pc : y.pc = y'.pc
  symbols : y.symbols.Alike y'.symbols
  placements : List.Forall₂ Placement.Alike y.placements y'.placements

variable {y y' : Layout}

theorem Alike.address (h : y.Alike y') : y.address = y'.address := by
  rw [Layout.address, Layout.address, h.pc]

theorem labelled_alike (h : y.Alike y') {l l' : Line} (hl : l.Alike l') {t : SymbolTable} (ht : y.labelled l = .ok t) :
    ∃ t', y'.labelled l' = .ok t' ∧ t.Alike t' := by
  unfold labelled at ht ⊢
  rw [← hl.statement]
  by_cases hlabel : l.statement.label.isEmpty = true
  · rw [if_pos hlabel] at ht ⊢
    cases ht
    exact ⟨_, rfl, h.symbols⟩
  · rw [if_neg hlabel] at ht ⊢
    refine SymbolTable.define_alike h.symbols ?_ ht
    simp only [Symbol.spot, h.address]

theorem body_alike (h : y.Alike y') {l l' : Line} (hl : l.Alike l') (code : Text) {z : Layout}
    (hz : y.body l code = .ok z) : ∃ z', y'.body l' code = .ok z' ∧ z.Alike z' := by
  unfold body at hz ⊢
  by_cases he : code.isEmpty = true
  · rw [if_pos he] at hz ⊢
    cases hz
    exact ⟨_, rfl, h⟩
  · rw [if_neg he] at hz ⊢
    cases hd : Source.directive? code with
    | some name =>
      simp only [hd] at hz ⊢
      cases hz
      exact ⟨_, rfl, h.pc, h.symbols, h.placements⟩
    | none =>
      simp only [hd] at hz ⊢
      cases hw : Text.words code with
      | nil =>
        simp only [hw] at hz
        cases hz
      | cons name operands =>
        simp only [hw, ← h.pc] at hz ⊢
        by_cases hfit : y.pc + Mnemonic.width name ≤ addressSpace
        · rw [if_pos hfit] at hz ⊢
          cases hz
          refine ⟨_, rfl, rfl, h.symbols, ?_⟩
          exact List.rel_append h.placements (.cons ⟨hl, h.address⟩ .nil)
        · rw [if_neg hfit] at hz
          cases hz

theorem step_alike (h : y.Alike y') {l l' : Line} (hl : l.Alike l') {z : Layout} (hz : y.step l = .ok z) :
    ∃ z', y'.step l' = .ok z' ∧ z.Alike z' := by
  rw [step_eq] at hz ⊢
  cases ht : y.labelled l with
  | error e =>
    rw [ht] at hz
    cases hz
  | ok t =>
    obtain ⟨t', ht', htt⟩ := labelled_alike h hl ht
    rw [ht] at hz
    rw [ht', ← hl.statement]
    have hy : Alike { y with symbols := t } { y' with symbols := t' } := ⟨h.pc, htt, h.placements⟩
    exact body_alike hy hl _ hz

theorem place_alike (h : y.Alike y') {ls ls' : List Line} (hls : List.Forall₂ Line.Alike ls ls') {z : Layout}
    (hz : y.place ls = (z, none)) : ∃ z', y'.place ls' = (z', none) ∧ z.Alike z' := by
  induction hls generalizing y y' with
  | nil =>
    cases hz
    exact ⟨y', rfl, h⟩
  | @cons l l' ls ls' hl _ ih =>
    simp only [place] at hz ⊢
    cases hs : y.step l with
    | error halt =>
      rw [hs] at hz
      cases hz
    | ok y₁ =>
      obtain ⟨y₁', hs', hy₁⟩ := step_alike h hl hs
      rw [hs] at hz
      rw [hs']
      exact ih hy₁ hz

end Layout

/-! ## Relocation calls -/

namespace Relocation

/-- The same anchors are remembered for all arguments that satisfy `P`. -/
def Memory.Agree (P : Text → Prop) (memory memory' : Memory) : Prop :=
  ∀ argument, P argument → memory.anchors.lookup argument = memory'.anchors.lookup argument

/-- Every `%pcrel_lo` in a text is of an argument that satisfies `P`. -/
def AsksOnly (P : Text → Prop) (s : Text) : Prop := ∀ argument, (.pcrelLo, argument) ∈ calls s → P argument

variable {P : Text → Prop} {memory memory' : Memory}

/-- A call has the same value if the anchor that it asks for is the same. -/
theorem value_agree (h : memory.Agree P memory') (number number' : Nat) (pc : Word) {m : Relocation} {argument : Text}
    (hm : m = .pcrelLo → P argument) (target : Word) :
    (value memory number pc m argument target).1 = (value memory' number' pc m argument target).1 ∧
      (value memory number pc m argument target).2.Agree P (value memory' number' pc m argument target).2 := by
  cases m with
  | hi => exact ⟨rfl, h⟩
  | lo => exact ⟨rfl, h⟩
  | pcrelHi =>
    refine ⟨rfl, fun other hother => ?_⟩
    simp only [value, List.lookup_cons, h other hother]
  | pcrelLo =>
    have hlookup := h argument (hm rfl)
    simp only [value, ← hlookup]
    cases memory.anchors.lookup argument with
    | none => exact ⟨rfl, h⟩
    | some anchor => exact ⟨rfl, h⟩

variable {symbols symbols' : SymbolTable}

theorem expandFrom_alike (hsym : symbols.Alike symbols') (number number' : Nat) (pc : Word) {s : Text}
    (hs : AsksOnly P s) : ∀ skip {memory memory' : Memory}, memory.Agree P memory' →
      (expandFrom symbols number pc skip memory s).1 = (expandFrom symbols' number' pc skip memory' s).1 ∧
        (expandFrom symbols number pc skip memory s).2.Agree P (expandFrom symbols' number' pc skip memory' s).2 := by
  induction s with
  | nil =>
    intro skip memory memory' h
    unfold expandFrom
    exact ⟨rfl, h⟩
  | cons b r ih =>
    have hr : AsksOnly P r := fun argument ha => hs argument (List.mem_append_right _ ha)
    intro skip memory memory' h
    cases skip with
    | succ skip => exact ih hr skip h
    | zero =>
      have keep := ih hr 0 h
      simp only [expandFrom]
      by_cases hb : (b == 0x25) = true
      · simp only [hb, if_true]
        cases hcall : call? r with
        | none => exact ⟨congrArg (b :: ·) keep.1, keep.2⟩
        | some c =>
          obtain ⟨m, argument, rest⟩ := c
          simp only [← SymbolTable.word?_alike hsym argument]
          cases (Operand.resolve symbols argument).word? with
          | none => exact ⟨congrArg (b :: ·) keep.1, keep.2⟩
          | some target =>
            have hm : m = .pcrelLo → P argument := by
              intro hm
              refine hs argument (List.mem_append_left _ ?_)
              simp [hb, hcall, hm]
            obtain ⟨hvalue, hagree⟩ := value_agree h number number' pc hm target
            have rest := ih hr (r.length - rest.length) hagree
            simp only [hvalue, rest.1]
            exact ⟨trivial, rest.2⟩
      · simp only [hb, Bool.false_eq_true, if_false]
        exact ⟨congrArg (b :: ·) keep.1, keep.2⟩

theorem expandOne_alike (hsym : symbols.Alike symbols') {p p' : Placement} (hp : p.Alike p')
    (hs : AsksOnly P p.line.text) (h : memory.Agree P memory') :
    (expandOne symbols memory p).1.Alike (expandOne symbols' memory' p').1 ∧
      (expandOne symbols memory p).2.Agree P (expandOne symbols' memory' p').2 := by
  unfold expandOne
  rw [← hp.line.fault]
  by_cases hf : p.line.fault.isSome = true
  · rw [if_pos hf, if_pos hf]
    exact ⟨hp, h⟩
  · have expanded := expandFrom_alike hsym p.line.number p'.line.number p.pc hs 0 h
    rw [if_neg hf, if_neg hf, ← hp.line.text, ← hp.pc]
    exact ⟨⟨⟨expanded.1, hp.line.fault⟩, rfl⟩, expanded.2⟩

theorem expandAll_alike (hsym : symbols.Alike symbols') {ps ps' : List Placement}
    (hp : List.Forall₂ Placement.Alike ps ps') (hs : ∀ p ∈ ps, AsksOnly P p.line.text) (h : memory.Agree P memory') :
    List.Forall₂ Placement.Alike (expandAll symbols memory ps).1 (expandAll symbols' memory' ps').1 ∧
      (expandAll symbols memory ps).2.Agree P (expandAll symbols' memory' ps').2 := by
  induction hp generalizing memory memory' with
  | nil => exact ⟨.nil, h⟩
  | cons hp _ ih =>
    obtain ⟨hone, hagree⟩ := expandOne_alike hsym hp (hs _ List.mem_cons_self) h
    obtain ⟨hrest, hend⟩ := ih (fun q hq => hs q (List.mem_cons_of_mem _ hq)) hagree
    exact ⟨.cons hone hrest, hend⟩

end Relocation

/-! ## Instructions -/

namespace Context

variable {t t' : SymbolTable} (h : t.Alike t') (b : Bool) (pc : Word)

include h

theorem distance_alike (token : Text) : distance ⟨t, b, pc⟩ token = distance ⟨t', b, pc⟩ token := by
  unfold distance
  rcases SymbolTable.resolve_alike h token with he | ⟨s, s', hs, hs', hspot⟩
  · simp only [he]
  · simp only [hs, hs', (Symbol.spot_eq_iff.mp hspot).2.1]

theorem upper_alike (rd : Reg) (token : Text) : upper ⟨t, b, pc⟩ rd token = upper ⟨t', b, pc⟩ rd token := by
  unfold upper
  rcases SymbolTable.resolve_alike h token with he | ⟨s, s', hs, hs', hspot⟩
  · simp only [he]
  · simp only [hs, hs', (Symbol.spot_eq_iff.mp hspot).2.1, (Symbol.spot_eq_iff.mp hspot).2.2]

theorem line_alike {l l' : Line} (hl : l.Alike l') : line ⟨t, b, pc⟩ l = line ⟨t', b, pc⟩ l' := by
  rw [line_congr l (fun _ token _ => distance_alike h b pc token) fun token _ rd => upper_alike h b pc rd token]
  unfold line
  rw [hl.fault, hl.statement]

end Context

/-- What placed lines come to, each for itself. -/
def encoded (o : Options) (symbols : SymbolTable) (ps : List Placement) :
    List (Except (Halt LineError) (List Instruction)) :=
  ps.map fun p => (attempt o symbols p).outcome

theorem encoded_alike {o : Options} {t t' : SymbolTable} (h : t.Alike t') {ps ps' : List Placement}
    (hp : List.Forall₂ Placement.Alike ps ps') : encoded o t ps = encoded o t' ps' := by
  induction hp with
  | nil => rw [encoded, encoded, List.map_nil, List.map_nil]
  | @cons p p' ps ps' hp _ ih =>
    have hone : (attempt o t p).outcome = (attempt o t' p').outcome := by
      show Context.line _ p.line = Context.line _ p'.line
      rw [hp.pc]
      exact Context.line_alike h _ _ hp.line
    exact congrArg₂ List.cons hone ih

/-- Alike placements come to the same, calls and all. -/
theorem encoded_expandAll_alike {o : Options} {t t' : SymbolTable} (h : t.Alike t') {ps ps' : List Placement}
    (hp : List.Forall₂ Placement.Alike ps ps') :
    encoded o t (Relocation.expandAll t {} ps).1 = encoded o t' (Relocation.expandAll t' {} ps').1 := by
  have hmemory : Relocation.Memory.Agree (fun _ => True) {} {} := fun _ _ => rfl
  exact encoded_alike h (Relocation.expandAll_alike h hp (fun _ _ _ _ => trivial) hmemory).1

theorem encoded_append (o : Options) (symbols : SymbolTable) (ps qs : List Placement) :
    encoded o symbols (ps ++ qs) = encoded o symbols ps ++ encoded o symbols qs := List.map_append

namespace Stages

variable {s : Stages} {source : Text} {o : Options}

theorem encoded_eq (s : Stages) (o : Options) :
    encoded o s.layout.symbols s.expanded = (s.attempts o).map Attempt.outcome := by
  rw [encoded, attempts, List.map_map]
  rfl

/-- A run has no errors exactly when every placed line comes to instructions. -/
theorem errors_eq_nil_iff (h : ofSource source = .ok s) :
    s.errors o = [] ↔ ∀ x ∈ encoded o s.layout.symbols s.expanded, ∃ is, x = .ok is := by
  rw [errors, List.filterMap_eq_nil_iff, encoded_eq, List.forall_mem_map]
  constructor
  · intro he a ha
    exact Attempt.outcome_ok (he a ha) (no_abort h o a ha)
  · intro hok a ha
    obtain ⟨is, his⟩ := hok a ha
    rw [Attempt.error?, his]

/-- The words of what lines come to. -/
def wordsOf (xs : List (Except (Halt LineError) (List Instruction))) : List Word :=
  xs.flatMap fun x =>
    match x with
    | .ok is => is.map Instruction.toWord
    | .error _ => []

theorem words_eq (s : Stages) (o : Options) : s.words o = wordsOf (encoded o s.layout.symbols s.expanded) := by
  rw [encoded_eq, wordsOf, List.flatMap_map]
  rfl

end Stages

end Assembly

end Rv32Tools
