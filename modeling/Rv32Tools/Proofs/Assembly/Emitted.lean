import Rv32Tools.Proofs.Assembly.Data
import Rv32Tools.Proofs.Assembly.Relocation

/-
  Rv32Tools.Proofs.Assembly.Emitted — the lines of a text segment and the words they came to.

  `Emitted pc ls as` walks down the lines with the address that the layout gave them and beside them the attempts of
  the encoder, one for each instruction. It holds when every attempt came to as many words as its line was laid out
  for. From there on an address is a number of words: `Emitted.length` for the whole segment, `Emitted.split` at a
  line, and `Emitted.placed` at an instruction.

  `Stages.no_abort` says that a text segment that was laid out leaves the encoder something on every line, so that
  the outcome of a run is known from its stages alone (`assemble_eq`).
-/

namespace Rv32Tools.Assembly

open Source (Line)
open Layout (along placedOn extents)
open Relocation (Expanded)

theorem Attempt.outcome_ok {a : Attempt} (he : a.error? = none) (ha : a.abort? = none) :
    ∃ is, a.outcome = .ok is := by
  unfold error? at he
  unfold abort? at ha
  rcases h : a.outcome with (_ | _) | is
  · simp [h] at he
  · simp [h] at ha
  · exact ⟨is, rfl⟩

theorem Attempt.words_of_ok {a : Attempt} {is : List Instruction} (h : a.outcome = .ok is) :
    a.words = is.map Instruction.toWord := by rw [words, h]

theorem Mnemonic.width_pos (name : Text) : 0 < Mnemonic.width name := by
  unfold Mnemonic.width
  split
  · rename_i m _
    rcases m with op | p
    · exact Nat.zero_lt_succ _
    · cases p <;> decide
  · decide

/-! ## Lines beside their attempts -/

inductive Emitted : Nat → List Line → List Attempt → Prop
  | nil (pc : Nat) : Emitted pc [] []
  | pass {pc : Nat} {l : Line} {ls : List Line} {as : List Attempt} :
      l.isInstruction = false → Emitted pc ls as → Emitted pc (l :: ls) as
  | emit {pc : Nat} {l : Line} {ls : List Line} {a : Attempt} {as : List Attempt} {is : List Instruction} :
      l.isInstruction = true → Expanded ⟨l, BitVec.ofNat 32 pc⟩ a.placement → a.outcome = .ok is →
      l.extent = 4 * is.length → Emitted (pc + l.extent) ls as → Emitted pc (l :: ls) (a :: as)

theorem emitted_of_expanded {o : Options} {symbols : SymbolTable} {pc : Nat} {ls : List Line} {es : List Placement}
    (hx : List.Forall₂ Expanded (along placedOn pc ls) es)
    (hw : ∀ l ∈ ls, l.isInstruction = true → Text.words l.statement.body ≠ [])
    (hok : ∀ e ∈ es, ∃ is, (attempt o symbols e).outcome = .ok is) :
    Emitted pc ls (es.map (attempt o symbols)) := by
  induction ls generalizing pc es with
  | nil =>
    cases hx
    exact .nil pc
  | cons l ls ih =>
    have hw' : ∀ l' ∈ ls, l'.isInstruction = true → Text.words l'.statement.body ≠ [] :=
      fun l' hl' => hw l' (List.mem_cons_of_mem _ hl')
    cases hi : l.isInstruction with
    | false =>
      have he : l.extent = 0 := by simp [Line.extent, hi]
      rw [along, placedOn, hi, he] at hx
      exact .pass hi (ih hx hw' hok)
    | true =>
      rw [along, placedOn, hi] at hx
      obtain ⟨e, es', hpe, hx', rfl⟩ := List.forall₂_cons_left_iff.mp hx
      obtain ⟨is, his⟩ := hok e List.mem_cons_self
      have hwidth : l.extent = 4 * is.length := by
        rw [Line.extent, if_pos hi]
        exact hpe.width (hw l List.mem_cons_self hi) his
      exact .emit hi hpe his hwidth (ih hx' hw' fun e' he' => hok e' (List.mem_cons_of_mem _ he'))

namespace Emitted

variable {pc : Nat} {ls : List Line} {as : List Attempt}

/-- The words are as many as the layout has left room for. -/
theorem length (h : Emitted pc ls as) : 4 * (as.flatMap Attempt.words).length = extents ls := by
  induction h with
  | nil pc => rfl
  | @pass pc l ls as hi _ ih =>
    rw [Layout.extents_cons, ← ih, Line.extent, hi]
    simp
  | @emit pc l ls a as is hi _ ho hw _ ih =>
    rw [Layout.extents_cons, ← ih, hw, List.flatMap_cons, List.length_append, Attempt.words_of_ok ho, List.length_map,
      Nat.mul_add]

theorem split {before after : List Line} (h : Emitted pc (before ++ after) as) :
    ∃ as₁ as₂, as = as₁ ++ as₂ ∧ Emitted pc before as₁ ∧ Emitted (pc + extents before) after as₂ := by
  induction before generalizing pc as with
  | nil => exact ⟨[], as, rfl, .nil pc, h⟩
  | cons l before ih =>
    cases h with
    | pass hi h =>
      obtain ⟨as₁, as₂, rfl, h₁, h₂⟩ := ih h
      refine ⟨as₁, as₂, rfl, .pass hi h₁, ?_⟩
      rwa [Layout.extents_cons, Line.extent, hi, if_neg Bool.false_ne_true, Nat.zero_add]
    | emit hi hp ho hw h =>
      obtain ⟨as₁, as₂, rfl, h₁, h₂⟩ := ih h
      refine ⟨_ :: as₁, as₂, rfl, .emit hi hp ho hw h₁, ?_⟩
      rwa [Layout.extents_cons, ← Nat.add_assoc]

/-- Each attempt is at a line. -/
theorem number (h : Emitted pc ls as) {a : Attempt} (ha : a ∈ as) : ∃ l ∈ ls, a.placement.line.number = l.number := by
  induction h with
  | nil pc => cases ha
  | pass _ _ ih =>
    obtain ⟨l, hl, e⟩ := ih ha
    exact ⟨l, List.mem_cons_of_mem _ hl, e⟩
  | @emit pc l ls a' as is _ hp _ _ _ ih =>
    rcases List.mem_cons.mp ha with rfl | ha
    · exact ⟨l, List.mem_cons_self, hp.number⟩
    · obtain ⟨l', hl', e⟩ := ih ha
      exact ⟨l', List.mem_cons_of_mem _ hl', e⟩

/-- An instruction was placed as many words behind the start as the ones before it came to. -/
theorem placed (h : Emitted pc ls as) {k : Nat} {p : Placement} (hk : (along placedOn pc ls)[k]? = some p) :
    ∃ a is, as[k]? = some a ∧ Expanded p a.placement ∧ a.outcome = .ok is ∧ is ≠ [] ∧
      p.pc = BitVec.ofNat 32 (pc + 4 * ((as.take k).flatMap Attempt.words).length) := by
  induction h generalizing k with
  | nil pc => cases hk
  | @pass pc l ls as hi _ ih =>
    rw [along, placedOn, hi, Line.extent, hi] at hk
    exact ih hk
  | @emit pc l ls a as is hi hp ho hw _ ih =>
    rw [along, placedOn, if_pos hi] at hk
    cases k with
    | zero =>
      cases hk
      have hpos : 0 < l.extent := by
        rw [Line.extent, if_pos hi]
        exact Mnemonic.width_pos _
      refine ⟨a, is, rfl, hp, ho, ?_, rfl⟩
      rintro rfl
      rw [hw] at hpos
      cases hpos
    | succ k =>
      obtain ⟨a', is', hk', hp', ho', hne, hpc⟩ := ih hk
      refine ⟨a', is', hk', hp', ho', hne, ?_⟩
      rw [hpc, hw, List.take_succ_cons, List.flatMap_cons, List.length_append, Attempt.words_of_ok ho, List.length_map,
        Nat.mul_add, Nat.add_assoc]

end Emitted

/-! ## Stages that were found -/

theorem words_of_mem_along {pc : Nat} {ls : List Line}
    (hw : ∀ l ∈ ls, l.isInstruction = true → Text.words l.statement.body ≠ []) {p : Placement}
    (hp : p ∈ along placedOn pc ls) : Text.words p.line.statement.body ≠ [] := by
  obtain ⟨before, l, after, rfl, hpl⟩ := (Layout.mem_along _).mp hp
  unfold placedOn at hpl
  split at hpl
  · rename_i hi
    rw [List.mem_singleton.mp hpl]
    exact hw l (List.mem_append_right _ List.mem_cons_self) hi
  · cases hpl

namespace Stages

variable {s : Stages} {source : Text} (h : ofSource source = .ok s)

/-- The lines of the text segment. -/
def textLines (s : Stages) (source : Text) : List Line := s.sections.text.lines (Line.ofSource source)

include h

theorem laidOut : Layout.TakesAll { pc := s.sections.text.base.toNat, symbols := dataLabels s.data }
    (s.textLines source) s.layout :=
  Layout.ofLines_ok (ofSource_ok h).2.2

theorem wellNamed : s.layout.symbols.WellNamed := by
  apply (laidOut h).wellNamed
  exact fun symbol hs => (dataStage_ofData (ofSource_ok h).2.1 symbol hs).1

theorem placements_expanded :
    List.Forall₂ Expanded (along placedOn s.sections.text.base.toNat (s.textLines source)) s.expanded := by
  have hp := (laidOut h).placements
  rw [List.nil_append] at hp
  rw [← hp]
  exact Relocation.expandAll_expanded (wellNamed h) _ _

/-- What was laid out can be encoded, or there is an error to report. -/
theorem no_abort (o : Options) : ∀ a ∈ s.attempts o, a.abort? = none := by
  intro a ha
  obtain ⟨e, he, rfl⟩ := List.mem_map.mp ha
  have hx := placements_expanded h
  obtain ⟨k, hk, rfl⟩ := List.getElem_of_mem he
  have hk' : k < (along placedOn s.sections.text.base.toNat (s.textLines source)).length := hx.length_eq ▸ hk
  have hpe := hx.get hk' hk
  have hw := words_of_mem_along (laidOut h).names (List.get_mem _ ⟨k, hk'⟩)
  unfold Attempt.abort?
  split
  · rename_i a hx
    exact absurd hx (hpe.no_abort hw _ a)
  · rfl

end Stages

/-- A run ends where its stages end, or with their result. -/
theorem assemble_eq (o : Options) (source : Text) :
    (assemble o source).outcome = (Stages.ofSource source).map (·.result o source) := by
  rw [assemble_outcome]
  cases h : Stages.ofSource source with
  | error halt => rfl
  | ok s =>
    have hn : (s.attempts o).findSome? Attempt.abort? = none :=
      List.findSome?_eq_none_iff.mpr (Stages.no_abort h o)
    simp only [Stages.outcome, hn]
    rfl

theorem Stages.ofSource_of_outcome {o : Options} {source : Text} {r : Result} (h : (assemble o source).outcome = .ok r) :
    ∃ s, ofSource source = .ok s ∧ s.result o source = r := by
  rw [assemble_eq] at h
  cases hs : ofSource source with
  | error halt =>
    rw [hs] at h
    cases h
  | ok s =>
    rw [hs] at h
    exact ⟨s, rfl, Except.ok.inj h⟩

/-- Two runs whose stages halt alike or go on side by side end alike or with results side by side. -/
theorem assemble_alike {o o' : Options} {source source' : Text} {P : Result → Result → Prop}
    (h : (∃ halt, Stages.ofSource source = .error halt ∧ Stages.ofSource source' = .error halt) ∨
      ∃ s s', Stages.ofSource source = .ok s ∧ Stages.ofSource source' = .ok s' ∧
        P (s.result o source) (s'.result o' source')) :
    (∀ halt, (assemble o source).outcome = .error halt ↔ (assemble o' source').outcome = .error halt) ∧
      ∀ r r', (assemble o source).outcome = .ok r → (assemble o' source').outcome = .ok r' → P r r' := by
  rw [assemble_eq, assemble_eq]
  rcases h with ⟨halt, hs, hs'⟩ | ⟨s, s', hs, hs', hP⟩
  · rw [hs, hs', Except.map, Except.map]
    exact ⟨fun _ => Iff.rfl, fun r r' hr => by cases hr⟩
  · rw [hs, hs', Except.map, Except.map]
    refine ⟨fun halt => ?_, fun r r' hr hr' => ?_⟩
    · constructor
      · intro hr
        cases hr
      · intro hr
        cases hr
    · rw [← Except.ok.inj hr, ← Except.ok.inj hr']
      exact hP

end Rv32Tools.Assembly
