import Rv32Tools.Proofs.Assembly.Emitted
import Rv32Tools.Proofs.Assembly.Sections

/-
  Rv32Tools.Proofs.Assembly.PositionIndependence — text that is the same wherever it lies.

  Two sources that differ in the base of the text segment only are run side by side, and everything in the second run
  is what it is in the first with text addresses moved by the distance `d` of the two bases, modulo 2^32: its labels
  (`SymbolTable.moved`), its layout (`Layout.Moved`), what the relocation calls remember (`Memory.moved`).

  Words do not move if they hold distances only. `la`, `ja` see to that themselves in a position-independent run
  (`Context.upper_moved`); of calls and targets it is asked (`Stages.PositionFree`):
  - `%hi` and `%lo` are not of text labels, `%pcrel_hi` and `%pcrel_lo` of nothing else,
  - a branch, a jump or a call to a label goes to a text label.
  Then both runs come to the same errors, the same text and the same data (`position_independent`).
-/

namespace Rv32Tools.Assembly

open Source (Line)

/-! ## Labels -/

/-- The label moved by `d`, if it is one of the text segment. -/
def Symbol.moved (d : Word) (s : Symbol) : Symbol :=
  if s.segment = .text then { s with address := s.address + d } else s

@[simp] theorem Symbol.moved_name (d : Word) (s : Symbol) : (s.moved d).name = s.name := by
  unfold moved
  split <;> rfl

@[simp] theorem Symbol.moved_segment (d : Word) (s : Symbol) : (s.moved d).segment = s.segment := by
  unfold moved
  split <;> rfl

@[simp] theorem Symbol.moved_line (d : Word) (s : Symbol) : (s.moved d).line = s.line := by
  unfold moved
  split <;> rfl

theorem Symbol.moved_address {s : Symbol} (h : s.segment = .text) (d : Word) :
    (s.moved d).address = s.address + d := by
  rw [moved, if_pos h]

theorem Symbol.moved_of_ne {s : Symbol} (h : s.segment ≠ .text) (d : Word) : s.moved d = s := if_neg h

def SymbolTable.moved (d : Word) (t : SymbolTable) : SymbolTable := ⟨t.entries.map (Symbol.moved d)⟩

theorem SymbolTable.find?_moved (d : Word) (t : SymbolTable) (name : Text) :
    (t.moved d).find? name = (t.find? name).map (Symbol.moved d) := by
  have same : ((fun s : Symbol => s.name == name) ∘ Symbol.moved d) = fun s => s.name == name := by
    funext s
    simp only [Function.comp_apply, Symbol.moved_name]
  rw [find?, moved, List.find?_map, same]
  rfl

/-- Defining a label in the moved table gives the moved table, or fails with the same message. -/
theorem SymbolTable.define_moved (d : Word) (t : SymbolTable) (s : Symbol) :
    (∃ t', t.define s = .ok t' ∧ (t.moved d).define (s.moved d) = .ok (t'.moved d)) ∨
      ∃ e e', t.define s = .error e ∧ (t.moved d).define (s.moved d) = .error e' ∧ e.message = e'.message := by
  unfold define
  rw [Symbol.moved_name, find?_moved]
  by_cases hn : isLabelName s.name = true
  · cases t.find? s.name with
    | none =>
      refine Or.inl ⟨⟨t.entries ++ [s]⟩, by simp [hn], ?_⟩
      simp [hn, moved]
    | some earlier =>
      refine Or.inr ⟨.duplicate earlier, .duplicate (earlier.moved d), by simp [hn], by simp [hn], ?_⟩
      simp only [DefineError.message, Symbol.moved_name, Symbol.moved_line, Symbol.moved_segment]
  · exact Or.inr ⟨.invalidName s.name, .invalidName s.name, by simp [hn], by simp [hn], rfl⟩

theorem SymbolTable.moved_of_ofData {t : SymbolTable} (h : ∀ s ∈ t.entries, s.segment = .data) (d : Word) :
    t.moved d = t := by
  have same : ∀ s ∈ t.entries, s.moved d = id s := fun s hs => Symbol.moved_of_ne (by rw [h s hs]; decide) d
  rw [moved, List.map_congr_left same, List.map_id]

def Operand.moved (d : Word) : Operand → Operand
  | .label s => .label (s.moved d)
  | o => o

/-- Whether the operand is as far from an instruction wherever the text segment lies: a number is, and a text label. -/
def Operand.isNear : Operand → Bool
  | .label s => s.segment = .text
  | _ => true

theorem Operand.resolve_moved (d : Word) (t : SymbolTable) (token : Text) :
    resolve (t.moved d) token = (resolve t token).moved d := by
  unfold resolve
  rw [SymbolTable.find?_moved]
  cases Source.number? token with
  | some v => rfl
  | none => cases t.find? token <;> rfl

theorem Operand.word?_label (s : Symbol) : (Operand.label s).word? = some s.address := by
  rw [word?, value?, Option.map_some, BitVec.ofInt_natCast, BitVec.ofNat_toNat, BitVec.setWidth_eq]

/-! ## The layout -/

def Placement.moved (d : Word) (p : Placement) : Placement := { p with pc := p.pc + d }

namespace Layout

/-- The second layout is the first, `d` further on. -/
structure Moved (d : Word) (y y' : Layout) : Prop where
  address : y'.address = y.address + d
  symbols : y'.symbols = y.symbols.moved d
  placements : y'.placements = y.placements.map (Placement.moved d)
  ignored : y'.ignored = y.ignored

variable {d : Word} {y y' : Layout}

theorem labelled_moved (h : Moved d y y') (l : Line) :
    (∃ t, y.labelled l = .ok t ∧ y'.labelled l = .ok (t.moved d)) ∨
      ∃ e e', y.labelled l = .error e ∧ y'.labelled l = .error e' ∧ e.message = e'.message := by
  unfold labelled
  by_cases hl : l.statement.label.isEmpty = true
  · rw [if_pos hl, if_pos hl, h.symbols]
    exact Or.inl ⟨_, rfl, rfl⟩
  · have hs : (⟨l.statement.label, y.address + d, .text, l.number⟩ : Symbol) =
        Symbol.moved d ⟨l.statement.label, y.address, .text, l.number⟩ := rfl
    rw [if_neg hl, if_neg hl, h.symbols, h.address, hs]
    exact y.symbols.define_moved d _

/-- Unless one of them runs out of addresses, two layouts take the body of a line alike. -/
theorem body_moved (h : Moved d y y') (l : Line) (code : Text) (hf : y.body l code ≠ .error (.error .overflow))
    (hf' : y'.body l code ≠ .error (.error .overflow)) :
    (∃ cause, y.body l code = .error (.abort cause) ∧ y'.body l code = .error (.abort cause)) ∨
      ∃ z z', y.body l code = .ok z ∧ y'.body l code = .ok z' ∧ Moved d z z' := by
  unfold body at hf hf' ⊢
  by_cases he : code.isEmpty = true
  · simp only [he, if_true]
    exact Or.inr ⟨y, y', rfl, rfl, h⟩
  · simp only [he, Bool.false_eq_true, if_false] at hf hf' ⊢
    cases hd : Source.directive? code with
    | some name =>
      refine Or.inr ⟨_, _, rfl, rfl, h.address, h.symbols, h.placements, ?_⟩
      simp only [h.ignored]
    | none =>
      simp only [hd] at hf hf' ⊢
      cases hw : Text.words code with
      | nil => exact Or.inl ⟨.blankInstruction, rfl, rfl⟩
      | cons name operands =>
        simp only [hw] at hf hf' ⊢
        by_cases hfit : y.pc + Mnemonic.width name ≤ addressSpace
        · by_cases hfit' : y'.pc + Mnemonic.width name ≤ addressSpace
          · rw [if_pos hfit, if_pos hfit']
            refine Or.inr ⟨_, _, rfl, rfl, ?_, h.symbols, ?_, h.ignored⟩
            · have ha : BitVec.ofNat 32 y'.pc = BitVec.ofNat 32 y.pc + d := h.address
              simp only [address, BitVec.ofNat_add, ha]
              rw [BitVec.add_assoc, BitVec.add_assoc, BitVec.add_comm d]
            · simp only [h.placements, h.address, List.map_append]
              rfl
          · rw [if_neg hfit'] at hf'
            exact absurd rfl hf'
        · rw [if_neg hfit] at hf
          exact absurd rfl hf

/-- Unless one of them runs out of addresses, two layouts take a line alike. -/
theorem step_moved (h : Moved d y y') (l : Line) (hf : y.step l ≠ .error (.error .overflow))
    (hf' : y'.step l ≠ .error (.error .overflow)) :
    (∃ halt halt', y.step l = .error halt ∧ y'.step l = .error halt' ∧
        LayoutFault.ending ⟨l.number, halt⟩ = LayoutFault.ending ⟨l.number, halt'⟩) ∨
      ∃ z z', y.step l = .ok z ∧ y'.step l = .ok z' ∧ Moved d z z' := by
  rw [step_eq] at hf hf' ⊢
  rw [step_eq]
  rcases labelled_moved h l with ⟨t, ht, ht'⟩ | ⟨e, e', he, he', hm⟩
  · rw [ht] at hf ⊢
    rw [ht'] at hf' ⊢
    have hmoved : Moved d { y with symbols := t } { y' with symbols := t.moved d } :=
      ⟨h.address, rfl, h.placements, h.ignored⟩
    rcases body_moved hmoved l l.statement.body hf hf' with ⟨cause, hb, hb'⟩ | ⟨z, z', hb, hb', hz⟩
    · exact Or.inl ⟨_, _, hb, hb', rfl⟩
    · exact Or.inr ⟨z, z', hb, hb', hz⟩
  · rw [he, he']
    refine Or.inl ⟨_, _, rfl, rfl, ?_⟩
    simp only [LayoutFault.ending, LayoutError.message, hm]

/-- Unless one of them runs out of addresses, two layouts end alike. -/
theorem place_moved (h : Moved d y y') (ls : List Line)
    (hf : ∀ line, (y.place ls).2 ≠ some ⟨line, .error .overflow⟩)
    (hf' : ∀ line, (y'.place ls).2 ≠ some ⟨line, .error .overflow⟩) :
    (∃ fault fault', (y.place ls).2 = some fault ∧ (y'.place ls).2 = some fault' ∧ fault.ending = fault'.ending) ∨
      ∃ z z', y.place ls = (z, none) ∧ y'.place ls = (z', none) ∧ Moved d z z' := by
  induction ls generalizing y y' with
  | nil => exact Or.inr ⟨y, y', rfl, rfl, h⟩
  | cons l ls ih =>
    simp only [place] at hf hf' ⊢
    have hstep : y.step l ≠ .error (.error .overflow) := by
      intro e
      rw [e] at hf
      exact hf l.number rfl
    have hstep' : y'.step l ≠ .error (.error .overflow) := by
      intro e
      rw [e] at hf'
      exact hf' l.number rfl
    rcases step_moved h l hstep hstep' with ⟨halt, halt', he, he', hend⟩ | ⟨z, z', hz, hz', hm⟩
    · rw [he, he']
      exact Or.inl ⟨_, _, rfl, rfl, hend⟩
    · rw [hz] at hf ⊢
      rw [hz'] at hf' ⊢
      exact ih hm hf hf'

end Layout

/-! ## Relocation calls -/

namespace Relocation

/-- The calls in a text, each with its argument. -/
def calls : Text → List (Relocation × Text)
  | [] => []
  | b :: r => (if b == 0x25 then (call? r).toList.map fun c => (c.1, c.2.1) else []) ++ calls r

/-- Whether a call is worth the same wherever the text segment lies. -/
def isPositionFree (symbols : SymbolTable) (m : Relocation) (argument : Text) : Bool :=
  match m, Operand.resolve symbols argument with
  | .hi, .label s | .lo, .label s => s.segment ≠ .text
  | .pcrelHi, .label s | .pcrelLo, .label s => s.segment = .text
  | .pcrelHi, .literal _ | .pcrelLo, .literal _ => false
  | _, _ => true

def Memory.moved (d : Word) (memory : Memory) : Memory :=
  { memory with anchors := memory.anchors.map fun a => (a.1, a.2 + d) }

theorem Memory.lookup_moved (d : Word) (memory : Memory) (argument : Text) :
    (memory.moved d).anchors.lookup argument = (memory.anchors.lookup argument).map (· + d) := by
  show (memory.anchors.map fun a => (a.1, a.2 + d)).lookup argument = _
  induction memory.anchors with
  | nil => rfl
  | cons a as ih =>
    rw [List.map_cons, List.lookup_cons, List.lookup_cons, ih]
    cases argument == a.1 with
    | true => rfl
    | false => rfl

theorem distance_moved (target pc d : Word) : target + d - (pc + d) = target - pc := by
  bv_omega

variable {symbols : SymbolTable} (d : Word)

/-- A call that is free of its position has a value in both runs or in none, and it is the same. -/
theorem value_moved {m : Relocation} {argument : Text} (h : m.isPositionFree symbols argument = true) (memory : Memory)
    (number : Nat) (pc : Word) :
    ((Operand.resolve (symbols.moved d) argument).word? = none ∧ (Operand.resolve symbols argument).word? = none) ∨
      ∃ target target', (Operand.resolve symbols argument).word? = some target ∧
        (Operand.resolve (symbols.moved d) argument).word? = some target' ∧
        value (memory.moved d) number (pc + d) m argument target' =
          ((value memory number pc m argument target).1, (value memory number pc m argument target).2.moved d) := by
  rw [Operand.resolve_moved]
  unfold isPositionFree at h
  cases hr : Operand.resolve symbols argument with
  | invalid => exact Or.inl ⟨rfl, rfl⟩
  | literal v =>
    rw [hr] at h
    refine Or.inr ⟨_, _, rfl, rfl, ?_⟩
    cases m with
    | hi => rfl
    | lo => rfl
    | pcrelHi => cases h
    | pcrelLo => cases h
  | label s =>
    rw [hr] at h
    refine Or.inr ⟨_, _, Operand.word?_label s, Operand.word?_label (s.moved d), ?_⟩
    cases m with
    | hi =>
      rw [Symbol.moved_of_ne (of_decide_eq_true h)]
      rfl
    | lo =>
      rw [Symbol.moved_of_ne (of_decide_eq_true h)]
      rfl
    | pcrelHi =>
      simp only [value, Symbol.moved_address (of_decide_eq_true h), distance_moved]
      rfl
    | pcrelLo =>
      simp only [value, Symbol.moved_address (of_decide_eq_true h)]
      have hlookup := memory.lookup_moved d argument
      simp only [Memory.moved] at hlookup ⊢
      rw [hlookup]
      cases memory.anchors.lookup argument with
      | none => simp only [Option.map_none, distance_moved]
      | some anchor => simp only [Option.map_some, distance_moved]

theorem expandFrom_moved (number : Nat) (pc : Word) {s : Text}
    (h : ∀ c ∈ calls s, c.1.isPositionFree symbols c.2 = true) :
    ∀ skip memory, expandFrom (symbols.moved d) number (pc + d) skip (memory.moved d) s =
      ((expandFrom symbols number pc skip memory s).1, (expandFrom symbols number pc skip memory s).2.moved d) := by
  induction s with
  | nil =>
    intro skip memory
    unfold expandFrom
    rfl
  | cons b r ih =>
    have hr : ∀ c ∈ calls r, c.1.isPositionFree symbols c.2 = true := fun c hc => h c (List.mem_append_right _ hc)
    intro skip memory
    cases skip with
    | succ skip => exact ih hr skip memory
    | zero =>
      simp only [expandFrom]
      by_cases hb : (b == 0x25) = true
      · simp only [hb, if_true]
        cases hcall : call? r with
        | none => simp only [ih hr]
        | some c =>
          obtain ⟨m, argument, rest⟩ := c
          have hfree : m.isPositionFree symbols argument = true := by
            refine h (m, argument) (List.mem_append_left _ ?_)
            simp [hb, hcall]
          rcases value_moved d hfree memory number pc with ⟨hn', hn⟩ | ⟨target, target', ht, ht', hv⟩
          · simp only [hn, hn', ih hr]
          · simp only [ht, ht', hv, ih hr]
      · simp only [hb, Bool.false_eq_true, if_false, ih hr]

theorem expandAll_moved {ps : List Placement}
    (h : ∀ p ∈ ps, p.line.fault = none → ∀ c ∈ calls p.line.text, c.1.isPositionFree symbols c.2 = true) :
    ∀ memory, expandAll (symbols.moved d) (memory.moved d) (ps.map (Placement.moved d)) =
      ((expandAll symbols memory ps).1.map (Placement.moved d), (expandAll symbols memory ps).2.moved d) := by
  induction ps with
  | nil => intro memory; rfl
  | cons p ps ih =>
    intro memory
    have one : expandOne (symbols.moved d) (memory.moved d) (p.moved d) =
        ((expandOne symbols memory p).1.moved d, (expandOne symbols memory p).2.moved d) := by
      unfold expandOne
      cases hf : p.line.fault with
      | some message => simp [Placement.moved, hf]
      | none =>
        have hp := expandFrom_moved d p.line.number p.pc (h p List.mem_cons_self hf) 0 memory
        simp only [Placement.moved, hf, Option.isSome_none, Bool.false_eq_true, if_false, hp]
    have rest := ih (fun p' hp' => h p' (List.mem_cons_of_mem _ hp')) (expandOne symbols memory p).2
    simp only [List.map_cons, expandAll, one, rest]

end Relocation

/-! ## Instructions -/

/-- The operand of an instruction that says where it goes to: that of a branch, of a jump or of a call. -/
def Mnemonic.target? (m : Mnemonic) (operands : List Text) : Option Text :=
  match m with
  | .base op =>
    match op.format, operands with
    | .b, [_, _, t] => some t
    | .j, [t] => some t
    | .j, [_, t] => some t
    | _, _ => none
  | .pseudo p =>
    match p, operands with
    | .beqz, [_, t] | .bnez, [_, t] => some t
    | .j, [t] | .j1, [t] | .call, [t] => some t
    | _, _ => none

/-- The operand of an instruction that is an address to load. -/
def Mnemonic.address? (m : Mnemonic) (operands : List Text) : Option Text :=
  match m, operands with
  | .pseudo .la, [_, a] => some a
  | .pseudo .ja, [a] | .pseudo .ja, [_, a] => some a
  | _, _ => none

/-- The target of the instruction on a line. -/
def target? (l : Line) : Option Text :=
  match Text.words l.statement.body with
  | [] => none
  | name :: operands => (Mnemonic.ofText? name).bind (Mnemonic.target? · operands)

/-- The address that the instruction on a line loads. -/
def address? (l : Line) : Option Text :=
  match Text.words l.statement.body with
  | [] => none
  | name :: operands => (Mnemonic.ofText? name).bind (Mnemonic.address? · operands)

namespace Context

variable {x x' : Context}

/-- A base instruction hangs on the context by its target only. -/
theorem expandBase_congr (wrong : Except LineError (List Instruction)) (op : BaseOp) (operands : List Text)
    (hd : ∀ t, Mnemonic.target? (.base op) operands = some t → x.distance t = x'.distance t) :
    x.expandBase wrong op operands = x'.expandBase wrong op operands := by
  unfold Mnemonic.target? at hd
  unfold expandBase
  split
  · rfl
  · rfl
  · rfl
  · rfl
  · rename_i hop
    simp only [hop, Option.some.injEq, forall_eq'] at hd
    rw [hd]
  · rfl
  · rename_i hop
    simp only [hop, Option.some.injEq, forall_eq'] at hd
    rw [hd]
  · rename_i hop
    simp only [hop, Option.some.injEq, forall_eq'] at hd
    rw [hd]
  · rfl

/-- A pseudo-instruction hangs on the context by its target and by the address it loads. -/
theorem expandPseudo_congr (wrong : Except LineError (List Instruction)) (p : Pseudo) (operands : List Text)
    (hd : ∀ t, Mnemonic.target? (.pseudo p) operands = some t → x.distance t = x'.distance t)
    (hu : ∀ t, Mnemonic.address? (.pseudo p) operands = some t → ∀ rd, x.upper rd t = x'.upper rd t) :
    x.expandPseudo wrong p operands = x'.expandPseudo wrong p operands := by
  have far : ∀ rd t, Mnemonic.address? (.pseudo p) operands = some t → x.farJump rd t = x'.farJump rd t := by
    intro rd t ht
    rw [farJump, farJump, hu t ht]
  unfold expandPseudo
  split
  · rfl
  · rfl
  · rfl
  · rfl
  · rfl
  · rfl
  · rfl
  · rfl
  · rw [hd _ rfl]
  · rw [hd _ rfl]
  · rw [hd _ rfl]
  · rw [hd _ rfl]
  · rfl
  · rfl
  · rfl
  · simp only [hu _ rfl]
  · rw [hd _ rfl]
  · exact far _ _ rfl
  · simp only [far _ _ rfl]
  · rfl

theorem line_congr (l : Line) (hd : l.fault = none → ∀ t ∈ target? l, x.distance t = x'.distance t)
    (hu : ∀ t ∈ address? l, ∀ rd, x.upper rd t = x'.upper rd t) : x.line l = x'.line l := by
  unfold line
  cases hf : l.fault with
  | some message => rfl
  | none =>
    have hd := hd hf
    unfold target? at hd
    unfold address? at hu
    cases hw : Text.words l.statement.body with
    | nil => rfl
    | cons name operands =>
      simp only [hw] at hd hu
      have hexpand : x.expand name operands = x'.expand name operands := by
        unfold expand
        cases hm : Mnemonic.ofText? name with
        | none => rfl
        | some m =>
          simp only [hm, Option.bind_some] at hd hu
          cases m with
          | base op => exact expandBase_congr _ op operands hd
          | pseudo p => exact expandPseudo_congr _ p operands hd hu
      simp only [hexpand]

/-- The distance to a text label, or a number, is the same from a moved instruction. -/
theorem distance_moved (d : Word) (symbols : SymbolTable) (b : Bool) (pc : Word) {t : Text}
    (h : (Operand.resolve symbols t).isNear = true) :
    distance ⟨symbols.moved d, b, pc + d⟩ t = distance ⟨symbols, b, pc⟩ t := by
  unfold distance
  rw [Operand.resolve_moved]
  cases hr : Operand.resolve symbols t with
  | invalid => rfl
  | literal v => rfl
  | label s =>
    rw [hr] at h
    simp only [Operand.moved, Symbol.moved_address (of_decide_eq_true h), Relocation.distance_moved]

/-- In a position-independent run, addresses are loaded the same by a moved instruction. -/
theorem upper_moved (d : Word) (symbols : SymbolTable) (pc : Word) (rd : Reg) (t : Text) :
    upper ⟨symbols.moved d, true, pc + d⟩ rd t = upper ⟨symbols, true, pc⟩ rd t := by
  unfold upper
  rw [Operand.resolve_moved]
  cases Operand.resolve symbols t with
  | invalid => rfl
  | literal v => rfl
  | label s =>
    by_cases hs : s.segment = .text
    · simp only [Operand.moved, Symbol.moved_segment, hs, Symbol.moved_address hs, Relocation.distance_moved]
      rfl
    · simp [Operand.moved, hs, Symbol.moved_of_ne hs]

end Context

/-! ## Two runs -/

/-- What the text segment holds is free of where it lies. -/
structure Stages.PositionFree (s : Stages) : Prop where
  calls : ∀ p ∈ s.layout.placements, p.line.fault = none → ∀ c ∈ Relocation.calls p.line.text,
    c.1.isPositionFree s.layout.symbols c.2 = true
  /-- A target that is a label, once calls are replaced, is a text label. -/
  targets : ∀ e ∈ s.expanded, e.line.fault = none → ∀ t ∈ target? e.line,
    (Operand.resolve s.layout.symbols t).isNear = true

instance (s : Stages) : Decidable s.PositionFree :=
  decidable_of_iff
    ((∀ p ∈ s.layout.placements, p.line.fault = none → ∀ c ∈ Relocation.calls p.line.text,
        c.1.isPositionFree s.layout.symbols c.2 = true) ∧
      ∀ e ∈ s.expanded, e.line.fault = none → ∀ t ∈ target? e.line,
        (Operand.resolve s.layout.symbols t).isNear = true)
    ⟨fun h => ⟨h.1, h.2⟩, fun h => ⟨h.calls, h.targets⟩⟩

/-- The second run has in hand what the first has, with its text segment `d` further on. -/
structure Stages.Moved (d : Word) (s s' : Stages) : Prop where
  base : s'.sections.text.base = s.sections.text.base + d
  sections : s'.sections.data = s.sections.data
  data : s'.data = s.data
  layout : Layout.Moved d s.layout s'.layout

namespace Stages

variable {d : Word} {s s' : Stages}

theorem expandAll_moved (h : s.Moved d s') (hp : s.PositionFree) :
    Relocation.expandAll s'.layout.symbols {} s'.layout.placements =
      ((Relocation.expandAll s.layout.symbols {} s.layout.placements).1.map (Placement.moved d),
        (Relocation.expandAll s.layout.symbols {} s.layout.placements).2.moved d) := by
  rw [h.layout.symbols, h.layout.placements]
  exact Relocation.expandAll_moved d hp.calls {}

theorem attempts_moved (h : s.Moved d s') (hp : s.PositionFree) {o : Options} (ho : o.positionIndependent = true) :
    s'.attempts o = (s.attempts o).map fun a => ⟨a.placement.moved d, a.outcome⟩ := by
  rw [attempts, expanded, expandAll_moved h hp, attempts, List.map_map, List.map_map, h.layout.symbols]
  refine List.map_congr_left fun e he => ?_
  have same : Context.line ⟨s.layout.symbols.moved d, o.positionIndependent, e.pc + d⟩ e.line =
      Context.line ⟨s.layout.symbols, o.positionIndependent, e.pc⟩ e.line := by
    refine Context.line_congr e.line (fun hfault t ht => ?_) (fun t _ rd => ?_)
    · exact Context.distance_moved d _ _ _ (hp.targets e he hfault t ht)
    · rw [ho]
      exact Context.upper_moved d _ _ rd t
  simp only [Function.comp_apply, attempt, Placement.moved, same]

theorem errors_moved (h : s.Moved d s') (hp : s.PositionFree) {o : Options} (ho : o.positionIndependent = true) :
    s'.errors o = s.errors o := by
  rw [errors, attempts_moved h hp ho, List.filterMap_map]
  rfl

theorem words_moved (h : s.Moved d s') (hp : s.PositionFree) {o : Options} (ho : o.positionIndependent = true) :
    s'.words o = s.words o := by
  rw [words, attempts_moved h hp ho, List.flatMap_map]
  rfl

/-- A run that does not end for want of addresses is laid out without. -/
theorem layoutStage_ne_overflow {source : Text} {sections : Sections} {data : Option DataSegment}
    (h : ∀ n, ofSource source ≠ .error (.error ⟨.fatal, n, LayoutError.overflow.message⟩))
    (hs : (Sections.ofLines (Line.ofSource source)).2 = .ok sections)
    (hd : dataStage (Line.ofSource source) sections = .ok data) (line : Nat) :
    (layoutStage (Line.ofSource source) sections data).2 ≠ some ⟨line, .error .overflow⟩ := by
  intro hy
  exact h line (ofSource_error_iff.mpr (Or.inr ⟨sections, hs, Or.inr ⟨data, _, hd, hy, rfl⟩⟩))

/-- Unless one of them runs out of addresses, runs with different bases halt alike or go on side by side. -/
theorem ofSource_moved {source source' : Text} {before after : List Line} {l l' : Line} {base base' : Nat}
    (h : Line.ofSource source = before ++ l :: after) (h' : Line.ofSource source' = before ++ l' :: after)
    (ht : Sections.AwaitsText before) (hl : Sections.OrgLines l l' base base')
    (hf : ∀ n, ofSource source ≠ .error (.error ⟨.fatal, n, LayoutError.overflow.message⟩))
    (hf' : ∀ n, ofSource source' ≠ .error (.error ⟨.fatal, n, LayoutError.overflow.message⟩)) :
    (∃ halt, ofSource source = .error halt ∧ ofSource source' = .error halt) ∨
      ∃ s s', ofSource source = .ok s ∧ ofSource source' = .ok s' ∧
        s.Moved (BitVec.ofNat 32 base' - BitVec.ofNat 32 base) s' := by
  simp only [ofSource, h, h']
  rcases (Sections.ofLines_org ht hl).2 with ⟨e, hs, hs'⟩ | ⟨regions, hs, hs', hstop⟩
  · rw [hs, hs']
    exact Or.inl ⟨_, rfl, rfl⟩
  · -- the data segment ends before the line, and the text segment starts behind it
    have hdata : ∀ l text, dataStage (before ++ l :: after) ⟨regions, text⟩ = dataStage before ⟨regions, {}⟩ :=
      fun l text => dataStage_append hstop
    have text : ∀ l b, Region.lines ⟨b, before.length + 1, before.length + 1 + after.length⟩ (before ++ l :: after) =
        after := by
      intro l b
      have all : (before ++ l :: after).length ≤ before.length + 1 + after.length := by
        rw [List.length_append, List.length_cons]
        omega
      rw [Region.lines, List.take_of_length_le all, List.append_cons]
      exact List.drop_left' (by rw [List.length_append, List.length_singleton])
    simp only [hs, hs', hdata]
    cases hd : dataStage before ⟨regions, {}⟩ with
    | error halt => exact Or.inl ⟨_, rfl, rfl⟩
    | ok data =>
      have start : Layout.Moved (BitVec.ofNat 32 base' - BitVec.ofNat 32 base)
          { pc := (BitVec.ofNat 32 base).toNat, symbols := dataLabels data }
          { pc := (BitVec.ofNat 32 base').toNat, symbols := dataLabels data } := by
        refine ⟨?_, ?_, rfl, rfl⟩
        · simp only [Layout.address, BitVec.ofNat_toNat, BitVec.setWidth_eq]
          bv_omega
        · exact (SymbolTable.moved_of_ofData (fun s hs => (dataStage_ofData hd s hs).2) _).symm
      have fits := layoutStage_ne_overflow hf (by rw [h, hs]) (by rw [h, hdata, hd])
      have fits' := layoutStage_ne_overflow hf' (by rw [h', hs']) (by rw [h', hdata, hd])
      simp only [h, h', layoutStage, text, Layout.ofLines] at fits fits' ⊢
      rcases Layout.place_moved start after fits fits' with
        ⟨fault, fault', hp, hp', hend⟩ | ⟨z, z', hp, hp', hz⟩
      · left
        refine ⟨fault.ending, ?_, ?_⟩
        · rw [← Prod.eta (Layout.place _ _), hp]
        · rw [← Prod.eta (Layout.place _ _), hp', hend]
      · right
        rw [hp, hp']
        refine ⟨_, _, rfl, rfl, ?_, rfl, rfl, hz⟩
        show BitVec.ofNat 32 base' = BitVec.ofNat 32 base + (BitVec.ofNat 32 base' - BitVec.ofNat 32 base)
        bv_omega

end Stages

/-- What two runs come to when the text segment of the second lies `d` further on. -/
structure Result.Moved (d : Word) (r r' : Result) : Prop where
  base : r'.sections.text.base = r.sections.text.base + d
  errors : r'.errors = r.errors
  warnings : r'.warnings = r.warnings
  /-- The text is the same, byte by byte, or there is none. -/
  text : r'.text.map Image.payload = r.text.map Image.payload
  data : r'.data = r.data
  /-- The labels are the same, those of the text segment moved. -/
  symbols : r'.symbols.entries = r.symbols.entries.map (Symbol.moved d)

theorem Stages.result_moved {d : Word} {s s' : Stages} (h : s.Moved d s') (hp : s.PositionFree) {o : Options}
    (ho : o.positionIndependent = true) {source source' : Text} (hw : orgWarnings source' = orgWarnings source) :
    Result.Moved d (s.result o source) (s'.result o source') where
  base := h.base
  errors := errors_moved h hp ho
  warnings := by
    simp only [result, warnings, hw, h.layout.ignored, expandAll_moved h hp]
    rfl
  text := by
    simp only [result, errors_moved h hp ho, words_moved h hp ho]
    split <;> rfl
  data := by
    simp only [result, errors_moved h hp ho, dataImage, h.sections, h.data]
  symbols := by
    simp only [result, h.layout.symbols]
    rfl

/-- A position-independent run gives the same text and data wherever the text segment lies. -/
theorem position_independent (o : Options) (ho : o.positionIndependent = true) (source source' : Text)
    (before after : List Text) (raw raw' : Text) (base base' : Nat)
    (h : Line.rawLines source = before ++ raw :: after) (h' : Line.rawLines source' = before ++ raw' :: after)
    (ht : Sections.AwaitsText (Line.numbered 1 before))
    (hl : Sections.OrgLines (Line.ofRaw (before.length + 1) raw) (Line.ofRaw (before.length + 1) raw') base base')
    (hf : ∀ n, (assemble o source).outcome ≠ .error (.error ⟨.fatal, n, LayoutError.overflow.message⟩))
    (hf' : ∀ n, (assemble o source').outcome ≠ .error (.error ⟨.fatal, n, LayoutError.overflow.message⟩))
    (hp : ∀ s, Stages.ofSource source = .ok s → s.PositionFree) :
    (∀ halt, (assemble o source).outcome = .error halt ↔ (assemble o source').outcome = .error halt) ∧
      ∀ r r', (assemble o source).outcome = .ok r → (assemble o source').outcome = .ok r' →
        r.Moved (BitVec.ofNat 32 base' - BitVec.ofNat 32 base) r' := by
  have hls := Line.ofSource_of_rawLines h
  have hls' := Line.ofSource_of_rawLines h'
  have runs : ∀ {source n}, (assemble o source).outcome ≠ .error (.error ⟨.fatal, n, LayoutError.overflow.message⟩) →
      Stages.ofSource source ≠ .error (.error ⟨.fatal, n, LayoutError.overflow.message⟩) := by
    intro source n hne e
    rw [assemble_eq, e] at hne
    exact hne rfl
  apply assemble_alike
  rcases Stages.ofSource_moved hls hls' ht hl (fun n => runs (hf n)) (fun n => runs (hf' n)) with
    halts | ⟨s, s', hs, hs', hm⟩
  · exact Or.inl halts
  · have hw : orgWarnings source' = orgWarnings source := by
      rw [orgWarnings, orgWarnings, hls, hls', (Sections.ofLines_org ht hl).1]
    exact Or.inr ⟨s, s', hs, hs', Stages.result_moved hm (hp s hs) ho hw⟩

/-- A program that goes to text labels and reads a data label, with the line that sets its base left open. -/
def programAt (org : Text) : Text :=
  Text.unlines [".section .data", ".org 0x100", "v: .word 5", ".section .text", org, "s: lw a1, %lo(v)(zero)",
    "auipc a2, %pcrel_hi(f)", "addi a2, a2, %pcrel_lo(f)", "la a3, f", "beq a0, a1, s", "f: ret"]

/-- At the lowest address and up to the highest one. -/
theorem position_independent_top :
    ∃ r r', (assemble { positionIndependent := true } (programAt ".org 0x0")).outcome = .ok r ∧
      (assemble { positionIndependent := true } (programAt ".org 0xFFFFFFE4")).outcome = .ok r' ∧
      r.text.map Image.words =
        some [0x10002583, 0x00000617, 0x01460613, 0x00000697, 0x00C68693, 0xFEB506E3, 0x00008067] ∧
      r.Moved 0xFFFFFFE4 r' := by
  have run : ((assemble { positionIndependent := true } (programAt ".org 0x0")).outcome.toOption.map
      (·.text.map Image.words)) = some (some
        [0x10002583, 0x00000617, 0x01460613, 0x00000697, 0x00C68693, 0xFEB506E3, 0x00008067]) := by
    decide +kernel
  have run' : (assemble { positionIndependent := true } (programAt ".org 0xFFFFFFE4")).outcome.toOption.isSome = true := by
    decide +kernel
  have free : (Stages.ofSource (programAt ".org 0x0")).toOption.all (fun s => decide s.PositionFree) = true := by
    decide +kernel
  obtain ⟨r, hr, hwords⟩ := Option.map_eq_some_iff.mp run
  obtain ⟨r', hr'⟩ := Option.isSome_iff_exists.mp run'
  have hok := Source.toOption_eq_some hr
  have hok' := Source.toOption_eq_some hr'
  refine ⟨r, r', hok, hok', hwords, ?_⟩
  have awaits : Sections.AwaitsText (Line.numbered 1 [".section .data", ".org 0x100", "v: .word 5", ".section .text"]) :=
    ⟨by decide +kernel, 4, by decide +kernel⟩
  have orgs : Sections.OrgLines (Line.ofRaw 5 ".org 0x0") (Line.ofRaw 5 ".org 0xFFFFFFE4") 0 0xFFFFFFE4 :=
    ⟨by decide +kernel, by decide +kernel, by decide +kernel, Source.toOption_eq_some (by decide +kernel),
      Source.toOption_eq_some (by decide +kernel)⟩
  refine (position_independent { positionIndependent := true } rfl (programAt ".org 0x0") (programAt ".org 0xFFFFFFE4")
    _ ["s: lw a1, %lo(v)(zero)", "auipc a2, %pcrel_hi(f)", "addi a2, a2, %pcrel_lo(f)", "la a3, f", "beq a0, a1, s",
      "f: ret"] _ _ 0 0xFFFFFFE4 (by decide +kernel) (by decide +kernel) awaits orgs ?_ ?_ ?_).2 r r' hok hok'
  · intro n e
    rw [hok] at e
    cases e
  · intro n e
    rw [hok'] at e
    cases e
  · intro s hs
    rw [hs] at free
    exact of_decide_eq_true free

end Rv32Tools.Assembly
