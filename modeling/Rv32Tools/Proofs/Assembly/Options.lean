import Rv32Tools.Proofs.Assembly.Addresses
import Rv32Tools.Proofs.Assembly.PositionIndependence

/-
  Rv32Tools.Proofs.Assembly.Options — options change what they name, and nothing else.

  The stages of a run know nothing of its options, so any two runs of a source halt alike. What is left is the encoder,
  and there a single step asks for the mode: the upper half of an address that is a text label. Hence a line comes to
  the same in both modes, or it is an `la` or `ja` of a text label and differs in its first two words
  (`Context.line_mode`). It is in error in both modes or in neither, and it takes up the same room, so errors
  (`Stages.errors_mode`) and addresses are the same, and the words differ at such lines only (`words_mode`).
  The listing is the one other thing that hangs on options (`options_change_only`).
-/

namespace Rv32Tools.Assembly

open Source (Line)
open Layout (along placedOn)

/-- The line is an `la` or `ja`, and its address is a text label. -/
def LoadsTextLabel (symbols : SymbolTable) (l : Line) : Prop :=
  ∃ token symbol, address? l = some token ∧ Operand.resolve symbols token = .label symbol ∧ symbol.segment = .text

theorem Mnemonic.address?_eq_some {m : Mnemonic} {operands : List Text} {a : Text} (h : address? m operands = some a) :
    m = .pseudo .la ∧ (∃ r, operands = [r, a]) ∨ m = .pseudo .ja ∧ (operands = [a] ∨ ∃ r, operands = [r, a]) := by
  unfold address? at h
  split at h
  · cases h
    exact Or.inl ⟨rfl, _, rfl⟩
  · cases h
    exact Or.inr ⟨rfl, Or.inl rfl⟩
  · cases h
    exact Or.inr ⟨rfl, Or.inr ⟨_, rfl⟩⟩
  · cases h

/-! ## One line in two modes -/

namespace Context

variable (symbols : SymbolTable) (pc : Word) (b b' : Bool)

/-- An address that is no text label is loaded the same in both modes. -/
theorem upper_mode {token : Text}
    (h : ∀ symbol, Operand.resolve symbols token = .label symbol → symbol.segment ≠ .text) (rd : Reg) :
    upper ⟨symbols, b, pc⟩ rd token = upper ⟨symbols, b', pc⟩ rd token := by
  unfold upper
  cases hr : Operand.resolve symbols token with
  | invalid => rfl
  | literal v => rfl
  | label symbol => simp [h symbol hr]

theorem upper_of_label {token : Text} {symbol : Symbol} (h : Operand.resolve symbols token = .label symbol) (rd : Reg) :
    ∃ up low, upper ⟨symbols, b, pc⟩ rd token = .ok (up, low) := by
  unfold upper
  simp only [h]
  split
  · exact ⟨_, _, rfl⟩
  · exact ⟨_, _, rfl⟩

/-- The same outcome, or instructions that differ in the first two. -/
def SameBehindTwo {ε : Type} (x x' : Except ε (List Instruction)) : Prop :=
  x = x' ∨ ∃ i j i' j' tail, x = .ok (i :: j :: tail) ∧ x' = .ok (i' :: j' :: tail)

theorem farJump_mode {token : Text} {symbol : Symbol} (h : Operand.resolve symbols token = .label symbol) (rd : Reg) :
    SameBehindTwo (farJump ⟨symbols, b, pc⟩ rd token) (farJump ⟨symbols, b', pc⟩ rd token) := by
  obtain ⟨up, low, hu⟩ := upper_of_label symbols pc b h rd
  obtain ⟨up', low', hu'⟩ := upper_of_label symbols pc b' h rd
  right
  refine ⟨up, { op := .addi, rd, rs1 := rd, imm := low }, up', { op := .addi, rd, rs1 := rd, imm := low' },
    [{ op := .jalr, rs1 := rd }], ?_, ?_⟩
  · rw [farJump, hu]
    rfl
  · rw [farJump, hu']
    rfl

/-- An instruction that loads a label differs in the two words that load it. -/
theorem expandPseudo_mode (wrong : Except LineError (List Instruction)) {p : Pseudo} {operands : List Text} {token : Text}
    {symbol : Symbol} (ha : Mnemonic.address? (.pseudo p) operands = some token)
    (h : Operand.resolve symbols token = .label symbol) :
    SameBehindTwo (expandPseudo ⟨symbols, b, pc⟩ wrong p operands) (expandPseudo ⟨symbols, b', pc⟩ wrong p operands) := by
  rcases Mnemonic.address?_eq_some ha with ⟨hm, r, rfl⟩ | ⟨hm, rfl | ⟨r, rfl⟩⟩
  · cases hm
    simp only [expandPseudo]
    cases hrd : register r with
    | error e => exact Or.inl rfl
    | ok rd =>
      obtain ⟨up, low, hu⟩ := upper_of_label symbols pc b h rd
      obtain ⟨up', low', hu'⟩ := upper_of_label symbols pc b' h rd
      refine Or.inr ⟨up, { op := .addi, rd, rs1 := rd, imm := low }, up', { op := .addi, rd, rs1 := rd, imm := low' },
        [], ?_, ?_⟩
      · simp only [bind, Except.bind, hu]
        rfl
      · simp only [bind, Except.bind, hu']
        rfl
  · cases hm
    exact farJump_mode symbols pc b b' h .t1
  · cases hm
    simp only [expandPseudo]
    cases hrd : register r with
    | error e => exact Or.inl rfl
    | ok rd => exact farJump_mode symbols pc b b' h rd

/-- The mode has a part in nothing but the first two words of an `la` or `ja` of a text label. -/
theorem line_mode (l : Line) :
    line ⟨symbols, b, pc⟩ l = line ⟨symbols, b', pc⟩ l ∨
      LoadsTextLabel symbols l ∧ SameBehindTwo (line ⟨symbols, b, pc⟩ l) (line ⟨symbols, b', pc⟩ l) := by
  by_cases hl : LoadsTextLabel symbols l
  · right
    refine ⟨hl, ?_⟩
    obtain ⟨token, symbol, ha, hr, -⟩ := hl
    unfold address? at ha
    unfold line
    cases l.fault with
    | some message => exact Or.inl rfl
    | none =>
      cases hw : Text.words l.statement.body with
      | nil => exact Or.inl rfl
      | cons name operands =>
        simp only [hw] at ha
        obtain ⟨m, hm, hma⟩ := Option.bind_eq_some_iff.mp ha
        obtain ⟨p, rfl⟩ : ∃ p, m = .pseudo p := by
          rcases Mnemonic.address?_eq_some hma with ⟨rfl, -⟩ | ⟨rfl, -⟩
          · exact ⟨.la, rfl⟩
          · exact ⟨.ja, rfl⟩
        simp only [expand, hm]
        rcases expandPseudo_mode symbols pc b b'
          (.error (.operandCount name (Mnemonic.pseudo p).operandCounts operands.length)) hma hr with
          he | ⟨i, j, i', j', tail, hi, hi'⟩
        · rw [he]
          exact Or.inl rfl
        · rw [hi, hi']
          exact Or.inr ⟨i, j, i', j', tail, rfl, rfl⟩
  · left
    refine line_congr l (fun _ _ _ => rfl) fun token ha rd => ?_
    refine upper_mode symbols pc b b' (fun symbol hr ht => ?_) rd
    exact hl ⟨token, symbol, ha, hr, ht⟩

end Context

/-! ## The lines of a run in two modes -/

/-- One placed line, encoded in two modes. -/
structure Attempt.InModes (symbols : SymbolTable) (a a' : Attempt) : Prop where
  placement : a.placement = a'.placement
  outcome : a.outcome = a'.outcome ∨
    LoadsTextLabel symbols a.placement.line ∧ Context.SameBehindTwo a.outcome a'.outcome

namespace Attempt.InModes

variable {symbols : SymbolTable} {a a' : Attempt} (h : InModes symbols a a')

include h

theorem same : Context.SameBehindTwo a.outcome a'.outcome := by
  rcases h.outcome with he | ⟨-, hs⟩
  · exact Or.inl he
  · exact hs

theorem error? : a.error? = a'.error? := by
  unfold Attempt.error?
  rcases h.same with he | ⟨i, j, i', j', tail, hi, hi'⟩
  · rw [he, h.placement]
  · rw [hi, hi']

theorem words_length : a.words.length = a'.words.length := by
  unfold Attempt.words
  rcases h.same with he | ⟨i, j, i', j', tail, hi, hi'⟩
  · rw [he]
  · rw [hi, hi']
    rfl

/-- A word that differs is one of the first two of a line that loads a text label. -/
theorem words {k : Nat} (hk : a.words[k]? ≠ a'.words[k]?) : LoadsTextLabel symbols a.placement.line ∧ k < 2 := by
  rcases h.outcome with he | ⟨hl, hs⟩
  · rw [Attempt.words, Attempt.words, he] at hk
    exact absurd rfl hk
  · refine ⟨hl, ?_⟩
    rcases hs with he | ⟨i, j, i', j', tail, hi, hi'⟩
    · rw [Attempt.words, Attempt.words, he] at hk
      exact absurd rfl hk
    · rw [Attempt.words_of_ok hi, Attempt.words_of_ok hi'] at hk
      by_contra hlarge
      obtain ⟨n, rfl⟩ := Nat.exists_eq_add_of_le (show 2 ≤ k by omega)
      rw [Nat.add_comm] at hk
      exact hk rfl

end Attempt.InModes

/-- The words of lines in two modes differ at lines that load a text label, in the first two words. -/
theorem words_mode {symbols : SymbolTable} {as as' : List Attempt} (h : List.Forall₂ (Attempt.InModes symbols) as as') :
    (as.flatMap Attempt.words).length = (as'.flatMap Attempt.words).length ∧
      ∀ k, (as.flatMap Attempt.words)[k]? ≠ (as'.flatMap Attempt.words)[k]? →
        ∃ m a j, as[m]? = some a ∧ LoadsTextLabel symbols a.placement.line ∧ j < 2 ∧
          k = ((as.take m).flatMap Attempt.words).length + j := by
  induction h with
  | nil => exact ⟨rfl, fun k hk => absurd rfl hk⟩
  | @cons a a' as as' ha _ ih =>
    have hlength := ha.words_length
    simp only [List.flatMap_cons, List.length_append]
    refine ⟨by rw [hlength, ih.1], fun k hk => ?_⟩
    by_cases hin : k < a.words.length
    · rw [List.getElem?_append_left hin, List.getElem?_append_left (hlength ▸ hin)] at hk
      obtain ⟨hl, hk⟩ := ha.words hk
      exact ⟨0, a, k, rfl, hl, hk, by simp⟩
    · rw [List.getElem?_append_right (by omega), List.getElem?_append_right (by omega), ← hlength] at hk
      obtain ⟨m, c, j, hm, hl, hj, hk⟩ := ih.2 _ hk
      refine ⟨m + 1, c, j, hm, hl, hj, ?_⟩
      rw [List.take_succ_cons, List.flatMap_cons, List.length_append]
      omega

namespace Stages

variable (s : Stages) (o o' : Options)

theorem attempts_mode : List.Forall₂ (Attempt.InModes s.layout.symbols) (s.attempts o) (s.attempts o') := by
  rw [attempts, attempts, List.forall₂_map_left_iff, List.forall₂_map_right_iff, List.forall₂_same]
  intro e _
  exact ⟨rfl, Context.line_mode s.layout.symbols e.pc o.positionIndependent o'.positionIndependent e.line⟩

theorem errors_mode : s.errors o = s.errors o' := by
  unfold errors
  have h := attempts_mode s o o'
  generalize s.attempts o = as at h ⊢
  generalize s.attempts o' = as' at h ⊢
  induction h with
  | nil => rfl
  | cons ha _ ih => rw [List.filterMap_cons, List.filterMap_cons, ha.error?, ih]

variable {s} {source : Text}

/-- A word that differs stands in the first two of an `la` or `ja` of a text label. -/
theorem words_of_ne (h : ofSource source = .ok s) (he : s.errors o = []) {k : Nat}
    (hk : (s.words o)[k]? ≠ (s.words o')[k]?) :
    ∃ e ∈ s.expanded, LoadsTextLabel s.layout.symbols e.line ∧
      (s.sections.text.base.toNat + 4 * k = e.pc.toNat ∨ s.sections.text.base.toNat + 4 * k = e.pc.toNat + 4) := by
  obtain ⟨m, a, j, hm, hl, hj, rfl⟩ := (words_mode (attempts_mode s o o')).2 k hk
  rw [attempts, List.getElem?_map] at hm
  obtain ⟨e, hem, rfl⟩ := Option.map_eq_some_iff.mp hm
  refine ⟨e, List.mem_of_getElem? hem, hl, ?_⟩
  -- the line was placed at the address that the words before it come to
  have hplaced := (laidOut h).placements
  rw [List.nil_append] at hplaced
  have hx := placements_expanded h
  rw [← hplaced] at hx
  obtain ⟨hlt, rfl⟩ := List.getElem?_eq_some_iff.mp hem
  have hlt' : m < s.layout.placements.length := hx.length_eq ▸ hlt
  have hpc := placement_pc h he (List.getElem?_eq_getElem hlt')
  have hsame : s.expanded[m].pc = s.layout.placements[m].pc := (hx.get hlt' hlt).pc
  rw [hsame, hpc]
  omega

end Stages

/-- What two runs of a source have in common whatever their options are, and where they can differ. -/
structure DifferByOptions (o o' : Options) (s : Stages) (r r' : Result) : Prop where
  sections : r.sections = r'.sections
  symbols : r.symbols = r'.symbols
  warnings : r.warnings = r'.warnings
  errors : r.errors = r'.errors
  counts : r.lines = r'.lines ∧ r.instructions = r'.instructions ∧ r.failed = r'.failed ∧ r.relocations = r'.relocations
  data : r.data = r'.data
  /-- In one mode, the results differ in the listing only. -/
  listing : o.positionIndependent = o'.positionIndependent → r' = { r with listing := r'.listing }
  text : r.text.isSome = r'.text.isSome
  words : ∀ i i', r.text = some i → r'.text = some i' →
    i.preamble = i'.preamble ∧ i.base = i'.base ∧ i.words.length = i'.words.length ∧
      ∀ k, i.words[k]? ≠ i'.words[k]? → ∃ e ∈ s.expanded, LoadsTextLabel r.symbols e.line ∧
        (i.base.toNat + 4 * k = e.pc.toNat ∨ i.base.toNat + 4 * k = e.pc.toNat + 4)

theorem Stages.differByOptions {s : Stages} {source : Text} (h : ofSource source = .ok s) (o o' : Options) :
    DifferByOptions o o' s (s.result o source) (s.result o' source) where
  sections := rfl
  symbols := rfl
  warnings := rfl
  errors := s.errors_mode o o'
  counts := ⟨rfl, rfl, congrArg List.length (s.errors_mode o o'), rfl⟩
  data := by simp only [result, s.errors_mode o o']
  listing := by
    intro hmode
    have hattempts : s.attempts o' = s.attempts o := by
      rw [attempts, attempts]
      refine List.map_congr_left fun e _ => ?_
      rw [attempt, attempt, hmode]
    rw [result, result, errors, errors, Stages.words, Stages.words, hattempts]
  text := by
    simp only [result, s.errors_mode o o']
    split
    · rw [Option.isSome_some, Option.isSome_some]
    · rfl
  words := by
    intro i i' hi hi'
    simp only [result, Option.ite_none_right_eq_some, Option.some.injEq, List.isEmpty_iff] at hi hi'
    obtain ⟨he, rfl⟩ := hi
    obtain ⟨-, rfl⟩ := hi'
    simp only [Image.words_ofText, Image.ofText_preamble, Image.ofText_base, true_and]
    refine ⟨(words_mode (s.attempts_mode o o')).1, fun k hk => ?_⟩
    exact words_of_ne o o' h he hk

/-- Options change what they name: the listing, and the words that load a text label. -/
theorem options_change_only (o o' : Options) (source : Text) :
    (∀ halt, (assemble o source).outcome = .error halt ↔ (assemble o' source).outcome = .error halt) ∧
      ∀ r r', (assemble o source).outcome = .ok r → (assemble o' source).outcome = .ok r' →
        ∃ s, Stages.ofSource source = .ok s ∧ DifferByOptions o o' s r r' := by
  apply assemble_alike
  cases h : Stages.ofSource source with
  | error halt => exact Or.inl ⟨halt, rfl, rfl⟩
  | ok s => exact Or.inr ⟨s, s, rfl, rfl, s, rfl, Stages.differByOptions h o o'⟩

/-- A text label and a data label, each loaded and jumped to. -/
def labelSource : Text :=
  Text.unlines [".section .data", ".org 0x100", "d: .word 7", ".section .text", ".org 0x0", "f: la a0, d", "la a1, f",
    "ja f"]

/-- In two modes, the third and fourth word differ, which load `f`, and so do the first two of the far jump to it. -/
theorem options_change_only_labels :
    ∃ r r' i i' s, (assemble {} labelSource).outcome = .ok r ∧
      (assemble { positionIndependent := true, listing := true } labelSource).outcome = .ok r' ∧
      r.text = some i ∧ r'.text = some i' ∧ (List.range 7).filter (fun k => i.words[k]? ≠ i'.words[k]?) = [2, 3, 4, 5] ∧
      DifferByOptions {} { positionIndependent := true, listing := true } s r r' := by
  have run : ((assemble {} labelSource).outcome.toOption.bind fun r => r.text.map Image.words) =
      some [0x00000537, 0x10050513, 0x000005B7, 0x00058593, 0x00000337, 0x00030313, 0x00030067] := by decide +kernel
  have run' : ((assemble { positionIndependent := true, listing := true } labelSource).outcome.toOption.bind
      fun r => r.text.map Image.words) =
      some [0x00000537, 0x10050513, 0x00000597, 0xFF858593, 0x00000317, 0xFF030313, 0x00030067] := by decide +kernel
  obtain ⟨r, hr, hi⟩ := Option.bind_eq_some_iff.mp run
  obtain ⟨r', hr', hi'⟩ := Option.bind_eq_some_iff.mp run'
  obtain ⟨i, hi, hw⟩ := Option.map_eq_some_iff.mp hi
  obtain ⟨i', hi', hw'⟩ := Option.map_eq_some_iff.mp hi'
  obtain ⟨s, -, differ⟩ := (options_change_only {} { positionIndependent := true, listing := true } labelSource).2 r r'
    (Source.toOption_eq_some hr) (Source.toOption_eq_some hr')
  refine ⟨r, r', i, i', s, Source.toOption_eq_some hr, Source.toOption_eq_some hr', hi, hi', ?_, differ⟩
  rw [hw, hw']
  decide +kernel

end Rv32Tools.Assembly
