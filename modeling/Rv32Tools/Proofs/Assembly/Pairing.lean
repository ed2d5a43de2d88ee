import Rv32Tools.Proofs.Assembly.Emitted
import Rv32Tools.Proofs.Isa.Fields
import Rv32Tools.Proofs.Source.Reading

/-
  Rv32Tools.Proofs.Assembly.Pairing — the two halves of an address fit each other.

  `Rewritten` says what becomes of a line, and which calls were replaced on it: a call whose argument has a value gives
  way to a number, and every other byte stays. Laid end to end the replacements of all lines are a history, and
  `Remembers` ties the memory that is carried along to it: the anchor of an argument is the last `%pcrel_hi` of the
  history, the warnings are its orphans, and each number is the half that its relocation asks for (`Fits`). One call
  keeps this (`value_remembers`), hence a line (`expandFrom_rewritten`), hence the text segment (`expandAll_rewritten`).
  `relocations_paired` reads off what the halves come to.
-/

namespace Rv32Tools.Assembly.Relocation

open Source (Line)

/-! ## Calls -/

def name : Relocation → Text
  | .hi => "hi"
  | .lo => "lo"
  | .pcrelHi => "pcrel_hi"
  | .pcrelLo => "pcrel_lo"

/-- A text that starts with a call, in any case, and what follows the call. -/
structure IsCall (s : Text) (m : Relocation) (argument rest : Text) : Prop where
  spelled : ∃ letters, letters.map Text.lowerByte = m.name ∧ s = 0x25 :: (letters ++ 0x28 :: (argument ++ 0x29 :: rest))
  argument_ne : argument ≠ []
  argument_bytes : ∀ b ∈ argument, isArgumentByte b = true

theorem ofName?_eq_some_iff {letters : Text} {m : Relocation} :
    ofName? letters = some m ↔ letters.map Text.lowerByte = m.name := by
  unfold ofName?
  constructor
  · intro h
    grind [name]
  · intro h
    rw [h]
    cases m <;> decide

theorem isWordByte_of_name {letters : Text} {m : Relocation} (h : letters.map Text.lowerByte = m.name) :
    ∀ b ∈ letters, Text.isWordByte b = true := by
  have lower : ∀ b, Text.isWordByte (Text.lowerByte b) = true → Text.isWordByte b = true :=
    Text.forall_byte (by decide +kernel)
  have hname : ∀ b ∈ m.name, Text.isWordByte b = true := by cases m <;> decide +kernel
  intro b hb
  exact lower b (hname _ (h ▸ List.mem_map_of_mem hb))

theorem call?_eq_some_iff {s argument rest : Text} {m : Relocation} :
    call? s = some (m, argument, rest) ↔ IsCall (0x25 :: s) m argument rest := by
  constructor
  · intro h
    unfold call? at h
    split at h
    · rename_i m' r hname hr
      split at h
      · rename_i a arg rest' ha hrest
        simp only [Option.some.injEq, Prod.mk.injEq] at h
        obtain ⟨rfl, rfl, rfl⟩ := h
        have hs : s = s.takeWhile Text.isWordByte ++ 0x28 :: r := by
          rw [← hr, List.takeWhile_append_dropWhile]
        have hr' : r = (a :: arg) ++ 0x29 :: rest' := by rw [← ha, ← hrest, List.takeWhile_append_dropWhile]
        refine ⟨⟨_, ofName?_eq_some_iff.mp hname, ?_⟩, List.cons_ne_nil _ _, fun b hb => ?_⟩
        · rw [← hr', ← hs]
        · exact List.mem_takeWhile_imp (ha ▸ hb)
      · cases h
    · cases h
  · rintro ⟨⟨letters, hname, hs⟩, hne, hbytes⟩
    obtain ⟨-, rfl⟩ := List.cons.inj hs
    obtain ⟨htake, hdrop⟩ := Source.takeWhile_append_cons (isWordByte_of_name hname) 0x28 (by decide) (argument ++ 0x29 :: rest)
    obtain ⟨htake', hdrop'⟩ := Source.takeWhile_append_cons hbytes 0x29 (by decide) rest
    obtain ⟨a, arg, rfl⟩ := List.exists_cons_of_ne_nil hne
    rw [call?, htake, hdrop, ofName?_eq_some_iff.mpr hname]
    simp only [htake', hdrop']

/-! ## Replacements -/

/-- A call that was replaced: its line and address, what it asked for, and the number in its place. -/
structure Replacement where
  number : Nat
  pc : Word
  relocation : Relocation
  argument : Text
  target : Word
  value : Word

/-- A text on the line `number` at `pc`, the calls replaced in it from left to right, and the text then. -/
inductive Rewritten (symbols : SymbolTable) (number : Nat) (pc : Word) : Text → List Replacement → Text → Prop
  | nil : Rewritten symbols number pc [] [] []
  | keep {b : UInt8} {s t : Text} {cs : List Replacement}
      (h : ∀ m argument rest, IsCall (b :: s) m argument rest → (Operand.resolve symbols argument).word? = none)
      (hs : Rewritten symbols number pc s cs t) : Rewritten symbols number pc (b :: s) cs (b :: t)
  | replace {s argument rest t : Text} {m : Relocation} {target value : Word} {cs : List Replacement}
      (h : IsCall s m argument rest) (ht : (Operand.resolve symbols argument).word? = some target)
      (hs : Rewritten symbols number pc rest cs t) :
      Rewritten symbols number pc s (⟨number, pc, m, argument, target, value⟩ :: cs) (numeral value ++ t)

/-- The last `%pcrel_hi` of an argument. -/
def anchor? (done : List Replacement) (argument : Text) : Option Replacement :=
  done.reverse.find? fun h => decide (h.relocation = .pcrelHi) && decide (h.argument = argument)

/-- Whether a call is a `%pcrel_lo` without a `%pcrel_hi` of its argument before it. -/
def Replacement.isOrphan (c : Replacement) (done : List Replacement) : Bool :=
  decide (c.relocation = .pcrelLo) && (anchor? done c.argument).isNone

/-- The orphans among replacements that come after others. -/
def orphansAfter : (done : List Replacement) → List Replacement → List Replacement
  | _, [] => []
  | done, c :: r => (if c.isOrphan done then [c] else []) ++ orphansAfter (done ++ [c]) r

def orphans (cs : List Replacement) : List Replacement := orphansAfter [] cs

theorem orphansAfter_append (done cs : List Replacement) (c : Replacement) :
    orphansAfter done (cs ++ [c]) = orphansAfter done cs ++ if c.isOrphan (done ++ cs) then [c] else [] := by
  induction cs generalizing done with
  | nil => simp [orphansAfter]
  | cons d cs ih =>
    simp only [List.cons_append, orphansAfter, ih, List.append_assoc, List.nil_append]

theorem orphans_append (cs : List Replacement) (c : Replacement) :
    orphans (cs ++ [c]) = orphans cs ++ if c.isOrphan cs then [c] else [] := orphansAfter_append [] cs c

theorem anchor?_append (done : List Replacement) (c : Replacement) (argument : Text) :
    anchor? (done ++ [c]) argument =
      if c.relocation = .pcrelHi ∧ c.argument = argument then some c else anchor? done argument := by
  simp only [anchor?, List.reverse_append, List.reverse_singleton, List.singleton_append, List.find?_cons]
  grind

/-! ## What is remembered -/

/-- The number in the place of a call is the half that its relocation asks for. -/
def Fits (done : List Replacement) (c : Replacement) : Prop :=
  c.value = match c.relocation with
    | .hi => c.target.highRounded.setWidth 32
    | .lo => c.target.low.setWidth 32
    | .pcrelHi => (c.target - c.pc).highRounded.setWidth 32
    | .pcrelLo => (c.target - ((anchor? done c.argument).map (·.pc)).getD c.pc).low.setWidth 32

/-- Memory after the calls `done`. -/
structure Remembers (symbols : SymbolTable) (memory : Memory) (done : List Replacement) : Prop where
  anchors : ∀ argument, memory.anchors.lookup argument = (anchor? done argument).map (·.pc)
  unanchored : memory.unanchored = (orphans done).map fun c => (c.number, c.argument)
  replaced : memory.replaced = done.length
  resolved : ∀ c ∈ done, (Operand.resolve symbols c.argument).word? = some c.target
  fits : ∀ before c after, done = before ++ c :: after → Fits before c

theorem Remembers.start (symbols : SymbolTable) : Remembers symbols {} [] where
  anchors := fun _ => rfl
  unanchored := rfl
  replaced := rfl
  resolved := nofun
  fits := by simp

/-- One more call is remembered as an anchor if it is one, as an orphan if it is one, and by its number. -/
theorem Remembers.snoc {symbols : SymbolTable} {memory memory' : Memory} {done : List Replacement} {c : Replacement}
    (h : Remembers symbols memory done)
    (hanchors : ∀ argument, memory'.anchors.lookup argument =
      if c.relocation = .pcrelHi ∧ c.argument = argument then some c.pc else memory.anchors.lookup argument)
    (hunanchored : memory'.unanchored = memory.unanchored ++ if c.isOrphan done then [(c.number, c.argument)] else [])
    (hreplaced : memory'.replaced = memory.replaced + 1)
    (hresolved : (Operand.resolve symbols c.argument).word? = some c.target) (hfits : Fits done c) :
    Remembers symbols memory' (done ++ [c]) where
  anchors := by
    intro argument
    rw [hanchors, anchor?_append, h.anchors]
    by_cases hc : c.relocation = .pcrelHi ∧ c.argument = argument
    · simp only [hc, and_self, if_true, Option.map_some]
    · simp only [hc, if_false]
  unanchored := by
    rw [hunanchored, orphans_append, h.unanchored, List.map_append]
    cases c.isOrphan done <;> rfl
  replaced := by rw [hreplaced, h.replaced, List.length_append, List.length_singleton]
  resolved := by
    intro d hd
    rcases List.mem_append.mp hd with hd | hd
    · exact h.resolved d hd
    · rw [List.mem_singleton.mp hd]
      exact hresolved
  fits := by
    intro before d after hsplit
    rcases List.eq_nil_or_concat after with rfl | ⟨rest, x, rfl⟩
    · obtain ⟨rfl, hcd⟩ := List.append_inj' hsplit rfl
      rw [← (List.cons.inj hcd).1]
      exact hfits
    · rw [List.concat_eq_append, ← List.cons_append, ← List.append_assoc] at hsplit
      exact h.fits before d rest (List.append_inj' hsplit rfl).1

/-- One call is remembered as it should be. -/
theorem value_remembers {symbols : SymbolTable} {memory : Memory} {done : List Replacement}
    (h : Remembers symbols memory done) (number : Nat) (pc : Word) (m : Relocation) {argument : Text} {target : Word}
    (ht : (Operand.resolve symbols argument).word? = some target) :
    Remembers symbols (value memory number pc m argument target).2
      (done ++ [⟨number, pc, m, argument, target, (value memory number pc m argument target).1⟩]) := by
  cases m with
  | hi => exact h.snoc (by simp [value]) (by simp [value, Replacement.isOrphan]) rfl ht rfl
  | lo => exact h.snoc (by simp [value]) (by simp [value, Replacement.isOrphan]) rfl ht rfl
  | pcrelHi =>
    refine h.snoc (fun other => ?_) (by simp [value, Replacement.isOrphan]) rfl ht rfl
    simp only [value, List.lookup_cons, true_and]
    grind
  | pcrelLo =>
    have hanchor := h.anchors argument
    unfold value
    cases ha : anchor? done argument with
    | some anchor =>
      rw [ha, Option.map_some] at hanchor
      simp only [hanchor]
      exact h.snoc (by simp) (by simp [Replacement.isOrphan, ha]) rfl ht (by simp [Fits, ha])
    | none =>
      rw [ha, Option.map_none] at hanchor
      simp only [hanchor]
      exact h.snoc (by simp) (by simp [Replacement.isOrphan, ha]) rfl ht (by simp [Fits, ha])

/-! ## Lines and segments -/

/-- A line is rewritten, and its calls are remembered. -/
theorem expandFrom_rewritten {symbols : SymbolTable} (number : Nat) (pc : Word) (s : Text) :
    ∀ skip memory done, Remembers symbols memory done →
      ∃ cs, Rewritten symbols number pc (s.drop skip) cs (expandFrom symbols number pc skip memory s).1 ∧
        Remembers symbols (expandFrom symbols number pc skip memory s).2 (done ++ cs) := by
  induction s with
  | nil =>
    intro skip memory done h
    rw [List.drop_nil]
    unfold expandFrom
    exact ⟨[], .nil, by rwa [List.append_nil]⟩
  | cons b r ih =>
    intro skip memory done h
    -- a byte that starts no call with a value stays
    have stays : (∀ m argument rest, IsCall (b :: r) m argument rest → (Operand.resolve symbols argument).word? = none) →
        ∃ cs, Rewritten symbols number pc (b :: r) cs (b :: (expandFrom symbols number pc 0 memory r).1) ∧
          Remembers symbols (expandFrom symbols number pc 0 memory r).2 (done ++ cs) := by
      intro hb
      obtain ⟨cs, hcs, hmemory⟩ := ih 0 memory done h
      exact ⟨cs, .keep hb hcs, hmemory⟩
    cases skip with
    | succ skip => exact ih skip memory done h
    | zero =>
      rw [List.drop_zero]
      simp only [expandFrom]
      split
      · rename_i hb
        obtain rfl : b = 0x25 := by simpa using hb
        split
        · rename_i m argument rest hcall
          have hIs := call?_eq_some_iff.mp hcall
          split
          · rename_i target ht
            obtain ⟨name, hr, -⟩ := call?_eq_some hcall
            -- the bytes of the call are passed over, so what is expanded next is what follows it
            have hskip : r.drop (r.length - rest.length) = rest := by
              rw [hr, List.length_append, Nat.add_sub_cancel, List.drop_left]
            obtain ⟨cs, hcs, hmemory⟩ := ih (r.length - rest.length) _ _ (value_remembers h number pc m ht)
            rw [hskip] at hcs
            rw [List.append_assoc] at hmemory
            exact ⟨_, .replace hIs ht hcs, hmemory⟩
          · rename_i ht
            refine stays fun m' argument' rest' hIs' => ?_
            rw [← call?_eq_some_iff, hcall] at hIs'
            cases hIs'
            exact ht
        · rename_i hcall
          refine stays fun m argument rest hIs => ?_
          rw [← call?_eq_some_iff, hcall] at hIs
          cases hIs
      · rename_i hb
        refine stays fun m argument rest hIs => ?_
        obtain ⟨⟨letters, -, hs⟩, -, -⟩ := hIs
        exact absurd (by simpa using (List.cons.inj hs).1) hb

/-- A placed line, the calls replaced on it, and the line then. A line at fault is left alone. -/
structure LineRewritten (symbols : SymbolTable) (p : Placement) (cs : List Replacement) (e : Placement) : Prop where
  elsewhere : e = { p with line := { p.line with text := e.line.text } }
  text : p.line.fault = none → Rewritten symbols p.line.number p.pc p.line.text cs e.line.text
  fault : p.line.fault ≠ none → cs = [] ∧ e.line.text = p.line.text

/-- Placed lines in order, each with the calls replaced on it. -/
inductive AllRewritten (symbols : SymbolTable) : List Placement → List (List Replacement) → List Placement → Prop
  | nil : AllRewritten symbols [] [] []
  | cons {p e : Placement} {cs : List Replacement} {ps es : List Placement} {css : List (List Replacement)}
      (h : LineRewritten symbols p cs e) (hs : AllRewritten symbols ps css es) :
      AllRewritten symbols (p :: ps) (cs :: css) (e :: es)

theorem expandOne_rewritten {symbols : SymbolTable} {memory : Memory} {done : List Replacement}
    (h : Remembers symbols memory done) (p : Placement) :
    ∃ cs, LineRewritten symbols p cs (expandOne symbols memory p).1 ∧
      Remembers symbols (expandOne symbols memory p).2 (done ++ cs) := by
  unfold expandOne
  cases hf : p.line.fault with
  | some message => exact ⟨[], ⟨rfl, by simp [hf], fun _ => ⟨rfl, rfl⟩⟩, by rwa [List.append_nil]⟩
  | none =>
    obtain ⟨cs, hcs, hmemory⟩ := expandFrom_rewritten p.line.number p.pc p.line.text 0 memory done h
    exact ⟨cs, ⟨rfl, fun _ => hcs, fun hne => absurd hf hne⟩, hmemory⟩

theorem expandAll_rewritten {symbols : SymbolTable} (ps : List Placement) :
    ∀ memory done, Remembers symbols memory done →
      ∃ css, AllRewritten symbols ps css (expandAll symbols memory ps).1 ∧
        Remembers symbols (expandAll symbols memory ps).2 (done ++ css.flatten) := by
  induction ps with
  | nil =>
    intro memory done h
    exact ⟨[], .nil, by rwa [List.flatten_nil, List.append_nil]⟩
  | cons p ps ih =>
    intro memory done h
    obtain ⟨cs, hcs, hone⟩ := expandOne_rewritten h p
    obtain ⟨css, hcss, hall⟩ := ih _ _ hone
    exact ⟨cs :: css, .cons hcs hcss, by rwa [List.flatten_cons, ← List.append_assoc]⟩

/-! ## Halves that fit -/

namespace Remembers

variable {symbols : SymbolTable} {memory : Memory} {done : List Replacement}

theorem fits_of_mem (h : Remembers symbols memory done) {c : Replacement} (hc : c ∈ done) : ∃ before, Fits before c := by
  obtain ⟨before, after, hsplit⟩ := List.append_of_mem hc
  exact ⟨before, h.fits before c after hsplit⟩

/-- Calls with the same argument have the same target. -/
theorem target_eq (h : Remembers symbols memory done) {c d : Replacement} (hc : c ∈ done) (hd : d ∈ done)
    (harg : c.argument = d.argument) : c.target = d.target := by
  have heq := h.resolved c hc
  rw [harg, h.resolved d hd] at heq
  exact (Option.some.inj heq).symm

theorem value_lt (h : Remembers symbols memory done) {c : Replacement} (hc : c ∈ done) :
    c.value.toNat < match c.relocation with
      | .hi | .pcrelHi => 2 ^ 20
      | .lo | .pcrelLo => 2 ^ 12 := by
  have upper : ∀ a : BitVec 20, (a.setWidth 32).toNat < 2 ^ 20 := fun a => by
    rw [BitVec.toNat_setWidth_of_le (by decide)]
    exact a.isLt
  have lower : ∀ a : BitVec 12, (a.setWidth 32).toNat < 2 ^ 12 := fun a => by
    rw [BitVec.toNat_setWidth_of_le (by decide)]
    exact a.isLt
  obtain ⟨before, hfits⟩ := h.fits_of_mem hc
  unfold Fits at hfits
  rw [hfits]
  cases c.relocation with
  | hi => exact upper _
  | lo => exact lower _
  | pcrelHi => exact upper _
  | pcrelLo => exact lower _

theorem hi_lo (h : Remembers symbols memory done) {c d : Replacement} (hc : c ∈ done) (hd : d ∈ done)
    (hhi : c.relocation = .hi) (hlo : d.relocation = .lo) (harg : c.argument = d.argument) :
    c.value * 4096 + Word.signExtendFrom 12 d.value = c.target := by
  obtain ⟨_, hcfits⟩ := h.fits_of_mem hc
  obtain ⟨_, hdfits⟩ := h.fits_of_mem hd
  simp only [Fits, hhi] at hcfits
  simp only [Fits, hlo, ← h.target_eq hc hd harg] at hdfits
  rw [hcfits, hdfits, Word.highRounded_low]

/-- A `%pcrel_lo` completes the `%pcrel_hi` before it, or measures from its own address. -/
theorem pcrelLo_completes (h : Remembers symbols memory done) {before after : List Replacement} {c : Replacement}
    (hsplit : done = before ++ c :: after) (hlo : c.relocation = .pcrelLo) :
    match anchor? before c.argument with
    | some d => d.pc + d.value * 4096 + Word.signExtendFrom 12 c.value = c.target
    | none => c.value.toNat = (c.target - c.pc).toNat % 2 ^ 12 := by
  have hc : c ∈ done := by simp [hsplit]
  have hfits := h.fits before c after hsplit
  simp only [Fits, hlo] at hfits
  cases ha : anchor? before c.argument with
  | some d =>
    have hfound := List.find?_some ha
    have hd : d ∈ done := by
      have hmem := List.mem_of_find?_eq_some ha
      simp [hsplit, List.mem_reverse.mp hmem]
    simp only [Bool.and_eq_true, decide_eq_true_eq] at hfound
    obtain ⟨_, hdfits⟩ := h.fits_of_mem hd
    simp only [Fits, hfound.1, h.target_eq hd hc hfound.2] at hdfits
    simp only [ha, Option.map_some, Option.getD_some] at hfits
    show d.pc + d.value * 4096 + Word.signExtendFrom 12 c.value = c.target
    rw [hdfits, hfits, BitVec.add_assoc, Word.highRounded_low, BitVec.add_comm, BitVec.sub_add_cancel]
  | none =>
    simp only [ha, Option.map_none, Option.getD_none] at hfits
    show c.value.toNat = (c.target - c.pc).toNat % 2 ^ 12
    rw [hfits, BitVec.toNat_setWidth_of_le (by decide), Word.low_toNat]
    rfl

end Remembers

/-- The calls of a source are replaced by halves that fit each other, with a warning for each that has no other half. -/
theorem relocations_paired {source : Text} {s : Stages} (h : Stages.ofSource source = .ok s) (o : Options) :
    (assemble o source).outcome = .ok (s.result o source) ∧
    ∃ css, AllRewritten s.layout.symbols s.layout.placements css s.expanded ∧
      (∀ before c after, css.flatten = before ++ c :: after → c.relocation = .pcrelLo →
        match anchor? before c.argument with
        | some d => d.pc + d.value * 4096 + Word.signExtendFrom 12 c.value = c.target
        | none => c.value.toNat = (c.target - c.pc).toNat % 2 ^ 12) ∧
      (∀ c ∈ css.flatten, ∀ d ∈ css.flatten, c.relocation = .hi → d.relocation = .lo → c.argument = d.argument →
        c.value * 4096 + Word.signExtendFrom 12 d.value = c.target) ∧
      (∀ c ∈ css.flatten, c.value.toNat < match c.relocation with
        | .hi | .pcrelHi => 2 ^ 20
        | .lo | .pcrelLo => 2 ^ 12) ∧
      (s.result o source).relocations = css.flatten.length ∧
      (s.result o source).warnings =
        orgWarnings source ++ (s.layout.ignored.map fun i => warn i.line i.message) ++
          (orphans css.flatten).map fun c => warn c.number (unanchoredMessage c.argument) := by
  have houtcome : (assemble o source).outcome = .ok (s.result o source) := by
    rw [assemble_eq, h]
    rfl
  obtain ⟨css, hcss, hmemory⟩ := expandAll_rewritten s.layout.placements {} [] (.start s.layout.symbols)
  rw [List.nil_append] at hmemory
  refine ⟨houtcome, css, hcss, fun before c after hsplit hlo => hmemory.pcrelLo_completes hsplit hlo,
    fun c hc d hd hhi hlo harg => hmemory.hi_lo hc hd hhi hlo harg, fun c hc => hmemory.value_lt hc, hmemory.replaced, ?_⟩
  show s.warnings source = _
  rw [Stages.warnings, hmemory.unanchored, List.map_map]
  rfl

/-- Two anchors of one label, an orphan, and a call that has no value. -/
theorem relocations_paired_anchored_twice :
    let source := Text.unlines [".section .text", ".org 0x100", "f: auipc a0, %pcrel_hi(f)", "addi a0, a0, %PCREL_LO(f)",
      "auipc a1, %pcrel_hi(f)", "addi a1, a1, %pcrel_lo(f)", "lw a2, %pcrel_lo(0x900)(%lo(g))"]
    let texts : List Text :=
      ["f: auipc a0 0x0", "addi a0 a0 0x0", "auipc a1 0x0", "addi a1 a1 0xFF8", "lw a2 0x7F0(%lo(g))"]
    let warnings : List Diagnostic :=
      [⟨.warning, 7, "%pcrel_lo(0x900) has no preceding %pcrel_hi, using this instruction's address"⟩]
    ∃ s css, Stages.ofSource source = .ok s ∧ s.expanded.map (·.line.text) = texts ∧
      AllRewritten s.layout.symbols s.layout.placements css s.expanded ∧ css.flatten.length = 5 ∧
      orgWarnings source ++ (s.layout.ignored.map fun i => warn i.line i.message) ++
        (orphans css.flatten).map (fun c => warn c.number (unanchoredMessage c.argument)) = warnings := by
  intro source texts warnings
  have run : (Stages.ofSource source).toOption.map (fun s => (s.expanded.map (·.line.text),
      (s.result {} source).relocations, (s.result {} source).warnings)) = some (texts, 5, warnings) := by
    decide +kernel
  obtain ⟨s, hs, hrun⟩ := Option.map_eq_some_iff.mp run
  have hok := Source.toOption_eq_some hs
  obtain ⟨-, css, hcss, -, -, -, hcount, hwarnings⟩ := relocations_paired hok {}
  obtain ⟨htexts, hfive, hone⟩ : _ ∧ (s.result {} source).relocations = 5 ∧ (s.result {} source).warnings = warnings := by
    simpa only [Prod.mk.injEq] using hrun
  exact ⟨s, css, hok, htexts, hcss, hcount.symm.trans hfive, hwarnings.symm.trans hone⟩

end Rv32Tools.Assembly.Relocation
