import Rv32Tools.Proofs.Assembly.Encoding
import Rv32Tools.Proofs.Assembly.Layout
import Rv32Tools.Assembly.Relocation

/-
  Rv32Tools.Proofs.Assembly.Relocation — what replacing relocation calls leaves of a line.

  A call is replaced only if its argument has a value, so that both the call and the number in its place are plain
  bytes (`Replaced`), and a line after the replacement is the line before with such runs swapped
  (`expandFrom_patched`). Hence replacing calls moves no word of a statement, and the name of an instruction stays
  what it was or is no name any more (`Expanded.name`). So the expanded line, encoded, has the width that the line
  was placed with (`Expanded.width`), and there is always something to encode (`Expanded.no_abort`).
-/

namespace Rv32Tools.Assembly.Relocation

open Source (isPlain Line)
open Text (Patched)

/-- A call, and a number in its place. -/
structure Replaced (c d : Text) : Prop where
  call_ne : c ≠ []
  call_plain : ∀ b ∈ c, isPlain b = true
  number_plain : ∀ b ∈ d, isPlain b = true
  zero_mem : 0x30 ∈ d

theorem Replaced.number_ne {c d : Text} (h : Replaced c d) : d ≠ [] := List.ne_nil_of_mem h.zero_mem

/-- A call is a name, and its argument in parentheses. -/
theorem call?_eq_some {s argument rest : Text} {m : Relocation} (h : call? s = some (m, argument, rest)) :
    ∃ name, s = (name ++ 0x28 :: (argument ++ [0x29])) ++ rest ∧ (∀ b ∈ name, Text.isWordByte b = true) := by
  refine ⟨s.takeWhile Text.isWordByte, ?_, fun b hb => List.mem_takeWhile_imp hb⟩
  unfold call? at h
  split at h
  · rename_i m' r _ hr
    split at h
    · rename_i a arg rest' ha hrest
      simp only [Option.some.injEq, Prod.mk.injEq] at h
      obtain ⟨-, rfl, rfl⟩ := h
      have : r = (a :: arg) ++ 0x29 :: rest' := by rw [← ha, ← hrest, List.takeWhile_append_dropWhile]
      conv => lhs; rw [← List.takeWhile_append_dropWhile (p := Text.isWordByte) (l := s), hr, this]
      simp
    · cases h
  · cases h

/-- An argument that has a value is a number or a label. -/
theorem argument_plain {symbols : SymbolTable} (hs : symbols.WellNamed) {argument : Text} {target : Word}
    (h : (Operand.resolve symbols argument).word? = some target) : ∀ b ∈ argument, isPlain b = true := by
  unfold Operand.resolve at h
  split at h
  · exact Source.number?_plain ‹_›
  · split at h
    · rename_i s hf
      obtain ⟨hmem, rfl⟩ := SymbolTable.find?_eq_some hf
      exact SymbolTable.isLabelName_plain (hs s hmem)
    · cases h

theorem numeral_plain (w : Word) : ∀ b ∈ numeral w, isPlain b = true := by
  intro b hb
  rcases List.mem_append.mp hb with hb | hb
  · have : ∀ b ∈ Text.ofString "0x", isPlain b = true := by decide +kernel
    exact this b hb
  · exact Source.hexShort_plain _ b hb

theorem zero_mem_numeral (w : Word) : 0x30 ∈ numeral w := List.mem_append_left _ (by decide)

theorem replaced_of_call {symbols : SymbolTable} (hs : symbols.WellNamed) {name argument : Text} {target : Word}
    (hname : ∀ b ∈ name, Text.isWordByte b = true)
    (ht : (Operand.resolve symbols argument).word? = some target) (v : Word) :
    Replaced (0x25 :: (name ++ 0x28 :: (argument ++ [0x29]))) (numeral v) where
  call_ne := by simp
  call_plain := by
    have harg := argument_plain hs ht
    intro b hb
    simp only [List.mem_cons, List.mem_append, List.not_mem_nil, or_false] at hb
    rcases hb with rfl | hb | rfl | hb | rfl
    · decide
    · exact Source.isPlain_of_isWordByte (hname b hb)
    · decide
    · exact harg b hb
    · decide
  number_plain := numeral_plain v
  zero_mem := zero_mem_numeral v

/-- A line with its calls replaced is the line with calls swapped for numbers. -/
theorem expandFrom_patched {symbols : SymbolTable} (hs : symbols.WellNamed) (number : Nat) (pc : Word) (s : Text) :
    ∀ skip memory, Patched Replaced (s.drop skip) (expandFrom symbols number pc skip memory s).1 := by
  induction s with
  | nil => intro skip memory; rw [List.drop_nil]; unfold expandFrom; exact .nil
  | cons b r ih =>
    intro skip memory
    cases skip with
    | succ skip => exact ih skip memory
    | zero =>
      rw [List.drop_zero]
      simp only [expandFrom]
      split
      · rename_i hb
        split
        · rename_i m argument rest hcall
          split
          · rename_i target ht
            obtain ⟨name, hr, hname⟩ := call?_eq_some hcall
            -- the bytes of the call are passed over, so what is expanded next is what follows it
            have hskip : r.drop (r.length - rest.length) = rest := by
              rw [hr, List.length_append, Nat.add_sub_cancel, List.drop_left]
            have hrest := ih (r.length - rest.length) (value memory number pc m argument target).2
            rw [hskip] at hrest
            have hline : b :: r = (0x25 :: (name ++ 0x28 :: (argument ++ [0x29]))) ++ rest := by
              rw [hr, show b = 0x25 by simpa using hb]; rfl
            rw [hline]
            exact .swap (replaced_of_call hs hname ht _) hrest
          · exact .keep b (ih 0 memory)
        · exact .keep b (ih 0 memory)
      · exact .keep b (ih 0 memory)

/-! ## Placed lines -/

/-- A placed line, and the same line with its calls replaced. -/
structure Expanded (p e : Placement) : Prop where
  pc : e.pc = p.pc
  number : e.line.number = p.line.number
  fault : e.line.fault = p.line.fault
  text : Patched Replaced p.line.text e.line.text

theorem expandOne_expanded {symbols : SymbolTable} (hs : symbols.WellNamed) (memory : Memory) (p : Placement) :
    Expanded p (expandOne symbols memory p).1 := by
  unfold expandOne
  split
  · exact ⟨rfl, rfl, rfl, .refl _⟩
  · exact ⟨rfl, rfl, rfl, expandFrom_patched hs p.line.number p.pc p.line.text 0 memory⟩

theorem expandAll_expanded {symbols : SymbolTable} (hs : symbols.WellNamed) (ps : List Placement) :
    ∀ memory, List.Forall₂ Expanded ps (expandAll symbols memory ps).1 := by
  induction ps with
  | nil => intro memory; exact .nil
  | cons p ps ih => intro memory; exact .cons (expandOne_expanded hs memory p) (ih _)

theorem expandAll_append (symbols : SymbolTable) (memory : Memory) (ps qs : List Placement) :
    expandAll symbols memory (ps ++ qs) =
      ((expandAll symbols memory ps).1 ++ (expandAll symbols (expandAll symbols memory ps).2 qs).1,
        (expandAll symbols (expandAll symbols memory ps).2 qs).2) := by
  induction ps generalizing memory with
  | nil => rfl
  | cons p ps ih => simp only [List.cons_append, expandAll, ih]

/-- A text without a `%` is passed over. -/
theorem expandFrom_append (symbols : SymbolTable) (number : Nat) (pc : Word) (memory : Memory) {s : Text}
    (h : 0x25 ∉ s) (r : Text) :
    expandFrom symbols number pc 0 memory (s ++ r) =
      (s ++ (expandFrom symbols number pc 0 memory r).1, (expandFrom symbols number pc 0 memory r).2) := by
  induction s with
  | nil => rfl
  | cons b s ih =>
    have hb : (b == 0x25) = false := by
      simp only [beq_eq_false_iff_ne, ne_eq]
      rintro rfl
      exact h List.mem_cons_self
    have hs : 0x25 ∉ s := fun hmem => h (List.mem_cons_of_mem _ hmem)
    simp only [List.cons_append, expandFrom, hb, ih hs, Bool.false_eq_true, if_false]

theorem expandFrom_of_not_mem (symbols : SymbolTable) (number : Nat) (pc : Word) (memory : Memory) {s : Text}
    (h : 0x25 ∉ s) : expandFrom symbols number pc 0 memory s = (s, memory) := by
  have := expandFrom_append symbols number pc memory h []
  rwa [List.append_nil, expandFrom, List.append_nil] at this

theorem expandFrom_skip (symbols : SymbolTable) (number : Nat) (pc : Word) (memory : Memory) (s : Text) :
    expandFrom symbols number pc s.length memory s = ([], memory) := by
  induction s with
  | nil => rfl
  | cons b s ih => exact ih

/-- A line without a `%` is left alone, and leaves nothing behind. -/
theorem expandOne_of_not_mem (symbols : SymbolTable) (memory : Memory) {p : Placement} (h : 0x25 ∉ p.line.text) :
    expandOne symbols memory p = (p, memory) := by
  unfold expandOne
  rw [expandFrom_of_not_mem _ _ _ _ h]
  split <;> rfl

theorem expandAll_of_not_mem (symbols : SymbolTable) (memory : Memory) {ps : List Placement}
    (h : ∀ p ∈ ps, 0x25 ∉ p.line.text) : expandAll symbols memory ps = (ps, memory) := by
  induction ps with
  | nil => rfl
  | cons p ps ih =>
    have hp := expandOne_of_not_mem symbols memory (h p List.mem_cons_self)
    simp only [expandAll, hp, ih fun q hq => h q (List.mem_cons_of_mem _ hq)]

namespace Expanded

variable {p e : Placement}

/-- The name of the expanded instruction is the name it was placed by, or it is no name. -/
theorem name (h : Expanded p e) (hw : Text.words p.line.statement.body ≠ []) :
    ∃ name operands, Text.words e.line.statement.body = name :: operands ∧
      (name = p.line.mnemonic ∨ Mnemonic.ofText? name = none) := by
  have words := Source.words_ofCode_patched (fun c d hr => ⟨hr.call_ne, hr.number_ne, hr.call_plain, hr.number_plain⟩)
    h.text
  obtain ⟨w, ws, hp⟩ := List.exists_cons_of_ne_nil hw
  have hm : p.line.mnemonic = w := by rw [Source.Line.mnemonic, hp]; rfl
  rw [show Source.Statement.ofCode p.line.text = p.line.statement from rfl, hp] at words
  obtain ⟨name, operands, hname, _, he⟩ := List.forall₂_cons_left_iff.mp words
  refine ⟨name, operands, he, ?_⟩
  rcases hname.eq_or_mem with rfl | ⟨c, d, hr, hd⟩
  · exact Or.inl hm.symm
  · exact Or.inr (Mnemonic.ofText?_eq_none_of_zero (hd _ hr.zero_mem))

/-- The words that the expanded line comes to are as wide as the line was placed. -/
theorem width (h : Expanded p e) (hw : Text.words p.line.statement.body ≠ []) {x : Context} {is : List Instruction}
    (hx : x.line e.line = .ok is) : Mnemonic.width p.line.mnemonic = 4 * is.length := by
  obtain ⟨name, operands, he, hname⟩ := h.name hw
  obtain ⟨_, name', operands', he', hexp⟩ := x.line_eq_ok hx
  rw [he] at he'
  injection he' with hn _
  subst hn
  obtain ⟨m, hm, hlen⟩ := x.expand_length hexp
  rcases hname with rfl | hnone
  · rw [Mnemonic.width, hm, hlen]
    show m.words * 4 = 4 * m.words
    omega
  · rw [hm] at hnone; cases hnone

/-- There is something to encode on the expanded line. -/
theorem no_abort (h : Expanded p e) (hw : Text.words p.line.statement.body ≠ []) (x : Context) (a : Abort) :
    x.line e.line ≠ .error (.abort a) := by
  obtain ⟨name, operands, he, _⟩ := h.name hw
  intro hx
  unfold Context.line at hx
  rw [he] at hx
  split at hx
  · cases hx
  · simp only at hx
    split at hx <;> cases hx

end Expanded

end Rv32Tools.Assembly.Relocation
