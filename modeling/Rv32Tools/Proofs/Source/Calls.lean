import Rv32Tools.Proofs.Source.Reading

/-
  Rv32Tools.Proofs.Source.Calls — a call is one word.

  `%name(argument)` is not taken apart, not even where the argument names a register: `offset(register)` ends the same
  way, and only the `%` before the name tells them apart (`indexed?_call`). Blanks that could be taken out of it are
  not there (`tightenCalls_call`). So a call is read as it is written (`readAs_call`), and one with a register in
  parentheses behind it is read as the register and the call (`readAs_call_indexed`).
-/

namespace Rv32Tools.Source

/-- A call as it is written. -/
def callText (name argument : Text) : Text := 0x25 :: (name ++ 0x28 :: (argument ++ [0x29]))

/-- A name and an argument that make a call without blanks. -/
structure IsTight (name argument : Text) : Prop where
  name_ne : name ≠ []
  name_bytes : ∀ b ∈ name, Text.isWordByte b = true
  argument : Token argument

/-- A call does not end in a name. -/
theorem endsInCallName_call (name argument : Text) : endsInCallName (callText name argument) = false := by
  have hback : (callText name argument).reverse = 0x29 :: (argument.reverse ++ 0x28 :: (name.reverse ++ [0x25])) := by
    simp [callText]
  have hclose : Text.isWordByte 0x29 = false := by decide
  simp [endsInCallName, hback, hclose]

theorem tightenFrom_eq_drop (skip : Nat) (s : Text) : tightenFrom skip s = tightenCalls (s.drop skip) := by
  induction s generalizing skip with
  | nil => rw [List.drop_nil, tightenFrom]; rfl
  | cons b r ih =>
    cases skip with
    | zero => rfl
    | succ skip => exact ih skip

section Parens

variable {name g inner : Text} (hne : name ≠ []) (hname : ∀ b ∈ name, Text.isWordByte b = true)
  (hg : ∀ b ∈ g, Text.isCallBlank b = true) (hinner : ∀ b ∈ inner, isParen b = false)

include hne hname hg hinner

/-- Blanks may stand before the parentheses of a call. -/
theorem call?_parens (r : Text) :
    call? (name ++ (g ++ 0x28 :: (inner ++ 0x29 :: r))) = some (name, trimCallBlanks inner, r) := by
  have blank : ∀ b, Text.isCallBlank b = true → Text.isWordByte b = false := Text.forall_byte (by decide +kernel)
  have hsplit : ∀ rest, (name ++ (g ++ 0x28 :: rest)).takeWhile Text.isWordByte = name ∧
      (name ++ (g ++ 0x28 :: rest)).dropWhile Text.isWordByte = g ++ 0x28 :: rest := by
    intro rest
    cases g with
    | nil => exact takeWhile_append_cons hname 0x28 (by decide) rest
    | cons b g => exact takeWhile_append_cons hname b (blank b (hg b List.mem_cons_self)) (g ++ 0x28 :: rest)
  have hopen : ∀ rest, (g ++ 0x28 :: rest).dropWhile Text.isCallBlank = 0x28 :: rest := by
    intro rest
    rw [List.dropWhile_append_of_pos hg, List.dropWhile_cons_of_neg (by decide)]
  have hflat : ∀ b ∈ inner, (!isParen b) = true := fun b hb => by simp [hinner b hb]
  obtain ⟨htake, hdrop⟩ := takeWhile_append_cons hflat 0x29 (by decide) r
  have hempty : name.isEmpty = false := by simpa using hne
  simp only [call?, hsplit, hopen, htake, hdrop, hempty, Bool.false_eq_true, if_false]

theorem tightenCalls_parens (r : Text) :
    tightenCalls (0x25 :: (name ++ (g ++ 0x28 :: (inner ++ 0x29 :: r)))) =
      callText name (trimCallBlanks inner) ++ tightenCalls r := by
  have hskip : (name ++ (g ++ 0x28 :: (inner ++ 0x29 :: r))).drop
      ((name ++ (g ++ 0x28 :: (inner ++ 0x29 :: r))).length - r.length) = r := by
    have hback : name ++ (g ++ 0x28 :: (inner ++ 0x29 :: r)) = (name ++ (g ++ 0x28 :: (inner ++ [0x29]))) ++ r := by simp
    rw [hback, List.length_append, Nat.add_sub_cancel, List.drop_left]
  rw [tightenCalls, tightenFrom]
  simp only [beq_self_eq_true, if_true, call?_parens hne hname hg hinner, tightenFrom_eq_drop, hskip]
  simp [callText]

end Parens

section Calls

variable {name argument : Text} (h : IsTight name argument)

include h

theorem callText_bytes : ∀ b ∈ callText name argument, isPlain b = true ∧ b ≠ 0x23 := by
  have word : ∀ b, Text.isWordByte b = true → isPlain b = true ∧ b ≠ 0x23 := Text.forall_byte (by decide +kernel)
  intro b hb
  simp only [callText, List.mem_cons, List.mem_append, List.not_mem_nil, or_false] at hb
  rcases hb with rfl | hb | rfl | hb | rfl
  · decide
  · exact word b (h.name_bytes b hb)
  · decide
  · exact h.argument.plain b hb
  · decide

theorem tightenCalls_call (r : Text) :
    tightenCalls (callText name argument ++ r) = callText name argument ++ tightenCalls r := by
  have hinner : ∀ b ∈ argument, isParen b = false := by
    intro b hb
    obtain ⟨hopen, hclose, _⟩ := h.argument.flat b hb
    simp [isParen, hopen, hclose]
  have hblank : ∀ b ∈ ([] : Text), Text.isCallBlank b = true := by simp
  have htight := tightenCalls_parens h.name_ne h.name_bytes hblank hinner r
  rw [trimCallBlanks_token h.argument] at htight
  rw [← htight]
  simp [callText]

/-- The parentheses of a call are not those of a register. -/
theorem indexed?_call : indexed? (callText name argument) = none := by
  have hback : (callText name argument).reverse = (0x29 :: argument.reverse) ++ 0x28 :: (name.reverse ++ [0x25]) := by
    simp [callText]
  have hinner : ∀ b ∈ 0x29 :: argument.reverse, (b != 0x28) = true := by
    intro b hb
    rcases List.mem_cons.mp hb with rfl | hb
    · decide
    · simpa using (h.argument.flat b (List.mem_reverse.mp hb)).1
  obtain ⟨htake, hdrop⟩ := takeWhile_append_cons hinner 0x28 (by decide) (name.reverse ++ [0x25])
  have hname : ∀ b ∈ name.reverse, Text.isWordByte b = true := fun b hb => h.name_bytes b (List.mem_reverse.mp hb)
  obtain ⟨htake', hdrop'⟩ := takeWhile_append_cons hname 0x25 (by decide) []
  have hends : endsInCallName (name.reverse ++ [0x25]).reverse = true := by
    simp only [endsInCallName, List.reverse_reverse, htake', hdrop', List.isEmpty_reverse]
    simpa using h.name_ne
  simp only [indexed?, hback, htake, hdrop, List.tail_cons, hends, Bool.not_true, Bool.and_false, Bool.false_eq_true,
    if_false]

theorem readAs_call : ReadAs (callText name argument) [callText name argument] where
  ne_nil := List.cons_ne_nil _ _
  bytes := callText_bytes h
  level := by
    intro ms
    have hflat : ∀ b ∈ 0x25 :: name, b ≠ 0x28 ∧ b ≠ 0x29 ∧ b ≠ 0x2C := by
      have word : ∀ b, Text.isWordByte b = true → b ≠ 0x28 ∧ b ≠ 0x29 ∧ b ≠ 0x2C := Text.forall_byte (by decide +kernel)
      intro b hb
      rcases List.mem_cons.mp hb with rfl | hb
      · decide
      · exact word b (h.name_bytes b hb)
    have hsplit : callText name argument = (0x25 :: name) ++ 0x28 :: (argument ++ [0x29]) := rfl
    rw [hsplit, List.map_append, List.append_assoc, commas_flat 0 hflat, commas_parens h.argument.flat, ← List.append_assoc]
    simp only [unparted, List.map_append]
  tight := tightenCalls_call h
  words := by
    intro n
    have hne : callText name argument ≠ [] := List.cons_ne_nil _ _
    rw [operandWords_plain hne fun b hb => (callText_bytes h b hb).1, indexed?_call h]

/-- A register in parentheses behind a call is a word by itself. -/
theorem readAs_call_indexed (reg : Reg) :
    ReadAs (callText name argument ++ 0x28 :: (reg.name ++ [0x29])) [reg.name, callText name argument] :=
  readAs_indexed (readAs_call h) (endsInCallName_call name argument) reg

end Calls

end Rv32Tools.Source
