import Rv32Tools.Proofs.Text.Case
import Rv32Tools.Assembly.Encoding

/-
  Rv32Tools.Proofs.Assembly.Encoding — how many instructions a line comes to.

  `expand_length`: whatever its operands are, an instruction that can be expanded comes to as many machine
  instructions as the table of widths says. The ASCII bytes of a name are letters and digits without the zero
  (`ofText?_ascii`), so a name with a zero digit is none (`ofText?_eq_none_of_zero`).
-/

namespace Rv32Tools

namespace Mnemonic

/-- An instruction is named by its name, in any case. -/
theorem ofText?_eq_some {name : Text} {m : Mnemonic} (h : ofText? name = some m) :
    m ∈ all ∧ Text.toLower name = m.name := by
  obtain ⟨front, rest, e, _⟩ := List.lookup_eq_some_iff.mp h
  have hmem : (Text.toLower name, m) ∈ all.map fun m => (m.name, m) := by
    rw [e]
    exact List.mem_append_right _ List.mem_cons_self
  obtain ⟨m', hm', e'⟩ := List.mem_map.mp hmem
  obtain ⟨hname, rfl⟩ := Prod.mk.inj e'
  exact ⟨hm', hname.symm⟩

/-- The ASCII bytes of a name are letters and digits, and no zero. -/
theorem ofText?_ascii {name : Text} {m : Mnemonic} (h : ofText? name = some m) {b : UInt8} (hb : b < 0x80)
    (hmem : b ∈ name) : Text.isAlnumByte b = true ∧ b ≠ 0x30 := by
  have names : ∀ m ∈ all, m.name.all (fun b => decide (Text.isAlnumByte b = true ∧ b ≠ 0x30)) = true := by
    decide +kernel
  have lower : ∀ b : UInt8, Text.isAlnumByte (Text.lowerByte b) = true ∧ Text.lowerByte b ≠ 0x30 →
      Text.isAlnumByte b = true ∧ b ≠ 0x30 := Text.forall_byte (by decide +kernel)
  obtain ⟨hm, hname⟩ := ofText?_eq_some h
  exact lower b (Text.forall_mem_of_all (names m hm) _ (hname ▸ Text.lowerByte_mem_toLower hb hmem))

theorem ofText?_eq_none_of_zero {name : Text} (h : 0x30 ∈ name) : ofText? name = none := by
  cases hm : ofText? name with
  | none => rfl
  | some m => exact absurd rfl (ofText?_ascii hm (by decide) h).2

end Mnemonic

namespace Assembly.Context

/-- What comes out, if anything does, is as `P` says. -/
def Yields {α : Type} (P : α → Prop) (outcome : Except LineError α) : Prop := ∀ a, outcome = .ok a → P a

namespace Yields

variable {α β : Type} {P : β → Prop}

theorem bind {outcome : Except LineError α} {f : α → Except LineError β}
    (h : ∀ a, outcome = .ok a → Yields P (f a)) : Yields P (outcome >>= f) := by
  cases outcome with
  | ok a => exact h a rfl
  | error e => intro b hb; cases hb

theorem pure {b : β} (h : P b) : Yields P (pure b) := by
  intro b' hb; cases hb; exact h

theorem error (e : LineError) : Yields P (.error e) := by
  intro b hb; cases hb

end Yields

variable (x : Context)

theorem expandBase_yields (e : LineError) (op : BaseOp) (operands : List Text) :
    Yields (·.length = 1) (x.expandBase (.error e) op operands) := by
  unfold expandBase
  split
  · exact .bind fun _ _ => .bind fun _ _ => .bind fun _ _ => .pure rfl
  · exact .bind fun _ _ => .bind fun _ _ => .bind fun _ _ => .pure rfl
  · exact .bind fun _ _ => .bind fun _ _ => .bind fun _ _ => .pure rfl
  · exact .bind fun _ _ => .bind fun _ _ => .bind fun _ _ => .pure rfl
  · exact .bind fun _ _ => .bind fun _ _ => .bind fun _ _ => .pure rfl
  · exact .bind fun _ _ => .bind fun _ _ => .pure rfl
  · exact .bind fun _ _ => .pure rfl
  · exact .bind fun _ _ => .bind fun _ _ => .pure rfl
  · exact .error e

theorem farJump_yields (rd : Reg) (token : Text) : Yields (·.length = 3) (x.farJump rd token) := .bind fun _ _ => .pure rfl

theorem expandPseudo_yields (e : LineError) (p : Pseudo) (operands : List Text) :
    Yields (·.length = p.words) (x.expandPseudo (.error e) p operands) := by
  unfold expandPseudo
  split
  · exact .bind fun _ _ => .bind fun _ _ => .pure rfl
  · exact .bind fun _ _ => .bind fun _ _ => .pure rfl
  · exact .pure rfl
  · exact .bind fun _ _ => .bind fun _ _ => .pure rfl
  · exact .bind fun _ _ => .bind fun _ _ => .pure rfl
  · exact .bind fun _ _ => .pure rfl
  · exact .bind fun _ _ => .bind fun _ _ => .pure rfl
  · exact .bind fun _ _ => .bind fun _ _ => .pure rfl
  · exact .bind fun _ _ => .bind fun _ _ => .pure rfl
  · exact .bind fun _ _ => .bind fun _ _ => .pure rfl
  · exact .bind fun _ _ => .pure rfl
  · exact .bind fun _ _ => .pure rfl
  · exact .bind fun _ _ => .pure rfl
  · exact .pure rfl
  · exact .bind fun _ _ => .bind fun _ _ => .pure rfl
  · exact .bind fun _ _ => .bind fun _ _ => .pure rfl
  · exact .bind fun _ _ => .pure rfl
  · exact x.farJump_yields _ _
  · exact .bind fun _ _ => x.farJump_yields _ _
  · exact .error e

/-- An instruction that can be expanded has a name, and comes to as many words as the name stands for. -/
theorem expand_length {name : Text} {operands : List Text} {is : List Instruction}
    (h : x.expand name operands = .ok is) : ∃ m, Mnemonic.ofText? name = some m ∧ is.length = m.words := by
  unfold expand at h
  split at h
  · cases h
  · rename_i m hm
    refine ⟨m, hm, ?_⟩
    cases m with
    | base op => exact x.expandBase_yields _ op operands is h
    | pseudo p => exact x.expandPseudo_yields _ p operands is h

theorem line_eq_ok {l : Source.Line} {is : List Instruction} (h : x.line l = .ok is) :
    l.fault = none ∧ ∃ name operands, Text.words l.statement.body = name :: operands ∧ x.expand name operands = .ok is := by
  unfold line at h
  split at h
  · cases h
  · rename_i hf
    refine ⟨hf, ?_⟩
    split at h
    · cases h
    · rename_i name operands hw
      refine ⟨name, operands, hw, ?_⟩
      split at h
      · rename_i e; cases h; exact e
      · cases h

end Assembly.Context

end Rv32Tools
