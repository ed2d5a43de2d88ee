import Mathlib.Algebra.Group.Nat.Defs
import Rv32Tools.Isa.Instruction

/-
  Rv32Tools.Proofs.Isa.Fields — reading back the fields of a packed word.

  A packer puts its fields side by side, so each field is found where the format has it. `Word.high_low` is the law of
  values in two halves: the upper half at its place and the low half sign-extended add up to the value. Rounding gives
  the same upper half (`Word.highRounded_eq_high`), so the law holds of it too (`Word.highRounded_low`).
-/

namespace Rv32Tools

open BitVec (extractLsb'_append_eq_of_add_le extractLsb'_append_eq_of_le)

namespace Coding

variable (c : Coding) (rd rs1 : Reg) (imm : Word)

@[simp] theorem opcode_packI : (c.packI rd rs1 imm).opcode = c.opcode := by
  simp (disch := omega) only [packI, Word.opcode, extractLsb'_append_eq_of_add_le, BitVec.extractLsb'_eq_self]

@[simp] theorem rd_packI : (c.packI rd rs1 imm).rd = rd := by
  simp (disch := omega) only [packI, Word.rd, extractLsb'_append_eq_of_add_le, extractLsb'_append_eq_of_le, Nat.reduceSub,
    BitVec.extractLsb'_eq_self]

@[simp] theorem funct3_packI : (c.packI rd rs1 imm).funct3 = c.funct3 := by
  simp (disch := omega) only [packI, Word.funct3, extractLsb'_append_eq_of_add_le, extractLsb'_append_eq_of_le, Nat.reduceSub,
    BitVec.extractLsb'_eq_self]

@[simp] theorem rs1_packI : (c.packI rd rs1 imm).rs1 = rs1 := by
  simp (disch := omega) only [packI, Word.rs1, extractLsb'_append_eq_of_add_le, extractLsb'_append_eq_of_le, Nat.reduceSub,
    BitVec.extractLsb'_eq_self]

@[simp] theorem extract_packI : (c.packI rd rs1 imm).extractLsb' 20 12 = imm.extractLsb' 0 12 := by
  simp (disch := omega) only [packI, extractLsb'_append_eq_of_le, Nat.reduceSub, BitVec.extractLsb'_eq_self]

@[simp] theorem opcode_packU : (c.packU rd imm).opcode = c.opcode := by
  simp (disch := omega) only [packU, Word.opcode, extractLsb'_append_eq_of_add_le, BitVec.extractLsb'_eq_self]

@[simp] theorem rd_packU : (c.packU rd imm).rd = rd := by
  simp (disch := omega) only [packU, Word.rd, extractLsb'_append_eq_of_add_le, extractLsb'_append_eq_of_le, Nat.reduceSub,
    BitVec.extractLsb'_eq_self]

@[simp] theorem extract_packU : (c.packU rd imm).extractLsb' 12 20 = imm.extractLsb' 0 20 := by
  simp (disch := omega) only [packU, extractLsb'_append_eq_of_le, Nat.reduceSub, BitVec.extractLsb'_eq_self]

end Coding

namespace Word

theorem low_toNat (w : Word) : w.low.toNat = w.toNat % 4096 := by
  simp [low]

theorem upper_toNat (w : Word) : (w.extractLsb' 12 20).toNat = w.toNat / 4096 := by
  have hw := w.isLt
  simp only [BitVec.extractLsb'_toNat, Nat.shiftRight_eq_div_pow]
  omega

/-- The two halves of a value make it up again. -/
theorem high_low (w : Word) : (w.high ++ 0#12) + w.low.signExtend 32 = w := by
  have hw := w.isLt
  have hl := low_toNat w
  have hu := upper_toNat w
  apply BitVec.eq_of_toNat_eq
  rw [BitVec.toNat_add, BitVec.toNat_append, BitVec.toNat_signExtend]
  simp only [high]
  cases hm : w.low.msb with
  | false =>
    simp [hl, hu, Nat.shiftLeft_eq]
    omega
  -- the low half takes 4096 away, and the one more in the upper half makes up for it
  | true =>
    simp [hl, hu, Nat.shiftLeft_eq]
    omega

theorem high_toNat (w : Word) : w.high.toNat = (w.toNat / 4096 + w.toNat / 2048 % 2) % 2 ^ 20 := by
  have hw := w.isLt
  have hbit : (if w.low.msb then (1 : BitVec 20) else 0).toNat = w.toNat / 2048 % 2 := by
    rw [BitVec.msb_eq_decide, low_toNat]
    by_cases h : 2 ^ (12 - 1) ≤ w.toNat % 4096
    · simp only [h, decide_true, if_true]
      show 1 = w.toNat / 2048 % 2
      omega
    · simp only [h, decide_false, Bool.false_eq_true, if_false]
      show 0 = w.toNat / 2048 % 2
      omega
  rw [high, BitVec.toNat_add, upper_toNat, hbit]

/-- Half a unit more, rounded down, is one more where the low half is negative. -/
theorem highRounded_eq_high (w : Word) : w.highRounded = w.high := by
  have hw := w.isLt
  apply BitVec.eq_of_toNat_eq
  rw [high_toNat, highRounded, upper_toNat, BitVec.toNat_add]
  show (w.toNat + 2048) % 2 ^ 32 / 4096 = _
  omega

theorem append_zeros (a : BitVec 20) : a ++ 0#12 = a.setWidth 32 * 4096 := by
  have ha := a.isLt
  apply BitVec.eq_of_toNat_eq
  rw [BitVec.toNat_append, BitVec.toNat_mul, BitVec.toNat_setWidth]
  show a.toNat <<< 12 ||| 0 = a.toNat % 2 ^ 32 * 4096 % 2 ^ 32
  rw [Nat.or_zero, Nat.shiftLeft_eq]
  omega

theorem signExtendFrom_setWidth (b : BitVec 12) : signExtendFrom 12 (b.setWidth 32) = b.signExtend 32 := by
  rw [signExtendFrom, BitVec.setWidth_setWidth_of_le _ (by decide), BitVec.setWidth_eq]

/-- The two halves of a value, as numbers, make it up again. -/
theorem highRounded_low (w : Word) :
    w.highRounded.setWidth 32 * 4096 + signExtendFrom 12 (w.low.setWidth 32) = w := by
  rw [highRounded_eq_high, signExtendFrom_setWidth, ← append_zeros, high_low]

end Word

end Rv32Tools
