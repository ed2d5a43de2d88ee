import Rv32Tools.Proofs.Isa.Fields

/-
  Rv32Tools.Proofs.Isa.Machine — a machine that runs the instructions that load addresses.

  The machine has a program counter and thirty-two registers; register 0 reads as zero and ignores what is written to
  it. `exec` reads a word by its bits:

    LUI    opcode 0110111               rd := imm << 12
    AUIPC  opcode 0010111               rd := pc + (imm << 12)
    ADDI   opcode 0010011, funct3 000   rd := rs1 + imm
    JALR   opcode 1100111, funct3 000   rd := pc + 4, pc := rs1 + imm with bit 0 cleared

  with the immediate sign-extended in ADDI and JALR, and all sums modulo 2^32; no other word is run. `run` fetches its
  words from memory. `exec_upper`, `exec_addi` and `exec_jalr` say what the words of the assembler do, and
  `run_absolute` and `run_relative` what a value in two halves comes to.
-/

namespace Rv32Tools

structure Machine where
  pc : Word
  regs : Reg → Word

namespace Machine

def read (m : Machine) (r : Reg) : Word := if r = 0 then 0 else m.regs r

def write (m : Machine) (r : Reg) (v : Word) : Machine :=
  if r = 0 then m else { m with regs := fun k => if k = r then v else m.regs k }

/-- The machine after an instruction that goes on to the next one. -/
def next (m : Machine) : Machine := { m with pc := m.pc + 4 }

/-- The machine after a jump. -/
def jump (m : Machine) (target : Word) : Machine := { m with pc := target &&& ~~~1 }

def exec (w : Word) (m : Machine) : Option Machine :=
  let upper : Word := w.extractLsb' 12 20 ++ 0#12
  let imm : Word := (w.extractLsb' 20 12).signExtend 32
  if w.opcode = 0b0110111 then some (m.write w.rd upper).next
  else if w.opcode = 0b0010111 then some (m.write w.rd (m.pc + upper)).next
  else if w.opcode = 0b0010011 ∧ w.funct3 = 0 then some (m.write w.rd (m.read w.rs1 + imm)).next
  else if w.opcode = 0b1100111 ∧ w.funct3 = 0 then some ((m.write w.rd (m.pc + 4)).jump (m.read w.rs1 + imm))
  else none

/-- The machine after `n` instructions. -/
def run (mem : Word → Word) : (n : Nat) → Machine → Option Machine
  | 0, m => some m
  | n + 1, m => (exec (mem m.pc) m).bind (run mem n)

/-- The words stand in memory from `pc` on. -/
def Holds (mem : Word → Word) : (pc : Word) → List Word → Prop
  | _, [] => True
  | pc, w :: r => mem pc = w ∧ Holds mem (pc + 4) r

/-! ## Registers -/

@[simp] theorem next_pc (m : Machine) : m.next.pc = m.pc + 4 := rfl

@[simp] theorem next_read (m : Machine) (r : Reg) : m.next.read r = m.read r := rfl

@[simp] theorem jump_pc (m : Machine) (target : Word) : (m.jump target).pc = target &&& ~~~1 := rfl

@[simp] theorem jump_read (m : Machine) (target : Word) (r : Reg) : (m.jump target).read r = m.read r := rfl

@[simp] theorem write_pc (m : Machine) (r : Reg) (v : Word) : (m.write r v).pc = m.pc := by
  unfold write
  split <;> rfl

@[simp] theorem write_zero (m : Machine) (v : Word) : m.write 0 v = m := if_pos rfl

theorem write_read_self (m : Machine) {r : Reg} (hr : r ≠ 0) (v : Word) : (m.write r v).read r = v := by
  rw [read, if_neg hr, write, if_neg hr]
  exact if_pos rfl

theorem write_read_of_ne (m : Machine) {r k : Reg} (hk : k ≠ r) (v : Word) : (m.write r v).read k = m.read k := by
  unfold write
  split
  · rfl
  · simp [read, hk]

/-! ## One instruction -/

theorem extract_high (v : Word) : (v.high.setWidth 32).extractLsb' 0 20 = v.high := by
  apply BitVec.eq_of_getLsbD_eq
  intro i hi
  simp only [BitVec.getLsbD_extractLsb', BitVec.getLsbD_setWidth]
  grind

theorem extract_low (v : Word) : (v.low.signExtend 32).extractLsb' 0 12 = v.low := by
  apply BitVec.eq_of_getLsbD_eq
  intro i hi
  simp only [BitVec.getLsbD_extractLsb', BitVec.getLsbD_signExtend]
  grind

/-- The upper half of a value, loaded. -/
theorem exec_lui (m : Machine) (rd : Reg) (v : Word) :
    exec (Instruction.toWord { op := .lui, rd, imm := v.high.setWidth 32 }) m =
      some (m.write rd (v.high ++ 0#12)).next := by
  have hw : Instruction.toWord { op := .lui, rd, imm := v.high.setWidth 32 } =
      (BaseOp.coding .lui).packU rd (v.high.setWidth 32) := rfl
  rw [hw, exec, Coding.opcode_packU, if_pos (by rfl), Coding.rd_packU, Coding.extract_packU, extract_high]

/-- The upper half of a value, added to the address of the instruction. -/
theorem exec_auipc (m : Machine) (rd : Reg) (v : Word) :
    exec (Instruction.toWord { op := .auipc, rd, imm := v.high.setWidth 32 }) m =
      some (m.write rd (m.pc + (v.high ++ 0#12))).next := by
  have hw : Instruction.toWord { op := .auipc, rd, imm := v.high.setWidth 32 } =
      (BaseOp.coding .auipc).packU rd (v.high.setWidth 32) := rfl
  rw [hw, exec, Coding.opcode_packU, if_neg (by decide), if_pos (by rfl), Coding.rd_packU, Coding.extract_packU,
    extract_high]

theorem exec_addi (m : Machine) (rd rs1 : Reg) (imm : Word) :
    exec (Instruction.toWord { op := .addi, rd, rs1, imm }) m =
      some (m.write rd (m.read rs1 + (imm.extractLsb' 0 12).signExtend 32)).next := by
  have hw : Instruction.toWord { op := .addi, rd, rs1, imm } = (BaseOp.coding .addi).packI rd rs1 imm := rfl
  rw [hw, exec, Coding.opcode_packI, if_neg (by decide), if_neg (by decide), Coding.funct3_packI,
    if_pos ⟨rfl, rfl⟩, Coding.rd_packI, Coding.rs1_packI, Coding.extract_packI]

theorem exec_jalr (m : Machine) (rd rs1 : Reg) (imm : Word) :
    exec (Instruction.toWord { op := .jalr, rd, rs1, imm }) m =
      some ((m.write rd (m.pc + 4)).jump (m.read rs1 + (imm.extractLsb' 0 12).signExtend 32)) := by
  have hw : Instruction.toWord { op := .jalr, rd, rs1, imm } = (BaseOp.coding .jalr).packI rd rs1 imm := rfl
  rw [hw, exec, Coding.opcode_packI, if_neg (by decide), if_neg (by decide), Coding.funct3_packI,
    if_neg (by decide), if_pos ⟨rfl, rfl⟩, Coding.rd_packI, Coding.rs1_packI, Coding.extract_packI]

/-! ## Values in two halves -/

/-- `n` instructions end at `pc`, with `v` in `rd` and every other register as it was. -/
def Ends (mem : Word → Word) (n : Nat) (m : Machine) (pc : Word) (rd : Reg) (v : Word) : Prop :=
  ∃ m', run mem n m = some m' ∧ m'.pc = pc ∧ m'.read rd = v ∧ ∀ r, r ≠ rd → m'.read r = m.read r

variable {mem : Word → Word} {m : Machine} {rd : Reg}

theorem run_step {w : Word} {m' : Machine} {n : Nat} (hw : mem m.pc = w) (he : exec w m = some m') :
    run mem (n + 1) m = run mem n m' := by
  rw [run, hw, he, Option.bind_some]

/-- A register loaded with one half, then the other half added to it. -/
theorem ends_of_halves {w v : Word} (base : Word) (hr : rd ≠ 0)
    (he : exec w m = some (m.write rd (base + (v.high ++ 0#12))).next)
    (hm : Holds mem m.pc [w, Instruction.toWord { op := .addi, rd, rs1 := rd, imm := v.low.signExtend 32 }]) :
    Ends mem 2 m (m.pc + 8) rd (base + v) := by
  obtain ⟨h₁, h₂, _⟩ := hm
  have fetch : mem (m.write rd (base + (v.high ++ 0#12))).next.pc =
      Instruction.toWord { op := .addi, rd, rs1 := rd, imm := v.low.signExtend 32 } := by
    rw [next_pc, write_pc, h₂]
  refine ⟨_, (run_step h₁ he).trans (run_step fetch (exec_addi _ _ _ _)), ?_, ?_, ?_⟩
  · rw [next_pc, write_pc, next_pc, write_pc, BitVec.add_assoc]
    rfl
  · rw [next_read, write_read_self _ hr, next_read, write_read_self _ hr, extract_low, BitVec.add_assoc, Word.high_low]
  · intro r hne
    rw [next_read, write_read_of_ne _ hne, next_read, write_read_of_ne _ hne]

/-- A value loaded as it is. -/
theorem ends_lui_addi {v : Word} (hr : rd ≠ 0)
    (hm : Holds mem m.pc [Instruction.toWord { op := .lui, rd, imm := v.high.setWidth 32 },
      Instruction.toWord { op := .addi, rd, rs1 := rd, imm := v.low.signExtend 32 }]) :
    Ends mem 2 m (m.pc + 8) rd v := by
  have h := ends_of_halves 0#32 hr (by rw [exec_lui, BitVec.zero_add]) hm
  rwa [BitVec.zero_add] at h

/-- A value loaded by its distance. -/
theorem ends_auipc_addi {v : Word} (hr : rd ≠ 0)
    (hm : Holds mem m.pc [Instruction.toWord { op := .auipc, rd, imm := v.high.setWidth 32 },
      Instruction.toWord { op := .addi, rd, rs1 := rd, imm := v.low.signExtend 32 }]) :
    Ends mem 2 m (m.pc + 8) rd (m.pc + v) :=
  ends_of_halves m.pc hr (exec_auipc m rd v) hm

/-- A jump to a distance, with the way back in the register that it went through. -/
theorem ends_auipc_jalr {v : Word} (hr : rd ≠ 0)
    (hm : Holds mem m.pc [Instruction.toWord { op := .auipc, rd, imm := v.high.setWidth 32 },
      Instruction.toWord { op := .jalr, rd, rs1 := rd, imm := v.low.signExtend 32 }]) :
    Ends mem 2 m ((m.pc + v) &&& ~~~1) rd (m.pc + 8) := by
  obtain ⟨h₁, h₂, _⟩ := hm
  have fetch : mem (m.write rd (m.pc + (v.high ++ 0#12))).next.pc =
      Instruction.toWord { op := .jalr, rd, rs1 := rd, imm := v.low.signExtend 32 } := by
    rw [next_pc, write_pc, h₂]
  refine ⟨_, (run_step h₁ (exec_auipc m rd v)).trans (run_step fetch (exec_jalr _ _ _ _)), ?_, ?_, ?_⟩
  · rw [jump_pc, next_read, write_read_self _ hr, extract_low, BitVec.add_assoc, Word.high_low]
  · rw [jump_read, write_read_self _ hr, next_pc, write_pc, BitVec.add_assoc]
    rfl
  · intro r hne
    rw [jump_read, write_read_of_ne _ hne, next_read, write_read_of_ne _ hne]

/-! ## One run after another -/

theorem run_add (n k : Nat) (m : Machine) : run mem (n + k) m = (run mem n m).bind (run mem k) := by
  induction n generalizing m with
  | zero => rw [Nat.zero_add, run, Option.bind_some]
  | succ n ih =>
    rw [Nat.add_right_comm, run, run, Option.bind_assoc]
    congr 1
    funext m'
    exact ih m'

/-- A jump through a register that has been loaded. -/
theorem Ends.jalr {n : Nat} {pc v : Word} (h : Ends mem n m pc rd v)
    (hm : mem pc = Instruction.toWord { op := .jalr, rs1 := rd }) : Ends mem (n + 1) m (v &&& ~~~1) rd v := by
  obtain ⟨m', hrun, rfl, rfl, hframe⟩ := h
  have hjump : exec (Instruction.toWord { op := .jalr, rs1 := rd }) m' = some (m'.jump (m'.read rd)) := by
    rw [exec_jalr, write_zero, show ((0 : Word).extractLsb' 0 12).signExtend 32 = 0#32 by decide, BitVec.add_zero]
  refine ⟨m'.jump (m'.read rd), ?_, rfl, rfl, hframe⟩
  rw [run_add, hrun, Option.bind_some, run_step hm hjump, run]

end Machine

end Rv32Tools
