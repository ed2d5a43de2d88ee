import Mathlib.Data.Bool.Basic
import Rv32Tools.Proofs.Isa.Fields
import Rv32Tools.Proofs.Source.Bytes
import Rv32Tools.Assembly.Encoding

/-
  Rv32Tools.Proofs.Isa.Decoding — instructions and their words, in both directions.

  The fixed fields that a format has tell the base instructions apart (`BaseOp.selects_unique`), so that a word stands
  for the instruction that selects it and for no other (`BaseOp.ofWord?_eq_some_iff`). Packed fields are found again
  where the format has them (`Coding.fields_packR` and so on), and the fields of a word packed again are the word
  (`Coding.packR_fields` and so on), since no format leaves a bit unused.

  - `Instruction.ofWord?_toWord`: a packed instruction is read back, with its immediate cut to the field.
  - `Instruction.toWord_of_ofWord?`: a word that is read can be packed again.
  - `Instruction.words_read_back`: the two together, and that every word of an assembled line is an instruction.
-/

namespace Rv32Tools

open BitVec (extractLsb'_append_eq_of_add_le extractLsb'_append_eq_of_le)

/-! ## The instruction that a word selects -/

namespace BaseOp

def hasFunct3 (op : BaseOp) : Bool := !(op.format == .u || op.format == .j)

def hasFunct7 (op : BaseOp) : Bool := op.format == .r || op.format == .shift

theorem mem_all (op : BaseOp) : op ∈ all := by cases op <;> decide

theorem selects_iff {op : BaseOp} {w : Word} :
    op.selects w = true ↔ w.opcode = op.opcode ∧ (op.hasFunct3 = true → w.funct3 = op.funct3) ∧
      (op.hasFunct7 = true → w.funct7 = op.funct7) := by
  simp only [selects, hasFunct3, hasFunct7, Bool.and_eq_true, Bool.or_eq_true, Bool.not_eq_true', beq_iff_eq,
    Bool.or_eq_false_iff, and_assoc]
  grind

/-- Two instructions with the same opcode differ in a field that both of them have. -/
theorem eq_of_fields {op op' : BaseOp} (ho : op.opcode = op'.opcode)
    (h3 : op.hasFunct3 = true → op'.hasFunct3 = true → op.funct3 = op'.funct3)
    (h7 : op.hasFunct7 = true → op'.hasFunct7 = true → op.funct7 = op'.funct7) : op = op' := by
  have table : ∀ op ∈ all, ∀ op' ∈ all, op.opcode = op'.opcode →
      (op.hasFunct3 = true → op'.hasFunct3 = true → op.funct3 = op'.funct3) →
      (op.hasFunct7 = true → op'.hasFunct7 = true → op.funct7 = op'.funct7) → op = op' := by decide +kernel
  exact table op op.mem_all op' op'.mem_all ho h3 h7

theorem selects_unique {op op' : BaseOp} {w : Word} (h : op.selects w = true) (h' : op'.selects w = true) : op = op' := by
  obtain ⟨ho, h3, h7⟩ := selects_iff.mp h
  obtain ⟨ho', h3', h7'⟩ := selects_iff.mp h'
  refine eq_of_fields (ho.symm.trans ho') (fun hf hf' => ?_) (fun hf hf' => ?_)
  · exact (h3 hf).symm.trans (h3' hf')
  · exact (h7 hf).symm.trans (h7' hf')

theorem selects_of_ofWord? {w : Word} {op : BaseOp} (h : ofWord? w = some op) : op.selects w = true := by
  have hs := List.find?_some h
  exact hs

theorem ofWord?_eq_some_iff {w : Word} {op : BaseOp} : ofWord? w = some op ↔ op.selects w = true := by
  constructor
  · exact selects_of_ofWord?
  · intro h
    cases hf : ofWord? w with
    | none => exact absurd h (List.find?_eq_none.mp hf op op.mem_all)
    | some op' => rw [selects_unique (selects_of_ofWord? hf) h]

end BaseOp

/-! ## Fields packed and read -/

/-- What is left of an immediate in the field of a format, as it is read back. -/
def Format.kept (f : Format) (imm : Word) : Word :=
  match f with
  | .i | .s => Word.signExtendFrom 12 imm
  | .b => Word.signExtendFrom 13 (imm &&& ~~~1)
  | .j => Word.signExtendFrom 21 (imm &&& ~~~1)
  | .shift => imm &&& 0x1F
  | .u => imm &&& 0xFFFFF
  | .r | .pseudo => 0

def Format.hasRd : Format → Bool
  | .r | .i | .shift | .u | .j => true
  | .s | .b | .pseudo => false

def Format.hasRs1 : Format → Bool
  | .r | .i | .shift | .s | .b => true
  | .u | .j | .pseudo => false

def Format.hasRs2 : Format → Bool
  | .r | .s | .b => true
  | .i | .shift | .u | .j | .pseudo => false

namespace Coding

variable (c : Coding) (rd rs1 rs2 : Reg) (imm : Word)

theorem fields_packR : (c.packR rd rs1 rs2).opcode = c.opcode ∧ (c.packR rd rs1 rs2).funct3 = c.funct3 ∧
    (c.packR rd rs1 rs2).funct7 = c.funct7 ∧ (c.packR rd rs1 rs2).rd = rd ∧ (c.packR rd rs1 rs2).rs1 = rs1 ∧
    (c.packR rd rs1 rs2).rs2 = rs2 := by
  refine ⟨?_, ?_, ?_, ?_, ?_, ?_⟩ <;>
    simp (disch := omega) only [packR, Word.opcode, Word.funct3, Word.funct7, Word.rd, Word.rs1, Word.rs2,
      extractLsb'_append_eq_of_add_le, extractLsb'_append_eq_of_le, Nat.reduceSub, BitVec.extractLsb'_eq_self]

theorem fields_packShift : (c.packShift rd rs1 imm).opcode = c.opcode ∧ (c.packShift rd rs1 imm).funct3 = c.funct3 ∧
    (c.packShift rd rs1 imm).funct7 = c.funct7 ∧ (c.packShift rd rs1 imm).rd = rd ∧
    (c.packShift rd rs1 imm).rs1 = rs1 ∧ (c.packShift rd rs1 imm).extractLsb' 20 5 = imm.extractLsb' 0 5 := by
  refine ⟨?_, ?_, ?_, ?_, ?_, ?_⟩ <;>
    simp (disch := omega) only [packShift, Word.opcode, Word.funct3, Word.funct7, Word.rd, Word.rs1,
      extractLsb'_append_eq_of_add_le, extractLsb'_append_eq_of_le, Nat.reduceSub, BitVec.extractLsb'_eq_self]

theorem fields_packS : (c.packS rs2 rs1 imm).opcode = c.opcode ∧ (c.packS rs2 rs1 imm).funct3 = c.funct3 ∧
    (c.packS rs2 rs1 imm).rs1 = rs1 ∧ (c.packS rs2 rs1 imm).rs2 = rs2 ∧
    (c.packS rs2 rs1 imm).extractLsb' 25 7 = imm.extractLsb' 5 7 ∧
    (c.packS rs2 rs1 imm).extractLsb' 7 5 = imm.extractLsb' 0 5 := by
  refine ⟨?_, ?_, ?_, ?_, ?_, ?_⟩ <;>
    simp (disch := omega) only [packS, Word.opcode, Word.funct3, Word.rs1, Word.rs2, extractLsb'_append_eq_of_add_le,
      extractLsb'_append_eq_of_le, Nat.reduceSub, BitVec.extractLsb'_eq_self]

theorem fields_packB : (c.packB rs1 rs2 imm).opcode = c.opcode ∧ (c.packB rs1 rs2 imm).funct3 = c.funct3 ∧
    (c.packB rs1 rs2 imm).rs1 = rs1 ∧ (c.packB rs1 rs2 imm).rs2 = rs2 ∧
    (c.packB rs1 rs2 imm).extractLsb' 31 1 = imm.extractLsb' 12 1 ∧
    (c.packB rs1 rs2 imm).extractLsb' 7 1 = imm.extractLsb' 11 1 ∧
    (c.packB rs1 rs2 imm).extractLsb' 25 6 = imm.extractLsb' 5 6 ∧
    (c.packB rs1 rs2 imm).extractLsb' 8 4 = imm.extractLsb' 1 4 := by
  refine ⟨?_, ?_, ?_, ?_, ?_, ?_, ?_, ?_⟩ <;>
    simp (disch := omega) only [packB, Word.opcode, Word.funct3, Word.rs1, Word.rs2, extractLsb'_append_eq_of_add_le,
      extractLsb'_append_eq_of_le, Nat.reduceSub, BitVec.extractLsb'_eq_self]

theorem fields_packJ : (c.packJ rd imm).opcode = c.opcode ∧ (c.packJ rd imm).rd = rd ∧
    (c.packJ rd imm).extractLsb' 31 1 = imm.extractLsb' 20 1 ∧
    (c.packJ rd imm).extractLsb' 12 8 = imm.extractLsb' 12 8 ∧
    (c.packJ rd imm).extractLsb' 20 1 = imm.extractLsb' 11 1 ∧
    (c.packJ rd imm).extractLsb' 21 10 = imm.extractLsb' 1 10 := by
  refine ⟨?_, ?_, ?_, ?_, ?_, ?_⟩ <;>
    simp (disch := omega) only [packJ, Word.opcode, Word.rd, extractLsb'_append_eq_of_add_le,
      extractLsb'_append_eq_of_le, Nat.reduceSub, BitVec.extractLsb'_eq_self]

/-! ## Words packed again -/

variable {c} {w : Word} (ho : w.opcode = c.opcode) (h3 : w.funct3 = c.funct3) (h7 : w.funct7 = c.funct7)

include ho in
theorem packU_fields : c.packU w.rd (w.immediate .u) = w := by
  rw [packU, ← ho]
  apply BitVec.eq_of_getLsbD_eq
  intro k hk
  simp only [Word.opcode, Word.rd, Word.immediate, BitVec.getLsbD_append, BitVec.getLsbD_extractLsb',
    BitVec.getLsbD_setWidth]
  grind

include ho in
theorem packJ_fields : c.packJ w.rd (w.immediate .j) = w := by
  rw [packJ, ← ho]
  apply BitVec.eq_of_getLsbD_eq
  intro k hk
  simp only [Word.opcode, Word.rd, Word.immediate, BitVec.getLsbD_append, BitVec.getLsbD_extractLsb',
    BitVec.getLsbD_signExtend]
  grind

include ho h3

theorem packI_fields : c.packI w.rd w.rs1 (w.immediate .i) = w := by
  rw [packI, ← ho, ← h3]
  apply BitVec.eq_of_getLsbD_eq
  intro k hk
  simp only [Word.opcode, Word.funct3, Word.rd, Word.rs1, Word.immediate, BitVec.getLsbD_append,
    BitVec.getLsbD_extractLsb', BitVec.getLsbD_signExtend]
  grind

theorem packS_fields : c.packS w.rs2 w.rs1 (w.immediate .s) = w := by
  rw [packS, ← ho, ← h3]
  apply BitVec.eq_of_getLsbD_eq
  intro k hk
  simp only [Word.opcode, Word.funct3, Word.rs1, Word.rs2, Word.immediate, BitVec.getLsbD_append,
    BitVec.getLsbD_extractLsb', BitVec.getLsbD_signExtend]
  grind

theorem packB_fields : c.packB w.rs1 w.rs2 (w.immediate .b) = w := by
  rw [packB, ← ho, ← h3]
  apply BitVec.eq_of_getLsbD_eq
  intro k hk
  simp only [Word.opcode, Word.funct3, Word.rs1, Word.rs2, Word.immediate, BitVec.getLsbD_append,
    BitVec.getLsbD_extractLsb', BitVec.getLsbD_signExtend]
  grind

include h7

theorem packR_fields : c.packR w.rd w.rs1 w.rs2 = w := by
  rw [packR, ← ho, ← h3, ← h7]
  apply BitVec.eq_of_getLsbD_eq
  intro k hk
  simp only [Word.opcode, Word.funct3, Word.funct7, Word.rd, Word.rs1, Word.rs2, BitVec.getLsbD_append,
    BitVec.getLsbD_extractLsb']
  grind

theorem packShift_fields : c.packShift w.rd w.rs1 (w.immediate .shift) = w := by
  rw [packShift, ← ho, ← h3, ← h7]
  apply BitVec.eq_of_getLsbD_eq
  intro k hk
  simp only [Word.opcode, Word.funct3, Word.funct7, Word.rd, Word.rs1, Word.immediate, BitVec.getLsbD_append,
    BitVec.getLsbD_extractLsb', BitVec.getLsbD_setWidth]
  grind

end Coding

/-! ## Immediates cut to their fields -/

namespace Format

variable (v : Word)

theorem kept_i : (v.extractLsb' 0 12).signExtend 32 = kept .i v := by
  have bits : v.extractLsb' 0 12 = v.setWidth 12 := by
    apply BitVec.eq_of_getLsbD_eq
    intro k hk
    simp only [BitVec.getLsbD_extractLsb', BitVec.getLsbD_setWidth]
    grind
  rw [bits]
  rfl

theorem kept_s : (v.extractLsb' 5 7 ++ v.extractLsb' 0 5).signExtend 32 = kept .s v := by
  have bits : v.extractLsb' 5 7 ++ v.extractLsb' 0 5 = v.setWidth 12 := by
    apply BitVec.eq_of_getLsbD_eq
    intro k hk
    simp only [BitVec.getLsbD_append, BitVec.getLsbD_extractLsb', BitVec.getLsbD_setWidth]
    grind
  rw [bits]
  rfl

theorem kept_b : (v.extractLsb' 12 1 ++ v.extractLsb' 11 1 ++ v.extractLsb' 5 6 ++ v.extractLsb' 1 4 ++
    0#1).signExtend 32 = kept .b v := by
  have bits : v.extractLsb' 12 1 ++ v.extractLsb' 11 1 ++ v.extractLsb' 5 6 ++ v.extractLsb' 1 4 ++ 0#1 =
      (v &&& ~~~1).setWidth 13 := by
    apply BitVec.eq_of_getLsbD_eq
    intro k hk
    simp only [BitVec.getLsbD_append, BitVec.getLsbD_extractLsb', BitVec.getLsbD_setWidth, BitVec.getLsbD_and,
      BitVec.getLsbD_not]
    grind
  rw [bits]
  rfl

theorem kept_j : (v.extractLsb' 20 1 ++ v.extractLsb' 12 8 ++ v.extractLsb' 11 1 ++ v.extractLsb' 1 10 ++
    0#1).signExtend 32 = kept .j v := by
  have bits : v.extractLsb' 20 1 ++ v.extractLsb' 12 8 ++ v.extractLsb' 11 1 ++ v.extractLsb' 1 10 ++ 0#1 =
      (v &&& ~~~1).setWidth 21 := by
    apply BitVec.eq_of_getLsbD_eq
    intro k hk
    simp only [BitVec.getLsbD_append, BitVec.getLsbD_extractLsb', BitVec.getLsbD_setWidth, BitVec.getLsbD_and,
      BitVec.getLsbD_not]
    grind
  rw [bits]
  rfl

theorem kept_shift : (v.extractLsb' 0 5).setWidth 32 = kept .shift v := by
  apply BitVec.eq_of_toNat_eq
  simp only [kept, BitVec.toNat_setWidth, BitVec.extractLsb'_toNat, BitVec.toNat_and, Nat.shiftRight_zero]
  rw [show (0x1F : Word).toNat = 2 ^ 5 - 1 from rfl, Nat.and_two_pow_sub_one_eq_mod]
  omega

theorem kept_u : (v.extractLsb' 0 20).setWidth 32 = kept .u v := by
  apply BitVec.eq_of_toNat_eq
  simp only [kept, BitVec.toNat_setWidth, BitVec.extractLsb'_toNat, BitVec.toNat_and, Nat.shiftRight_zero]
  rw [show (0xFFFFF : Word).toNat = 2 ^ 20 - 1 from rfl, Nat.and_two_pow_sub_one_eq_mod]
  omega

end Format

/-! ## Both directions -/

namespace Instruction

theorem format_ne_pseudo (op : BaseOp) : op.format ≠ .pseudo := by cases op <;> decide

/-- The word of an instruction has its fixed fields, its registers and what is kept of its immediate. -/
theorem toWord_fields (i : Instruction) :
    i.op.selects i.toWord = true ∧ (i.op.format.hasRd = true → i.toWord.rd = i.rd) ∧
      (i.op.format.hasRs1 = true → i.toWord.rs1 = i.rs1) ∧ (i.op.format.hasRs2 = true → i.toWord.rs2 = i.rs2) ∧
      i.toWord.immediate i.op.format = i.op.format.kept i.imm := by
  rw [BaseOp.selects_iff]
  unfold toWord
  simp only
  cases hf : i.op.format with
  | r =>
    obtain ⟨ho, h3, h7, hrd, hrs1, hrs2⟩ := i.op.coding.fields_packR i.rd i.rs1 i.rs2
    exact ⟨⟨ho, fun _ => h3, fun _ => h7⟩, fun _ => hrd, fun _ => hrs1, fun _ => hrs2, rfl⟩
  | i =>
    have himm := i.op.coding.extract_packI i.rd i.rs1 i.imm
    refine ⟨⟨Coding.opcode_packI .., fun _ => Coding.funct3_packI .., by simp [BaseOp.hasFunct7, hf]⟩,
      fun _ => Coding.rd_packI .., fun _ => Coding.rs1_packI .., by simp [Format.hasRs2], ?_⟩
    rw [Word.immediate, himm, Format.kept_i]
  | shift =>
    obtain ⟨ho, h3, h7, hrd, hrs1, himm⟩ := i.op.coding.fields_packShift i.rd i.rs1 i.imm
    refine ⟨⟨ho, fun _ => h3, fun _ => h7⟩, fun _ => hrd, fun _ => hrs1, by simp [Format.hasRs2], ?_⟩
    rw [Word.immediate, himm, Format.kept_shift]
  | s =>
    obtain ⟨ho, h3, hrs1, hrs2, hhigh, hlow⟩ := i.op.coding.fields_packS i.rs1 i.rs2 i.imm
    refine ⟨⟨ho, fun _ => h3, by simp [BaseOp.hasFunct7, hf]⟩, by simp [Format.hasRd], fun _ => hrs1, fun _ => hrs2, ?_⟩
    rw [Word.immediate, hhigh, hlow, Format.kept_s]
  | b =>
    obtain ⟨ho, h3, hrs1, hrs2, h12, h11, h5, h1⟩ := i.op.coding.fields_packB i.rs1 i.rs2 i.imm
    refine ⟨⟨ho, fun _ => h3, by simp [BaseOp.hasFunct7, hf]⟩, by simp [Format.hasRd], fun _ => hrs1, fun _ => hrs2, ?_⟩
    rw [Word.immediate, h12, h11, h5, h1, Format.kept_b]
  | u =>
    have himm := i.op.coding.extract_packU i.rd i.imm
    refine ⟨⟨Coding.opcode_packU .., by simp [BaseOp.hasFunct3, hf], by simp [BaseOp.hasFunct7, hf]⟩,
      fun _ => Coding.rd_packU .., by simp [Format.hasRs1], by simp [Format.hasRs2], ?_⟩
    rw [Word.immediate, himm, Format.kept_u]
  | j =>
    obtain ⟨ho, hrd, h20, h12, h11, h1⟩ := i.op.coding.fields_packJ i.rd i.imm
    refine ⟨⟨ho, by simp [BaseOp.hasFunct3, hf], by simp [BaseOp.hasFunct7, hf]⟩, fun _ => hrd,
      by simp [Format.hasRs1], by simp [Format.hasRs2], ?_⟩
    rw [Word.immediate, h20, h12, h11, h1, Format.kept_j]
  | pseudo => exact absurd hf (format_ne_pseudo i.op)

theorem ofWord?_toWord (i : Instruction) :
    ∃ k, ofWord? i.toWord = some k ∧ k.op = i.op ∧ (i.op.format.hasRd = true → k.rd = i.rd) ∧
      (i.op.format.hasRs1 = true → k.rs1 = i.rs1) ∧ (i.op.format.hasRs2 = true → k.rs2 = i.rs2) ∧
      k.imm = i.op.format.kept i.imm := by
  obtain ⟨hs, hrd, hrs1, hrs2, himm⟩ := i.toWord_fields
  refine ⟨⟨i.op, i.toWord.rd, i.toWord.rs1, i.toWord.rs2, i.toWord.immediate i.op.format⟩, ?_, rfl, hrd, hrs1, hrs2,
    himm⟩
  rw [ofWord?, BaseOp.ofWord?_eq_some_iff.mpr hs, Option.map_some]

theorem ofWord?_eq_some {w : Word} {i : Instruction} (h : ofWord? w = some i) :
    i.op.selects w = true ∧ i = ⟨i.op, w.rd, w.rs1, w.rs2, w.immediate i.op.format⟩ := by
  obtain ⟨op, hop, rfl⟩ := Option.map_eq_some_iff.mp h
  exact ⟨BaseOp.selects_of_ofWord? hop, rfl⟩

theorem toWord_of_ofWord? {w : Word} {i : Instruction} (h : ofWord? w = some i) : i.toWord = w := by
  obtain ⟨hs, hi⟩ := ofWord?_eq_some h
  obtain ⟨ho, h3, h7⟩ := BaseOp.selects_iff.mp hs
  rw [hi]
  unfold toWord
  simp only
  cases hf : i.op.format with
  | r => exact Coding.packR_fields ho (h3 (by simp [BaseOp.hasFunct3, hf])) (h7 (by simp [BaseOp.hasFunct7, hf]))
  | i => exact Coding.packI_fields ho (h3 (by simp [BaseOp.hasFunct3, hf]))
  | shift =>
    exact Coding.packShift_fields ho (h3 (by simp [BaseOp.hasFunct3, hf])) (h7 (by simp [BaseOp.hasFunct7, hf]))
  | s => exact Coding.packS_fields ho (h3 (by simp [BaseOp.hasFunct3, hf]))
  | b => exact Coding.packB_fields ho (h3 (by simp [BaseOp.hasFunct3, hf]))
  | u => exact Coding.packU_fields ho
  | j => exact Coding.packJ_fields ho
  | pseudo => exact absurd hf (format_ne_pseudo i.op)

/-- Packing and reading undo each other: an instruction comes back from its word with its registers and what its field
keeps of the immediate, a word that is read comes back from its instruction, and whatever a line is assembled to can be
read. -/
theorem words_read_back :
    (∀ i : Instruction, ∃ k, ofWord? i.toWord = some k ∧ k.op = i.op ∧ (i.op.format.hasRd = true → k.rd = i.rd) ∧
      (i.op.format.hasRs1 = true → k.rs1 = i.rs1) ∧ (i.op.format.hasRs2 = true → k.rs2 = i.rs2) ∧
      k.imm = i.op.format.kept i.imm) ∧
    (∀ w i, ofWord? w = some i → i.toWord = w) ∧
    ∀ (x : Assembly.Context) (l : Source.Line) (is : List Instruction), x.line l = .ok is →
      ∀ w ∈ is.map toWord, ∃ i, ofWord? w = some i := by
  refine ⟨ofWord?_toWord, fun w i => toWord_of_ofWord?, fun x l is _ w hw => ?_⟩
  obtain ⟨i, _, rfl⟩ := List.mem_map.mp hw
  obtain ⟨k, hk, _⟩ := i.ofWord?_toWord
  exact ⟨k, hk⟩

/-- A branch backwards by an odd distance loses the odd byte; a shift to the right keeps what tells it from the other
one; both words of a far constant can be read. -/
theorem words_read_back_branch :
    (∃ k, ofWord? (toWord { op := .bne, rs1 := 5, rs2 := 6, imm := -3 }) = some k ∧ k.op = .bne ∧ k.rs1 = 5 ∧
      k.rs2 = 6 ∧ k.imm = -4) ∧
    (∀ i, ofWord? 0x41F5D513 = some i → i.toWord = 0x41F5D513) ∧ ofWord? 0x41F5D513 = some ⟨.srai, 10, 11, 31, 31⟩ ∧
    ∀ w ∈ ([0x80000537, 0xFFF50513] : List Word), ∃ i, ofWord? w = some i := by
  obtain ⟨packed, read, lines⟩ := words_read_back
  obtain ⟨k, hk, hop, _, hrs1, hrs2, himm⟩ := packed { op := .bne, rs1 := 5, rs2 := 6, imm := -3 }
  have hline : Assembly.Context.line ⟨.empty, false, 0⟩ { number := 1, text := "li a0 0x7fffffff" } =
      .ok [{ op := .lui, rd := 10, imm := 0x80000 }, { op := .addi, rd := 10, rs1 := 10, imm := -1 }] :=
    Source.toOption_eq_some (by decide +kernel)
  refine ⟨⟨k, hk, hop, hrs1 rfl, hrs2 rfl, himm.trans (by decide)⟩, read 0x41F5D513, by decide +kernel, fun w hw => ?_⟩
  exact lines _ _ _ hline w hw

end Instruction

end Rv32Tools
