import Rv32Tools.Isa.Register

/-
  Rv32Tools.Isa.Format — how the fields of an instruction lie in its word.

    R        funct7[31:25] rs2[24:20] rs1[19:15] funct3[14:12] rd[11:7] opcode[6:0]
    I        imm[11:0]                rs1        funct3        rd       opcode
    I-shift  funct7        shamt      rs1        funct3        rd       opcode
    S        imm[11:5]     rs2        rs1        funct3        imm[4:0] opcode
    B        imm[12|10:5]  rs2        rs1        funct3   imm[4:1|11]   opcode
    U        imm[19:0]                                         rd       opcode
    J        imm[20|10:1|11|19:12]                             rd       opcode

  `pack` lays an immediate into its field and drops the bits that have no place there; `immediate` reads
  the field back, sign-extended for I, S, B and J.
-/

namespace Rv32Tools

inductive Format where
  | r
  | i
  | shift
  | s
  | b
  | u
  | j
  | pseudo
  deriving DecidableEq, Repr

namespace Format

def all : List Format := [.r, .i, .shift, .s, .b, .u, .j, .pseudo]

def name : Format → Text
  | .r => "R"
  | .i => "I"
  | .shift => "I-shift"
  | .s => "S"
  | .b => "B"
  | .u => "U"
  | .j => "J"
  | .pseudo => "pseudo"

/-- The name of the format at a place of `all`; a place outside it is shown as a number. -/
def nameAt (tag : UInt8) : Text :=
  match all[tag.toNat]? with
  | some f => f.name
  | none => "Format(" ++ Text.decimal tag.toNat ++ ")"

end Format

/-- The fixed fields of an instruction. A field that the format does not use is zero. -/
structure Coding where
  opcode : BitVec 7
  funct3 : BitVec 3
  funct7 : BitVec 7
  deriving DecidableEq, Repr

namespace Coding

def packR (c : Coding) (rd rs1 rs2 : Reg) : Word := c.funct7 ++ rs2 ++ rs1 ++ c.funct3 ++ rd ++ c.opcode

def packI (c : Coding) (rd rs1 : Reg) (imm : Word) : Word :=
  imm.extractLsb' 0 12 ++ rs1 ++ c.funct3 ++ rd ++ c.opcode

def packShift (c : Coding) (rd rs1 : Reg) (amount : Word) : Word :=
  c.funct7 ++ amount.extractLsb' 0 5 ++ rs1 ++ c.funct3 ++ rd ++ c.opcode

def packS (c : Coding) (rs2 rs1 : Reg) (imm : Word) : Word :=
  imm.extractLsb' 5 7 ++ rs2 ++ rs1 ++ c.funct3 ++ imm.extractLsb' 0 5 ++ c.opcode

def packB (c : Coding) (rs1 rs2 : Reg) (offset : Word) : Word :=
  offset.extractLsb' 12 1 ++ offset.extractLsb' 5 6 ++ rs2 ++ rs1 ++ c.funct3 ++
    offset.extractLsb' 1 4 ++ offset.extractLsb' 11 1 ++ c.opcode

def packU (c : Coding) (rd : Reg) (imm : Word) : Word := imm.extractLsb' 0 20 ++ rd ++ c.opcode

def packJ (c : Coding) (rd : Reg) (offset : Word) : Word :=
  offset.extractLsb' 20 1 ++ offset.extractLsb' 1 10 ++ offset.extractLsb' 11 1 ++
    offset.extractLsb' 12 8 ++ rd ++ c.opcode

end Coding

namespace Word

def opcode (w : Word) : BitVec 7 := w.extractLsb' 0 7

def rd (w : Word) : Reg := w.extractLsb' 7 5

def funct3 (w : Word) : BitVec 3 := w.extractLsb' 12 3

def rs1 (w : Word) : Reg := w.extractLsb' 15 5

def rs2 (w : Word) : Reg := w.extractLsb' 20 5

def funct7 (w : Word) : BitVec 7 := w.extractLsb' 25 7

/-- The immediate that a word of the given format carries: sign-extended for I, S, B and J, the twenty bits
as they are for U, the amount for a shift. -/
def immediate (w : Word) : Format → Word
  | .i => (w.extractLsb' 20 12).signExtend 32
  | .shift => (w.extractLsb' 20 5).setWidth 32
  | .s => (w.extractLsb' 25 7 ++ w.extractLsb' 7 5).signExtend 32
  | .b =>
    (w.extractLsb' 31 1 ++ w.extractLsb' 7 1 ++ w.extractLsb' 25 6 ++ w.extractLsb' 8 4 ++ 0#1).signExtend 32
  | .u => (w.extractLsb' 12 20).setWidth 32
  | .j =>
    (w.extractLsb' 31 1 ++ w.extractLsb' 12 8 ++ w.extractLsb' 20 1 ++ w.extractLsb' 21 10 ++ 0#1).signExtend 32
  | .r => 0
  | .pseudo => 0

/-- The low `bits` bits of a word, sign-extended. -/
def signExtendFrom (bits : Nat) (w : Word) : Word := (w.setWidth bits).signExtend 32

/-! ## Values in two halves

An upper instruction followed by an addition of a signed twelve-bit immediate makes any word. When bit 11 of
the low half is set the addition takes 4096 away, and the upper half is one more to make up for it. -/

/-- The low half: the last twelve bits. -/
def low (w : Word) : BitVec 12 := w.extractLsb' 0 12

/-- The upper half: the first twenty bits, and one more when the low half is negative. -/
def high (w : Word) : BitVec 20 := w.extractLsb' 12 20 + (if (low w).msb then 1 else 0)

/-- The upper half by rounding: half a unit is added before the low bits go. -/
def highRounded (w : Word) : BitVec 20 := (w + 0x800).extractLsb' 12 20

end Word

end Rv32Tools
