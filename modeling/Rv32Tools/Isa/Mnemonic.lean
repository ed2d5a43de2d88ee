import Rv32Tools.Isa.Format

/-
  Rv32Tools.Isa.Mnemonic — the instructions by name.

  There are thirty-seven base instructions, each one word of a format with fixed fields, and seventeen
  pseudo-instructions, each standing for one to three words. `Mnemonic.words` is the only table of widths:
  the addresses of the text segment and the words put there both go by it.
-/

namespace Rv32Tools

inductive BaseOp where
  | lui | auipc | jal | jalr
  | beq | bne | blt | bge | bltu | bgeu
  | lb | lh | lw | lbu | lhu
  | sb | sh | sw
  | addi | slti | sltiu | xori | ori | andi | slli | srli | srai
  | add | sub | sll | slt | sltu | xor | srl | sra | or | and
  deriving DecidableEq, Repr

namespace BaseOp

def all : List BaseOp := [
  .lui, .auipc, .jal, .jalr, .beq, .bne, .blt, .bge, .bltu, .bgeu, .lb, .lh, .lw, .lbu, .lhu, .sb, .sh, .sw,
  .addi, .slti, .sltiu, .xori, .ori, .andi, .slli, .srli, .srai, .add, .sub, .sll, .slt, .sltu, .xor, .srl,
  .sra, .or, .and]

def name : BaseOp → Text
  | .lui => "lui"
  | .auipc => "auipc"
  | .jal => "jal"
  | .jalr => "jalr"
  | .beq => "beq"
  | .bne => "bne"
  | .blt => "blt"
  | .bge => "bge"
  | .bltu => "bltu"
  | .bgeu => "bgeu"
  | .lb => "lb"
  | .lh => "lh"
  | .lw => "lw"
  | .lbu => "lbu"
  | .lhu => "lhu"
  | .sb => "sb"
  | .sh => "sh"
  | .sw => "sw"
  | .addi => "addi"
  | .slti => "slti"
  | .sltiu => "sltiu"
  | .xori => "xori"
  | .ori => "ori"
  | .andi => "andi"
  | .slli => "slli"
  | .srli => "srli"
  | .srai => "srai"
  | .add => "add"
  | .sub => "sub"
  | .sll => "sll"
  | .slt => "slt"
  | .sltu => "sltu"
  | .xor => "xor"
  | .srl => "srl"
  | .sra => "sra"
  | .or => "or"
  | .and => "and"

def format : BaseOp → Format
  | .lui | .auipc => .u
  | .jal => .j
  | .jalr | .lb | .lh | .lw | .lbu | .lhu | .addi | .slti | .sltiu | .xori | .ori | .andi => .i
  | .beq | .bne | .blt | .bge | .bltu | .bgeu => .b
  | .sb | .sh | .sw => .s
  | .slli | .srli | .srai => .shift
  | .add | .sub | .sll | .slt | .sltu | .xor | .srl | .sra | .or | .and => .r

/-- The major opcode. -/
def opcode : BaseOp → BitVec 7
  | .lui => 0b0110111
  | .auipc => 0b0010111
  | .jal => 0b1101111
  | .jalr => 0b1100111
  | .beq | .bne | .blt | .bge | .bltu | .bgeu => 0b1100011
  | .lb | .lh | .lw | .lbu | .lhu => 0b0000011
  | .sb | .sh | .sw => 0b0100011
  | .addi | .slti | .sltiu | .xori | .ori | .andi | .slli | .srli | .srai => 0b0010011
  | .add | .sub | .sll | .slt | .sltu | .xor | .srl | .sra | .or | .and => 0b0110011

def funct3 : BaseOp → BitVec 3
  | .lui | .auipc | .jal | .jalr => 0b000
  | .beq | .lb | .sb | .addi | .add | .sub => 0b000
  | .bne | .lh | .sh | .slli | .sll => 0b001
  | .lw | .sw | .slti | .slt => 0b010
  | .sltiu | .sltu => 0b011
  | .blt | .lbu | .xori | .xor => 0b100
  | .bge | .lhu | .srli | .srai | .srl | .sra => 0b101
  | .bltu | .ori | .or => 0b110
  | .bgeu | .andi | .and => 0b111

/-- Bit 30 tells `sub`, `sra` and `srai` from their neighbours. -/
def funct7 : BaseOp → BitVec 7
  | .srai | .sub | .sra => 0b0100000
  | _ => 0

def coding (op : BaseOp) : Coding := ⟨op.opcode, op.funct3, op.funct7⟩

/-- Whether the address of an operand is written `offset(register)`. -/
def isIndexed : BaseOp → Bool
  | .jalr | .lb | .lh | .lw | .lbu | .lhu => true
  | _ => false

/-- Whether the fixed fields of a word are those of the instruction. A field counts where the format has it:
`funct3` except in U and J, `funct7` in R and the shifts. -/
def selects (op : BaseOp) (w : Word) : Bool :=
  w.opcode == op.opcode &&
  (op.format == .u || op.format == .j || w.funct3 == op.funct3) &&
  (!(op.format == .r || op.format == .shift) || w.funct7 == op.funct7)

def ofWord? (w : Word) : Option BaseOp := all.find? (·.selects w)

end BaseOp

inductive Pseudo where
  | mv | mvi | nop | not | inv | seqz | snez | beqz | bnez | j | j1 | jr | ret | li | la | call | ja
  deriving DecidableEq, Repr

namespace Pseudo

def all : List Pseudo := [
  .mv, .mvi, .nop, .not, .inv, .seqz, .snez, .beqz, .bnez, .j, .j1, .jr, .ret, .li, .la, .call, .ja]

def name : Pseudo → Text
  | .mv => "mv"
  | .mvi => "mvi"
  | .nop => "nop"
  | .not => "not"
  | .inv => "inv"
  | .seqz => "seqz"
  | .snez => "snez"
  | .beqz => "beqz"
  | .bnez => "bnez"
  | .j => "j"
  | .j1 => "j1"
  | .jr => "jr"
  | .ret => "ret"
  | .li => "li"
  | .la => "la"
  | .call => "call"
  | .ja => "ja"

/-- The number of words that the pseudo-instruction stands for. -/
def words : Pseudo → Nat
  | .li | .la | .call => 2
  | .ja => 3
  | _ => 1

end Pseudo

inductive Mnemonic where
  | base (op : BaseOp)
  | pseudo (p : Pseudo)
  deriving DecidableEq, Repr

namespace Mnemonic

def name : Mnemonic → Text
  | .base op => op.name
  | .pseudo p => p.name

def format : Mnemonic → Format
  | .base op => op.format
  | .pseudo _ => .pseudo

/-- The fixed fields; a pseudo-instruction has none of its own. -/
def coding : Mnemonic → Coding
  | .base op => op.coding
  | .pseudo _ => ⟨0, 0, 0⟩

def words : Mnemonic → Nat
  | .base _ => 1
  | .pseudo p => p.words

def bytes (m : Mnemonic) : Nat := m.words * wordBytes

/-- The numbers of operands that an instruction takes. -/
def operandCounts : Mnemonic → List Nat
  | .base op =>
    match op.format with
    | .u => [2]
    | .j => [1, 2]
    | _ => [3]
  | .pseudo p =>
    match p with
    | .nop | .ret => [0]
    | .j | .j1 | .jr | .call => [1]
    | .inv | .ja => [1, 2]
    | _ => [2]

def all : List Mnemonic := BaseOp.all.map .base ++ Pseudo.all.map .pseudo

/-- The instruction that a text names, in any case. -/
def ofText? (s : Text) : Option Mnemonic := (all.map fun m => (m.name, m)).lookup (Text.toLower s)

/-- The bytes that an instruction with this name takes up. A name that is none takes one word, so that a
line in error does not move the labels after it. -/
def width (name : Text) : Nat :=
  match ofText? name with
  | some m => m.bytes
  | none => wordBytes

end Mnemonic

end Rv32Tools
