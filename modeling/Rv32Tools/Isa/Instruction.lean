import Rv32Tools.Isa.Mnemonic

/-
  Rv32Tools.Isa.Instruction — one base instruction with its operands, as a word and as text.

  `toWord` and `ofWord?` pass between an instruction and its machine word; `render` writes it as source,
  with registers by the calling convention and the targets of branches and jumps as absolute addresses.

  `disassemble` writes a run of words one row each, with address and word in front. An upper load followed
  by an addition to the same register is shown as the constant that the two of them make.
-/

namespace Rv32Tools

/-- A base instruction. Operands that its format has no field for are zero. -/
structure Instruction where
  op : BaseOp
  rd : Reg := 0
  rs1 : Reg := 0
  rs2 : Reg := 0
  imm : Word := 0
  deriving DecidableEq, Repr

namespace Instruction

def toWord (i : Instruction) : Word :=
  let c := i.op.coding
  match i.op.format with
  | .r => c.packR i.rd i.rs1 i.rs2
  | .i => c.packI i.rd i.rs1 i.imm
  | .shift => c.packShift i.rd i.rs1 i.imm
  | .s => c.packS i.rs2 i.rs1 i.imm
  | .b => c.packB i.rs1 i.rs2 i.imm
  | .u => c.packU i.rd i.imm
  | .j => c.packJ i.rd i.imm
  | .pseudo => 0

/-- The instruction that a word stands for, with every register field read whether the format has it or not. -/
def ofWord? (w : Word) : Option Instruction :=
  (BaseOp.ofWord? w).map fun op => ⟨op, w.rd, w.rs1, w.rs2, w.immediate op.format⟩

/-- The address that a branch or jump at `pc` goes to. -/
def target (i : Instruction) (pc : Word) : Word := pc + i.imm

def renderTarget (i : Instruction) (pc : Word) : Text := "0x" ++ Text.hexLower 8 (i.target pc).toNat

/-- The instruction at address `pc` as source text. -/
def render (i : Instruction) (pc : Word) : Text :=
  let offset := Text.decimalInt i.imm.toInt
  let operands : List Text :=
    match i.op.format with
    | .r => [i.rd.name, i.rs1.name, i.rs2.name]
    | .i => if i.op.isIndexed then [i.rd.name, offset ++ "(" ++ i.rs1.name ++ ")"] else [i.rd.name, i.rs1.name, offset]
    | .shift => [i.rd.name, i.rs1.name, offset]
    | .s => [i.rs2.name, offset ++ "(" ++ i.rs1.name ++ ")"]
    | .b => [i.rs1.name, i.rs2.name, i.renderTarget pc]
    | .u => [i.rd.name, "0x" ++ Text.hexShort i.imm.toNat]
    | .j => [i.rd.name, i.renderTarget pc]
    | .pseudo => []
  i.op.name ++ " " ++ Text.join ", " operands

end Instruction

namespace Word

/-- The word at address `pc` as source text; one that is no instruction is shown as data. -/
def render (w pc : Word) : Text :=
  match Instruction.ofWord? w with
  | some i => i.render pc
  | none => ".word 0x" ++ Text.hexLower 8 w.toNat

/-- Address and word, as a row of a disassembly starts. -/
def rowHead (pc w : Word) : Text := Text.hexUpper 8 pc.toNat ++ ": " ++ Text.hexLower 8 w.toNat

/-- The register and the constant loaded by an upper load and the addition after it. -/
def loadedConstant? (w v : Word) : Option (Reg × Word) :=
  match Instruction.ofWord? w, Instruction.ofWord? v with
  | some i, some k =>
    if i.op = .lui ∧ k.op = .addi ∧ k.rd = i.rd ∧ k.rs1 = i.rd then some (i.rd, (i.imm <<< 12) + k.imm) else none
  | _, _ => none

/-- One row for each word of a run that starts at `pc`. -/
def disassemble (pc : Word) : List Word → List Text
  | [] => []
  | [w] => [rowHead pc w ++ "    " ++ w.render pc]
  | w :: v :: r =>
    match loadedConstant? w v with
    | some (rd, value) =>
      (rowHead pc w ++ "    li " ++ rd.name ++ ", 0x" ++ (Text.hexShort value.toNat).map Text.upperByte) ::
        (rowHead (pc + 4) v ++ "     # (" ++ v.render (pc + 4) ++ ")") :: disassemble (pc + 8) r
    | none => (rowHead pc w ++ "    " ++ w.render pc) :: disassemble (pc + 4) (v :: r)

end Word

end Rv32Tools
