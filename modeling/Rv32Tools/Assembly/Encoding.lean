import Rv32Tools.Assembly.Diagnostic
import Rv32Tools.Assembly.Operand
import Rv32Tools.Isa.Instruction
import Rv32Tools.Source.Line

/-
  Rv32Tools.Assembly.Encoding — a source line as base instructions.

  Operands of the base instructions, in order:

    R        rd rs1 rs2              B        rs1 rs2 target
    I        rd rs1 imm              U        rd imm
    I-shift  rd rs1 amount           J        [rd] target     rd is ra when left out
    S        rs2 rs1 imm

  Pseudo-instructions:

    mv rd rs       addi rd, rs, 0          j target       jal zero, target
    mvi rd imm     addi rd, zero, imm      j1 target      jal ra, target
    nop            addi zero, zero, 0      jr rs          jalr zero, rs, 0
    not rd rs      xori rd, rs, -1         ret            jalr zero, ra, 0
    inv rd [rs]    xori rd, rs, -1         li rd imm      lui, addi
    seqz rd rs     sltiu rd, rs, 1         la rd x        lui or auipc, addi
    snez rd rs     sltu rd, zero, rs       call target    auipc ra, jalr ra
    beqz rs t      beq rs, zero, t         ja [rd] x      lui or auipc, addi, jalr zero
    bnez rs t      bne rs, zero, t

  A target is a label, or the distance itself as a number. `la` and `ja` go through `auipc` when the run is
  position-independent and `x` is a label of the text segment. Immediates are not checked against their
  fields: what does not fit is dropped.

  The number of operands is checked first, then the operands from the left.
-/

namespace Rv32Tools.Assembly

open Source (Line)

inductive LineError where
  /-- The fault that the line came with. -/
  | fault (message : Text)
  | unknownMnemonic (name : Text)
  | operandCount (name : Text) (expected : List Nat) (got : Nat)
  | register (token : Text)
  | immediate (token : Text)
  deriving DecidableEq, Repr

def LineError.message : LineError → Text
  | .fault message => message
  | .unknownMnemonic name => "invalid/unsupported opcode '" ++ name ++ "'"
  | .operandCount name expected got =>
    "invalid no. of operands for " ++ Text.toUpper name ++ ": expected " ++
      Text.join " or " (expected.map Text.decimal) ++ ", got " ++ Text.decimal got
  | .register token => "invalid/unsupported register '" ++ token ++ "'"
  | .immediate token => "invalid immediate/offset value or label '" ++ token ++ "'"

/-- What the meaning of an instruction hangs on besides its text. -/
structure Context where
  symbols : SymbolTable
  positionIndependent : Bool
  pc : Word
  deriving DecidableEq, Repr

namespace Context

def register (token : Text) : Except LineError Reg :=
  match Reg.ofText? token with
  | some r => .ok r
  | none => .error (.register token)

/-- A number. -/
def literal (token : Text) : Except LineError Word :=
  match Source.number? token with
  | some v => .ok (BitVec.ofInt 32 v)
  | none => .error (.immediate token)

/-- The distance to a target: a label counts from this instruction, a number is the distance itself. -/
def distance (x : Context) (token : Text) : Except LineError Word :=
  match Operand.resolve x.symbols token with
  | .literal v => .ok (BitVec.ofInt 32 v)
  | .label s => .ok (s.address - x.pc)
  | .invalid => .error (.immediate token)

/-- The instruction that loads the upper half of an address into `rd`, and the low half that is left. -/
def upper (x : Context) (rd : Reg) (token : Text) : Except LineError (Instruction × Word) :=
  match Operand.resolve x.symbols token with
  | .invalid => .error (.immediate token)
  | .literal v => .ok (halves .lui rd (BitVec.ofInt 32 v))
  | .label s =>
    if x.positionIndependent && s.segment = .text then .ok (halves .auipc rd (s.address - x.pc))
    else .ok (halves .lui rd s.address)
where
  halves (op : BaseOp) (rd : Reg) (v : Word) : Instruction × Word :=
    ({ op, rd, imm := v.high.setWidth 32 }, v.low.signExtend 32)

/-- A base instruction with its operands. `wrong` is the answer to a wrong number of them. -/
def expandBase (x : Context) (wrong : Except LineError (List Instruction)) (op : BaseOp) (operands : List Text) :
    Except LineError (List Instruction) :=
  match op.format, operands with
  | .r, [a, b, c] => do
    let rd ← register a
    let rs1 ← register b
    let rs2 ← register c
    return [{ op, rd, rs1, rs2 }]
  | .i, [a, b, c] | .shift, [a, b, c] => do
    let rd ← register a
    let rs1 ← register b
    let imm ← literal c
    return [{ op, rd, rs1, imm }]
  | .s, [a, b, c] => do
    let rs2 ← register a
    let rs1 ← register b
    let imm ← literal c
    return [{ op, rs1, rs2, imm }]
  | .b, [a, b, c] => do
    let rs1 ← register a
    let rs2 ← register b
    let imm ← x.distance c
    return [{ op, rs1, rs2, imm }]
  | .u, [a, b] => do
    let rd ← register a
    let imm ← literal b
    return [{ op, rd, imm }]
  | .j, [a] => do
    let imm ← x.distance a
    return [{ op, rd := .ra, imm }]
  | .j, [a, b] => do
    let rd ← register a
    let imm ← x.distance b
    return [{ op, rd, imm }]
  | _, _ => wrong

/-- The words of a far jump through `rd`. -/
def farJump (x : Context) (rd : Reg) (token : Text) : Except LineError (List Instruction) := do
  let (up, low) ← x.upper rd token
  return [up, { op := .addi, rd, rs1 := rd, imm := low }, { op := .jalr, rs1 := rd }]

def expandPseudo (x : Context) (wrong : Except LineError (List Instruction)) (p : Pseudo) (operands : List Text) :
    Except LineError (List Instruction) :=
  match p, operands with
  | .mv, [a, b] => do
    let rd ← register a
    let rs1 ← register b
    return [{ op := .addi, rd, rs1 }]
  | .mvi, [a, b] => do
    let rd ← register a
    let imm ← literal b
    return [{ op := .addi, rd, imm }]
  | .nop, [] => .ok [{ op := .addi }]
  | .not, [a, b] | .inv, [a, b] => do
    let rd ← register a
    let rs1 ← register b
    return [{ op := .xori, rd, rs1, imm := -1 }]
  | .inv, [a] => do
    let rd ← register a
    return [{ op := .xori, rd, rs1 := rd, imm := -1 }]
  | .seqz, [a, b] => do
    let rd ← register a
    let rs1 ← register b
    return [{ op := .sltiu, rd, rs1, imm := 1 }]
  | .snez, [a, b] => do
    let rd ← register a
    let rs2 ← register b
    return [{ op := .sltu, rd, rs2 }]
  | .beqz, [a, b] => do
    let rs1 ← register a
    let imm ← x.distance b
    return [{ op := .beq, rs1, imm }]
  | .bnez, [a, b] => do
    let rs1 ← register a
    let imm ← x.distance b
    return [{ op := .bne, rs1, imm }]
  | .j, [a] => do
    let imm ← x.distance a
    return [{ op := .jal, imm }]
  | .j1, [a] => do
    let imm ← x.distance a
    return [{ op := .jal, rd := .ra, imm }]
  | .jr, [a] => do
    let rs1 ← register a
    return [{ op := .jalr, rs1 }]
  | .ret, [] => .ok [{ op := .jalr, rs1 := .ra }]
  | .li, [a, b] => do
    let rd ← register a
    let v ← literal b
    return [{ op := .lui, rd, imm := v.high.setWidth 32 },
      { op := .addi, rd, rs1 := rd, imm := v.low.signExtend 32 }]
  | .la, [a, b] => do
    let rd ← register a
    let (up, low) ← x.upper rd b
    return [up, { op := .addi, rd, rs1 := rd, imm := low }]
  | .call, [a] => do
    let v ← x.distance a
    return [{ op := .auipc, rd := .ra, imm := v.high.setWidth 32 },
      { op := .jalr, rd := .ra, rs1 := .ra, imm := v.low.signExtend 32 }]
  | .ja, [a] => x.farJump .t1 a
  | .ja, [a, b] => do
    let rd ← register a
    x.farJump rd b
  | _, _ => wrong

/-- The instruction `name` with its operands. -/
def expand (x : Context) (name : Text) (operands : List Text) : Except LineError (List Instruction) :=
  match Mnemonic.ofText? name with
  | none => .error (.unknownMnemonic name)
  | some m =>
    let wrong := .error (.operandCount name m.operandCounts operands.length)
    match m with
    | .base op => x.expandBase wrong op operands
    | .pseudo p => x.expandPseudo wrong p operands

/-- A line with an instruction on it. -/
def line (x : Context) (l : Line) : Except (Halt LineError) (List Instruction) :=
  match l.fault with
  | some message => .error (.error (.fault message))
  | none =>
    match Text.words l.statement.body with
    | [] => .error (.abort .blankInstruction)
    | name :: operands =>
      match x.expand name operands with
      | .ok is => .ok is
      | .error e => .error (.error e)

end Context

end Rv32Tools.Assembly
