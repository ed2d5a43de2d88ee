import Rv32Tools.Proofs.Assembly.Encoding
import Rv32Tools.Proofs.Isa.Machine
import Rv32Tools.Proofs.Source.Bytes

/-
  Rv32Tools.Proofs.Assembly.Execution — what the pseudo-instructions of several words do when they are run.

  `li`, `la`, `call` and `ja` stand for two or three words that make up a value or an address in two halves, from zero
  or from the address of the instruction. For each of them one lemma says which words come out (`expandPseudo_li` to
  `expandPseudo_ja`), and `pseudo_execution` runs these words: the register holds the value, or the machine is at the
  address, and no other register has changed.
-/

namespace Rv32Tools.Assembly.Context

open Machine (Holds Ends)

variable (x : Context)

/-- The operand stands for the address `t`: a number for itself, a label for its own. -/
def Addresses (token : Text) (t : Word) : Prop :=
  match Operand.resolve x.symbols token with
  | .literal v => t = BitVec.ofInt 32 v
  | .label s => t = s.address
  | .invalid => False

/-- The operand leads to the address `t`: a number counts from the instruction, a label is where it is. -/
def Reaches (token : Text) (t : Word) : Prop :=
  match Operand.resolve x.symbols token with
  | .literal v => t = x.pc + BitVec.ofInt 32 v
  | .label s => t = s.address
  | .invalid => False

/-! ## The words -/

/-- The upper half of a value in `rd`. -/
def upperHalf (op : BaseOp) (rd : Reg) (v : Word) : Instruction := { op, rd, imm := v.high.setWidth 32 }

/-- The low half of a value added to `rd`. -/
def lowHalf (rd : Reg) (v : Word) : Instruction := { op := .addi, rd, rs1 := rd, imm := v.low.signExtend 32 }

theorem register_yields (a : Text) : Yields (fun rd => Reg.ofText? a = some rd) (register a) := by
  unfold register
  split
  · rename_i rd hrd
    exact .pure hrd
  · exact .error _

theorem literal_yields (a : Text) : Yields (fun w => ∃ v, Source.number? a = some v ∧ w = BitVec.ofInt 32 v) (literal a) := by
  unfold literal
  split
  · rename_i v hv
    exact .pure ⟨v, hv, rfl⟩
  · exact .error _

theorem distance_yields (a : Text) : Yields (fun w => x.Reaches a (x.pc + w)) (x.distance a) := by
  unfold distance Reaches
  cases Operand.resolve x.symbols a with
  | literal v => exact .pure rfl
  | label s =>
    refine .pure ?_
    rw [BitVec.add_comm, BitVec.sub_add_cancel]
  | invalid => exact .error _

/-- An address comes in two halves, from zero or from the instruction. -/
theorem upper_yields (rd : Reg) (a : Text) :
    Yields (fun halves => ∃ v, halves.2 = v.low.signExtend 32 ∧
      (halves.1 = upperHalf .lui rd v ∧ x.Addresses a v ∨ halves.1 = upperHalf .auipc rd v ∧ x.Addresses a (x.pc + v)))
      (x.upper rd a) := by
  unfold upper Addresses
  cases Operand.resolve x.symbols a with
  | literal v => exact .pure ⟨_, rfl, Or.inl ⟨rfl, rfl⟩⟩
  | label s =>
    simp only
    split
    · refine .pure ⟨_, rfl, Or.inr ⟨rfl, ?_⟩⟩
      rw [BitVec.add_comm, BitVec.sub_add_cancel]
    · exact .pure ⟨_, rfl, Or.inl ⟨rfl, rfl⟩⟩
  | invalid => exact .error _

theorem expandPseudo_li (e : LineError) (operands : List Text) :
    Yields (fun is => ∃ a b rd v, operands = [a, b] ∧ Reg.ofText? a = some rd ∧ Source.number? b = some v ∧
      is = [upperHalf .lui rd (BitVec.ofInt 32 v), lowHalf rd (BitVec.ofInt 32 v)])
      (x.expandPseudo (.error e) .li operands) := by
  rcases operands with _ | ⟨a, _ | ⟨b, _ | ⟨c, rest⟩⟩⟩
  · exact .error e
  · exact .error e
  · refine .bind fun rd hrd => .bind fun w hw => .pure ?_
    obtain ⟨v, hv, rfl⟩ := literal_yields b w hw
    exact ⟨a, b, rd, v, rfl, register_yields a rd hrd, hv, rfl⟩
  · exact .error e

/-- The words that come out are an address in two halves, for `rd`, with `tail` behind them. -/
def LoadsAddress (rd : Reg) (a : Text) (tail is : List Instruction) : Prop :=
  ∃ v, is = upperHalf .lui rd v :: lowHalf rd v :: tail ∧ x.Addresses a v ∨
    is = upperHalf .auipc rd v :: lowHalf rd v :: tail ∧ x.Addresses a (x.pc + v)

theorem loadsAddress_of_upper {rd : Reg} {a : Text} {up : Instruction} {low : Word} (h : x.upper rd a = .ok (up, low))
    (tail : List Instruction) :
    x.LoadsAddress rd a tail (up :: { op := .addi, rd, rs1 := rd, imm := low } :: tail) := by
  obtain ⟨v, hlow, hup⟩ := x.upper_yields rd a _ h
  simp only at hlow hup
  subst hlow
  refine ⟨v, ?_⟩
  rcases hup with ⟨rfl, ht⟩ | ⟨rfl, ht⟩
  · exact Or.inl ⟨rfl, ht⟩
  · exact Or.inr ⟨rfl, ht⟩

theorem expandPseudo_la (e : LineError) (operands : List Text) :
    Yields (fun is => ∃ a b rd, operands = [a, b] ∧ Reg.ofText? a = some rd ∧ x.LoadsAddress rd b [] is)
      (x.expandPseudo (.error e) .la operands) := by
  rcases operands with _ | ⟨a, _ | ⟨b, _ | ⟨c, rest⟩⟩⟩
  · exact .error e
  · exact .error e
  · refine .bind fun rd hrd => .bind fun halves hu => .pure ?_
    exact ⟨a, b, rd, rfl, register_yields a rd hrd, x.loadsAddress_of_upper hu []⟩
  · exact .error e

theorem expandPseudo_call (e : LineError) (operands : List Text) :
    Yields (fun is => ∃ a v, operands = [a] ∧ x.Reaches a (x.pc + v) ∧
      is = [upperHalf .auipc .ra v, { op := .jalr, rd := .ra, rs1 := .ra, imm := v.low.signExtend 32 }])
      (x.expandPseudo (.error e) .call operands) := by
  rcases operands with _ | ⟨a, _ | ⟨b, rest⟩⟩
  · exact .error e
  · refine .bind fun v hv => .pure ?_
    exact ⟨a, v, rfl, x.distance_yields a v hv, rfl⟩
  · exact .error e

theorem farJump_loads (rd : Reg) (b : Text) :
    Yields (x.LoadsAddress rd b [{ op := .jalr, rs1 := rd }]) (x.farJump rd b) :=
  .bind fun _ hu => .pure (x.loadsAddress_of_upper hu _)

theorem expandPseudo_ja (e : LineError) (operands : List Text) :
    Yields (fun is => ∃ b rd, (operands = [b] ∧ rd = .t1 ∨ ∃ a, operands = [a, b] ∧ Reg.ofText? a = some rd) ∧
      x.LoadsAddress rd b [{ op := .jalr, rs1 := rd }] is)
      (x.expandPseudo (.error e) .ja operands) := by
  rcases operands with _ | ⟨a, _ | ⟨b, _ | ⟨c, rest⟩⟩⟩
  · exact .error e
  · exact fun is his => ⟨a, .t1, Or.inl ⟨rfl, rfl⟩, x.farJump_loads .t1 a is his⟩
  · refine .bind fun rd hrd => ?_
    exact fun is his => ⟨b, rd, Or.inr ⟨a, rfl, register_yields a rd hrd⟩, x.farJump_loads rd b is his⟩
  · exact .error e

/-! ## Running them -/

section Run

variable {x} {mem : Word → Word} {m : Machine}

/-- Two halves in memory leave the address in the register. -/
theorem LoadsAddress.ends {rd : Reg} {a : Text} {tail is : List Instruction} (h : x.LoadsAddress rd a tail is)
    (hm : Holds mem x.pc (is.map Instruction.toWord)) (hpc : m.pc = x.pc) :
    ∃ t, x.Addresses a t ∧ (rd ≠ 0 → Ends mem 2 m (x.pc + 8) rd t) ∧
      is.length = tail.length + 2 ∧ Holds mem (x.pc + 8) (tail.map Instruction.toWord) := by
  have hnext : x.pc + 4 + 4 = x.pc + 8 := by rw [BitVec.add_assoc]; rfl
  obtain ⟨v, ⟨rfl, ht⟩ | ⟨rfl, ht⟩⟩ := h
  · obtain ⟨h₁, h₂, h₃⟩ := hm
    refine ⟨v, ht, fun hr => ?_, rfl, hnext ▸ h₃⟩
    rw [← hpc] at h₁ h₂ ⊢
    exact Machine.ends_lui_addi hr ⟨h₁, h₂, trivial⟩
  · obtain ⟨h₁, h₂, h₃⟩ := hm
    refine ⟨x.pc + v, ht, fun hr => ?_, rfl, hnext ▸ h₃⟩
    rw [← hpc] at h₁ h₂ ⊢
    exact Machine.ends_auipc_addi hr ⟨h₁, h₂, trivial⟩

end Run

/-- A line expands as the pseudo-instruction that its first word names. -/
theorem expandPseudo_of_line {l : Source.Line} {is : List Instruction} (h : x.line l = .ok is) {name : Text}
    {operands : List Text} (hw : Text.words l.statement.body = name :: operands) {p : Pseudo}
    (hp : Mnemonic.ofText? name = some (.pseudo p)) : ∃ e, x.expandPseudo (.error e) p operands = .ok is := by
  obtain ⟨_, name', operands', hw', he⟩ := x.line_eq_ok h
  rw [hw] at hw'
  cases hw'
  unfold expand at he
  rw [hp] at he
  exact ⟨_, he⟩

/-- What the lines of several words do when they are run from where they stand: `li` leaves its number in the
register, `la` an address; `call` and `ja` go to one. No other register changes. -/
theorem pseudo_execution (x : Context) (l : Source.Line) (is : List Instruction) (h : x.line l = .ok is)
    (name : Text) (operands : List Text) (hw : Text.words l.statement.body = name :: operands)
    (mem : Word → Word) (hm : Holds mem x.pc (is.map Instruction.toWord)) (m : Machine) (hpc : m.pc = x.pc) :
    (Mnemonic.ofText? name = some (.pseudo .li) → ∃ a b rd v, operands = [a, b] ∧ Reg.ofText? a = some rd ∧
      Source.number? b = some v ∧ (rd ≠ 0 → Ends mem is.length m (x.pc + 8) rd (BitVec.ofInt 32 v))) ∧
    (Mnemonic.ofText? name = some (.pseudo .la) → ∃ a b rd t, operands = [a, b] ∧ Reg.ofText? a = some rd ∧
      x.Addresses b t ∧ (rd ≠ 0 → Ends mem is.length m (x.pc + 8) rd t)) ∧
    (Mnemonic.ofText? name = some (.pseudo .call) → ∃ a t, operands = [a] ∧ x.Reaches a t ∧
      Ends mem is.length m (t &&& ~~~1) .ra (x.pc + 8)) ∧
    (Mnemonic.ofText? name = some (.pseudo .ja) → ∃ b rd t,
      (operands = [b] ∧ rd = .t1 ∨ ∃ a, operands = [a, b] ∧ Reg.ofText? a = some rd) ∧ x.Addresses b t ∧
      (rd ≠ 0 → Ends mem is.length m (t &&& ~~~1) rd t)) := by
  refine ⟨fun hp => ?_, fun hp => ?_, fun hp => ?_, fun hp => ?_⟩
  · obtain ⟨e, he⟩ := x.expandPseudo_of_line h hw hp
    obtain ⟨a, b, rd, v, hops, hrd, hv, rfl⟩ := x.expandPseudo_li e operands is he
    refine ⟨a, b, rd, v, hops, hrd, hv, fun hr => ?_⟩
    rw [← hpc] at hm ⊢
    exact Machine.ends_lui_addi hr hm
  · obtain ⟨e, he⟩ := x.expandPseudo_of_line h hw hp
    obtain ⟨a, b, rd, hops, hrd, hload⟩ := x.expandPseudo_la e operands is he
    obtain ⟨t, ht, hends, hlen, _⟩ := hload.ends hm hpc
    refine ⟨a, b, rd, t, hops, hrd, ht, fun hr => ?_⟩
    rw [hlen]
    exact hends hr
  · obtain ⟨e, he⟩ := x.expandPseudo_of_line h hw hp
    obtain ⟨a, v, hops, ht, rfl⟩ := x.expandPseudo_call e operands is he
    refine ⟨a, x.pc + v, hops, ht, ?_⟩
    rw [← hpc] at hm ⊢
    exact Machine.ends_auipc_jalr (by decide) hm
  · obtain ⟨e, he⟩ := x.expandPseudo_of_line h hw hp
    obtain ⟨b, rd, hops, hload⟩ := x.expandPseudo_ja e operands is he
    obtain ⟨t, ht, hends, hlen, htail⟩ := hload.ends hm hpc
    refine ⟨b, rd, t, hops, ht, fun hr => ?_⟩
    rw [hlen]
    exact (hends hr).jalr htail.1

/-- A label in the upper half of the address space. -/
def farLabel : Symbol := ⟨"far", 0x80001FFC, .text, 1⟩

/-- The address of the label comes by its distance, and the low half of that is negative. -/
theorem pseudo_execution_far :
    Context.line ⟨⟨[farLabel]⟩, true, 0x10⟩ { number := 1, text := "la a0 far" } =
        .ok [upperHalf .auipc 10 0x80001FEC, lowHalf 10 0x80001FEC] ∧
      Ends (fun a => if a = 0x10 then 0x80002517 else 0xFEC50513) 2 ⟨0x10, fun _ => 7⟩ 0x18 10 0x80001FFC := by
  have hline : Context.line ⟨⟨[farLabel]⟩, true, 0x10⟩ { number := 1, text := "la a0 far" } =
      .ok [upperHalf .auipc 10 0x80001FEC, lowHalf 10 0x80001FEC] := Source.toOption_eq_some (by decide +kernel)
  obtain ⟨a, b, rd, t, hops, hrd, ht, hends⟩ := (pseudo_execution _ _ _ hline "la" ["a0", "far"] (by decide +kernel)
    (fun a => if a = 0x10 then 0x80002517 else 0xFEC50513) ⟨by decide, by decide, trivial⟩ ⟨0x10, fun _ => 7⟩ rfl).2.1
    (by decide +kernel)
  cases hops
  have hreg : Reg.ofText? "a0" = some 10 := by decide +kernel
  have hlabel : Operand.resolve ⟨[farLabel]⟩ "far" = .label farLabel := by decide +kernel
  rw [hreg, Option.some.injEq] at hrd
  rw [Addresses, hlabel] at ht
  subst hrd ht
  exact ⟨hline, hends (by decide)⟩

end Rv32Tools.Assembly.Context
