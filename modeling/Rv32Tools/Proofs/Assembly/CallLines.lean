import Rv32Tools.Proofs.Assembly.Pairing
import Rv32Tools.Proofs.Assembly.Reassembly
import Rv32Tools.Proofs.Source.Calls

/-
  Rv32Tools.Proofs.Assembly.CallLines — base instructions whose last operand is a relocation call.

  Such a line is one word wide (`CallLine.width`), its call is the only one on it, and replacing the call leaves a line
  of tokens with a number at its end (`CallLine.expandOne_line`). What that line comes to is known for the formats with
  an immediate that is one half of an address (`CallLine.line_upper`, `CallLine.line_low`).
-/

namespace Rv32Tools.Assembly

open Source (Line Token PlainWords ReadAs callText)
open Relocation (numeral value)

/-! ## Lines of words behind a label -/

section Labelled

variable (number : Nat) {label : Text} (hlabel : ∀ b ∈ label, Text.isWordByte b = true) {ws : List Text}
  (hws : PlainWords ws)

include hlabel hws

theorem ofLabelled_statement : (Line.ofLabelled number label ws).statement = ⟨label, Text.join " " ws⟩ :=
  Source.ofCode_labelled_join hlabel hws

theorem ofLabelled_words : Text.words (Line.ofLabelled number label ws).statement.body = ws := by
  rw [ofLabelled_statement number hlabel hws, hws.words_join]

end Labelled

theorem ofLabelled_isInstruction (number : Nat) {label : Text} (hlabel : ∀ b ∈ label, Text.isWordByte b = true)
    {name : Text} (hname : Token name) {ws : List Text} (hws : PlainWords (name :: ws)) :
    (Line.ofLabelled number label (name :: ws)).isInstruction = true := by
  obtain ⟨b, r, hb⟩ := List.exists_cons_of_ne_nil hname.ne_nil
  have hdot : b ≠ 0x2E := Source.isTokenByte_ne (hname.bytes b (hb ▸ List.mem_cons_self)) (by decide)
  have hhead : (Text.join " " (name :: ws)).head? = some b := by
    rw [Text.head?_join hname.ne_nil, hb]
    rfl
  obtain ⟨r', hr'⟩ := List.head?_eq_some_iff.mp hhead
  rw [Line.isInstruction, ofLabelled_statement number hlabel hws]
  simp [Source.directive?, hr', hdot]

/-! ## Calls at the end of a line -/

theorem numeral_number? (v : Word) : Source.number? (numeral v) = some v.toNat := by
  refine Source.number?_hex (Text.natural_hexShort_upper ?_)
  have := v.isLt
  omega

theorem literal_numeral (v : Word) : Context.literal (numeral v) = .ok v := by
  refine literal_hex (Text.natural_hexShort_upper ?_)
  have := v.isLt
  omega

namespace Relocation

theorem isTight {argument : Text} (h : Token argument) (m : Relocation) : Source.IsTight m.name argument := by
  refine ⟨by cases m <;> decide, ?_, h⟩
  cases m <;> decide +kernel

/-- A call whose argument has a value gives way to its number. -/
theorem expandFrom_call {symbols : SymbolTable} {argument : Text} {target : Word} (h : Token argument)
    (ht : (Operand.resolve symbols argument).word? = some target) (number : Nat) (pc : Word) (memory : Memory)
    (m : Relocation) :
    expandFrom symbols number pc 0 memory (callText m.name argument) =
      (numeral (value memory number pc m argument target).1, (value memory number pc m argument target).2) := by
  have isArgument : ∀ b, Source.isTokenByte b = true → isArgumentByte b = true := Text.forall_byte (by decide +kernel)
  have hlower : m.name.map Text.lowerByte = m.name := by cases m <;> decide
  have hcall : call? (m.name ++ 0x28 :: (argument ++ [0x29])) = some (m, argument, []) :=
    call?_eq_some_iff.mpr ⟨⟨m.name, hlower, rfl⟩, h.ne_nil, fun b hb => isArgument b (h.bytes b hb)⟩
  rw [callText, expandFrom]
  simp only [beq_self_eq_true, if_true, hcall, ht, List.length_nil, Nat.sub_zero, expandFrom_skip, List.append_nil]

end Relocation

/-- A base instruction whose last operand is a relocation call. -/
structure CallLine where
  number : Nat
  label : Text
  op : BaseOp
  /-- The operands before the call. -/
  operands : List Text
  relocation : Relocation
  argument : Text

namespace CallLine

variable (c : CallLine)

def line : Line := .ofLabelled c.number c.label (c.op.name :: (c.operands ++ [callText c.relocation.name c.argument]))

/-- The line with a number in the place of its call. -/
def replaced (v : Word) : Line := .ofLabelled c.number c.label (c.op.name :: (c.operands ++ [numeral v]))

structure WellFormed : Prop where
  label : ∀ b ∈ c.label, Text.isWordByte b = true
  operands : ∀ t ∈ c.operands, Token t
  argument : Token c.argument

variable {c} (h : c.WellFormed)

include h

theorem plainWords {last : Text} (hlast : last ≠ [] ∧ ∀ b ∈ last, Source.isPlain b = true) :
    PlainWords (c.op.name :: (c.operands ++ [last])) := by
  have token : ∀ {t}, Token t → t ≠ [] ∧ ∀ b ∈ t, Source.isPlain b = true := fun ht =>
    ⟨ht.ne_nil, fun b hb => (ht.plain b hb).1⟩
  intro w hw
  simp only [List.mem_cons, List.mem_append, List.not_mem_nil, or_false] at hw
  rcases hw with rfl | hw | rfl
  · exact token (op_name c.op).1
  · exact token (h.operands w hw)
  · exact hlast

theorem plainWords_line : PlainWords (c.op.name :: (c.operands ++ [callText c.relocation.name c.argument])) :=
  plainWords h ⟨List.cons_ne_nil _ _, fun b hb => (Source.callText_bytes (Relocation.isTight h.argument _) b hb).1⟩

theorem plainWords_replaced (v : Word) : PlainWords (c.op.name :: (c.operands ++ [numeral v])) :=
  plainWords h ⟨Source.number?_ne_nil (numeral_number? v), Relocation.numeral_plain v⟩

theorem line_isInstruction : c.line.isInstruction = true :=
  ofLabelled_isInstruction c.number h.label (op_name c.op).1 (plainWords_line h)

theorem line_words :
    Text.words c.line.statement.body = c.op.name :: (c.operands ++ [callText c.relocation.name c.argument]) :=
  ofLabelled_words c.number h.label (plainWords_line h)

theorem line_label : c.line.statement.label = c.label := by
  rw [line, ofLabelled_statement c.number h.label (plainWords_line h)]

theorem width : Mnemonic.width c.line.mnemonic = 4 := by
  rw [Line.mnemonic, line_words h, List.headD_cons, Mnemonic.width, (op_name c.op).2]
  rfl

/-- The call at the end of the line is replaced, and nothing else changes. -/
theorem expandOne_line {symbols : SymbolTable} {target : Word}
    (ht : (Operand.resolve symbols c.argument).word? = some target) (memory : Relocation.Memory) (pc : Word) :
    Relocation.expandOne symbols memory ⟨c.line, pc⟩ =
      (⟨c.replaced (value memory c.number pc c.relocation c.argument target).1, pc⟩,
        (value memory c.number pc c.relocation c.argument target).2) := by
  -- both lines are the same text with another last word
  have split : ∀ last, Source.labelled c.label (Text.join " " (c.op.name :: (c.operands ++ [last]))) =
      Source.labelled c.label (Text.join " " (c.op.name :: c.operands) ++ [0x20]) ++ last := by
    intro last
    rw [← List.cons_append, Text.join_concat _ (List.cons_ne_nil _ _), ← Source.labelled_append, List.append_assoc]
    rfl
  have hfront : 0x25 ∉ Source.labelled c.label (Text.join " " (c.op.name :: c.operands) ++ [0x20]) := by
    intro hmem
    rcases Source.mem_labelled hmem with hb | hb | hb | hb
    · exact absurd (h.label _ hb) (by decide)
    · exact absurd hb (by decide)
    · exact absurd hb (by decide)
    · rcases List.mem_append.mp hb with hb | hb
      · rcases Text.mem_join hb with hb | ⟨w, hw, hb⟩
        · exact absurd (List.mem_singleton.mp hb) (by decide)
        · rcases List.mem_cons.mp hw with rfl | hw
          · exact (op_name c.op).1.not_mem (by decide) hb
          · exact (h.operands w hw).not_mem (by decide) hb
      · exact absurd (List.mem_singleton.mp hb) (by decide)
  have hcall := Relocation.expandFrom_call h.argument ht c.number pc memory c.relocation
  have hexpand : Relocation.expandFrom symbols c.line.number pc 0 memory c.line.text =
      ((c.replaced (value memory c.number pc c.relocation c.argument target).1).text,
        (value memory c.number pc c.relocation c.argument target).2) := by
    simp only [line, replaced, Line.ofLabelled, split, Relocation.expandFrom_append _ _ _ _ hfront, hcall]
  have hfault : c.line.fault.isSome = false := rfl
  simp only [Relocation.expandOne, hfault, Bool.false_eq_true, if_false, hexpand]
  rfl

theorem line_replaced (x : Context) (v : Word) {is : List Instruction}
    (hx : ∀ wrong, x.expandBase wrong c.op (c.operands ++ [numeral v]) = .ok is) : x.line (c.replaced v) = .ok is := by
  have hexpand : x.expand c.op.name (c.operands ++ [numeral v]) = .ok is := by
    rw [Context.expand, (op_name c.op).2]
    exact hx _
  rw [Context.line, replaced, ofLabelled_words c.number h.label (plainWords_replaced h v)]
  simp only [hexpand]
  rfl

/-- The upper half of an address, as a number. -/
theorem line_upper {rd : Text} {reg : Reg} (hop : c.op.format = .u) (hops : c.operands = [rd])
    (hrd : Reg.ofText? rd = some reg) (x : Context) (v : Word) :
    x.line (c.replaced v) = .ok [{ op := c.op, rd := reg, imm := v }] := by
  have hreg : Context.register rd = .ok reg := by rw [Context.register, hrd]
  refine line_replaced h x v fun wrong => ?_
  rw [hops]
  simp [Context.expandBase, hop, hreg, literal_numeral, bind, Except.bind, pure, Except.pure]

/-- The low half of an address, as a number. -/
theorem line_low {rd rs : Text} {reg reg' : Reg} (hop : c.op.format = .i) (hops : c.operands = [rd, rs])
    (hrd : Reg.ofText? rd = some reg) (hrs : Reg.ofText? rs = some reg') (x : Context) (v : Word) :
    x.line (c.replaced v) = .ok [{ op := c.op, rd := reg, rs1 := reg', imm := v }] := by
  have hreg : Context.register rd = .ok reg := by rw [Context.register, hrd]
  have hreg' : Context.register rs = .ok reg' := by rw [Context.register, hrs]
  refine line_replaced h x v fun wrong => ?_
  rw [hops]
  simp [Context.expandBase, hop, hreg, hreg', literal_numeral, bind, Except.bind, pure, Except.pure]

end CallLine

end Rv32Tools.Assembly
