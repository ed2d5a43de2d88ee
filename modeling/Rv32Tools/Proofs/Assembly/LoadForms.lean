import Rv32Tools.Proofs.Assembly.CallLines
import Rv32Tools.Proofs.Assembly.Execution
import Rv32Tools.Proofs.Assembly.OneLine
import Rv32Tools.Proofs.Assembly.Renumbering

/-
  Rv32Tools.Proofs.Assembly.LoadForms — a constant or an address in one line, or in two lines of halves.

  `li`, `la` and `call` each stand for two words that hold the halves of a value. `InTwoRows` gives the two lines that
  name these halves by relocation calls instead. A line and its two lines agree one by one (`InTwoRows.splits`): they
  take the same label and the same eight bytes, and come to the same words. The only thing that the two lines leave
  behind is an anchor of their own symbol.

  In a source the lines behind move down by one number, which has no part in what they come to (`encoded_alike`), and
  none of them asks for the new anchor. So the source with the two lines assembles to the same text, data and labels
  (`load_forms_agree`).
-/

namespace Rv32Tools

/-- A low half fills its field alike with its sign in front and with zeros in front. -/
theorem Coding.packI_signExtend (c : Coding) (rd rs1 : Reg) (b : BitVec 12) :
    c.packI rd rs1 (b.signExtend 32) = c.packI rd rs1 (b.setWidth 32) := by
  have hlow : (b.signExtend 32).extractLsb' 0 12 = (b.setWidth 32).extractLsb' 0 12 := by
    ext i hi
    simp [BitVec.getLsbD_signExtend, hi]
  rw [packI, packI, hlow]

namespace Assembly

open Source (Line Token ReadAs callText labelled)
open Relocation (Memory AsksOnly expandAll numeral)
open Context (upperHalf lowHalf)

/-! ## The two lines -/

/-- An instruction as it is written: its name, and its operands with commas between them. -/
def row (name : Text) (operands : List Text) : Text := name ++ " " ++ Text.join ", " operands

theorem row_cons (name t : Text) (ts : List Text) : row name (t :: ts) = name ++ 0x20 :: (t ++ Source.trailing ts) := by
  rw [row, Source.join_comma, List.append_assoc]
  rfl

/-- A relocation call as it is written. -/
def Relocation.written (m : Relocation) (argument : Text) : Text := callText m.name argument

/-- The words of a line that loads a constant or an address, and two rows that do the same. A constant is a token that
is a number, an address is that of a label in the table. Calls that count from the instruction find their anchor by its
symbol, so no later line may ask for an anchor of the same symbol. -/
inductive InTwoRows (o : Options) (symbols : SymbolTable) (later : List Line) : List Text → Text → Text → Prop
  | constant {name rd v : Text} {reg : Reg} {i : Int} (hname : Mnemonic.ofText? name = some (.pseudo .li))
      (hrd : Reg.ofText? rd = some reg) (hv : Source.number? v = some i) :
      InTwoRows o symbols later [name, rd, v]
        (row "lui" [rd, Relocation.hi.written v]) (row "addi" [rd, rd, Relocation.lo.written v])
  | absolute {name rd symbol : Text} {reg : Reg} {s : Symbol} (hname : Mnemonic.ofText? name = some (.pseudo .la))
      (hrd : Reg.ofText? rd = some reg) (hs : symbols.find? symbol = some s)
      (hfar : o.positionIndependent = false ∨ s.segment = .data) :
      InTwoRows o symbols later [name, rd, symbol]
        (row "lui" [rd, Relocation.hi.written symbol]) (row "addi" [rd, rd, Relocation.lo.written symbol])
  | relative {name rd symbol : Text} {reg : Reg} {s : Symbol} (hname : Mnemonic.ofText? name = some (.pseudo .la))
      (hrd : Reg.ofText? rd = some reg) (hs : symbols.find? symbol = some s)
      (hnear : o.positionIndependent = true ∧ s.segment = .text)
      (hlater : ∀ l ∈ later, (.pcrelLo, symbol) ∉ Relocation.calls l.text) :
      InTwoRows o symbols later [name, rd, symbol]
        (row "auipc" [rd, Relocation.pcrelHi.written symbol]) (row "addi" [rd, rd, Relocation.pcrelLo.written symbol])
  | call {name symbol : Text} {s : Symbol} (hname : Mnemonic.ofText? name = some (.pseudo .call))
      (hs : symbols.find? symbol = some s) (hlater : ∀ l ∈ later, (.pcrelLo, symbol) ∉ Relocation.calls l.text) :
      InTwoRows o symbols later [name, symbol]
        (row "auipc" ["ra", Relocation.pcrelHi.written symbol]) (row "jalr" ["ra", Relocation.pcrelLo.written symbol ++ "(ra)"])

namespace CallLine

variable {c : CallLine} (h : c.WellFormed)

include h

theorem ofRaw_row (hne : c.operands ≠ []) :
    Line.ofRaw c.number (labelled c.label (row c.op.name (c.operands ++ [c.relocation.written c.argument]))) = c.line := by
  obtain ⟨t, ts, hts⟩ := List.exists_cons_of_ne_nil hne
  have hcall : ReadAs (c.relocation.written c.argument) [c.relocation.written c.argument] :=
    Source.readAs_call (Relocation.isTight h.argument _)
  have hoperands : ∀ v ∈ (ts ++ [c.relocation.written c.argument]).map fun t => (t, [t]), ReadAs v.1 v.2 := by
    intro v hv
    obtain ⟨u, hu, rfl⟩ := List.mem_map.mp hv
    rcases List.mem_append.mp hu with hu | hu
    · exact (h.operands u (hts ▸ List.mem_cons_of_mem _ hu)).readAs
    · rw [List.mem_singleton.mp hu]
      exact hcall
  have hfirst : ReadAs (t, [t]).1 (t, [t]).2 := (h.operands t (hts ▸ List.mem_cons_self)).readAs
  have := Source.ofRaw_operands c.number h.label (op_name c.op).1 hfirst hoperands
  rw [line, hts, List.cons_append, row_cons]
  simpa [List.flatMap_map, Function.comp_def, Relocation.written] using this

/-- A register in parentheses behind the call stands before it in the line. -/
theorem ofRaw_row_indexed {rd : Text} {reg : Reg} (hops : c.operands = [rd, reg.name]) :
    Line.ofRaw c.number
      (labelled c.label (row c.op.name [rd, c.relocation.written c.argument ++ 0x28 :: (reg.name ++ [0x29])])) = c.line := by
  have hcall := Source.readAs_call_indexed (Relocation.isTight h.argument c.relocation) reg
  have hrd : Token rd := h.operands rd (hops ▸ List.mem_cons_self)
  have hoperands : ∀ v ∈ [(c.relocation.written c.argument ++ 0x28 :: (reg.name ++ [0x29]),
      [reg.name, c.relocation.written c.argument])], ReadAs v.1 v.2 := by
    intro v hv
    rw [List.mem_singleton.mp hv]
    exact hcall
  have := Source.ofRaw_operands c.number h.label (op_name c.op).1 (o := (rd, [rd])) hrd.readAs hoperands
  rw [row_cons, line, hops]
  simpa [Relocation.written] using this

end CallLine

/-! ## The numbers in them -/

/-- Two lines that call `upper` and `lower` on the argument get the halves of `v`, and leave the anchors of all
arguments that satisfy `P` as they were. -/
def GivesHalves (symbols : SymbolTable) (P : Text → Prop) (pc : Word) (argument : Text) (upper lower : Relocation)
    (v : Word) : Prop :=
  ∀ c₁ c₂ : CallLine, c₁.WellFormed → c₂.WellFormed → c₁.relocation = upper ∧ c₂.relocation = lower →
    c₁.argument = argument ∧ c₂.argument = argument → ∀ memory, ∃ memory', Memory.Agree P memory memory' ∧
      expandAll symbols memory [⟨c₁.line, pc⟩, ⟨c₂.line, pc + 4⟩] =
        ([⟨c₁.replaced (v.highRounded.setWidth 32), pc⟩, ⟨c₂.replaced (v.low.setWidth 32), pc + 4⟩], memory')

section

variable {symbols : SymbolTable} {argument : Text} {target : Word}
  (ht : (Operand.resolve symbols argument).word? = some target) (pc : Word)

include ht

/-- `%hi` and `%lo` give the halves of the address, and leave nothing behind. -/
theorem givesHalves_absolute : GivesHalves symbols (fun _ => True) pc argument .hi .lo target := by
  rintro c₁ c₂ h₁ h₂ hr ⟨rfl, ha⟩ memory
  have ht₂ : (Operand.resolve symbols c₂.argument).word? = some target := by rw [ha, ht]
  simp only [expandAll, CallLine.expandOne_line h₁ ht, CallLine.expandOne_line h₂ ht₂, hr.1, hr.2, Relocation.value]
  exact ⟨{ memory with replaced := memory.replaced + 1 + 1 }, fun _ _ => rfl, rfl⟩

/-- `%pcrel_hi` and `%pcrel_lo` give the halves of the distance from the first of them, which they leave behind as
an anchor. -/
theorem givesHalves_relative :
    GivesHalves symbols (fun other => other ≠ argument) pc argument .pcrelHi .pcrelLo (target - pc) := by
  rintro c₁ c₂ h₁ h₂ hr ⟨rfl, ha⟩ memory
  have ht₂ : (Operand.resolve symbols c₂.argument).word? = some target := by rw [ha, ht]
  simp only [expandAll, CallLine.expandOne_line h₁ ht, CallLine.expandOne_line h₂ ht₂, hr.1, hr.2, Relocation.value, ha,
    List.lookup_cons_self]
  refine ⟨_, fun other hother => ?_, rfl⟩
  have hne : (other == c₁.argument) = false := beq_eq_false_iff_ne.mpr hother
  simp only [List.lookup_cons, hne]

end

/-! ## One line and two lines -/

/-- The line `l` at `pc` comes to the instructions `is`, and so do the two lines, one word each. They leave the anchors
of all arguments that satisfy `P` as they were. -/
structure Splits (o : Options) (symbols : SymbolTable) (P : Text → Prop) (pc : Word) (is : List Instruction)
    (l l₁ l₂ : Line) : Prop where
  instruction : l₁.isInstruction = true ∧ l₂.isInstruction = true
  named : Text.words l₁.statement.body ≠ [] ∧ Text.words l₂.statement.body ≠ []
  label : l₁.statement.label = l.statement.label ∧ l₂.statement.label = []
  width : Mnemonic.width l.mnemonic = 8 ∧ Mnemonic.width l₁.mnemonic = 4 ∧ Mnemonic.width l₂.mnemonic = 4
  noCall : 0x25 ∉ l.text
  outcomes : ∃ i₁ i₂ : Instruction, is.map Instruction.toWord = [i₁.toWord, i₂.toWord] ∧
    ∀ memory, ∃ memory', Memory.Agree P memory memory' ∧
      ∃ ps, expandAll symbols memory [⟨l₁, pc⟩, ⟨l₂, pc + 4⟩] = (ps, memory') ∧
        encoded o symbols ps = [.ok [i₁], .ok [i₂]]

/-- A line and the two lines of its halves. -/
theorem splits_of_halves {o : Options} {symbols : SymbolTable} {P : Text → Prop} {pc : Word} {is : List Instruction}
    {l : Line} {c₁ c₂ : CallLine} (h₁ : c₁.WellFormed) (h₂ : c₂.WellFormed)
    (hlabel : c₁.label = l.statement.label ∧ c₂.label = []) (hwidth : Mnemonic.width l.mnemonic = 8)
    (hcall : 0x25 ∉ l.text) (hformat : c₁.op.format = .u ∧ c₂.op.format = .i) {rd : Text} {reg : Reg}
    (hops : c₁.operands = [rd] ∧ c₂.operands = [rd, rd]) (hrd : Reg.ofText? rd = some reg) {v : Word}
    (his : is = [upperHalf c₁.op reg v, { op := c₂.op, rd := reg, rs1 := reg, imm := v.low.signExtend 32 }])
    (ha : c₂.argument = c₁.argument)
    (hhalves : GivesHalves symbols P pc c₁.argument c₁.relocation c₂.relocation v) :
    Splits o symbols P pc is l c₁.line c₂.line where
  instruction := ⟨CallLine.line_isInstruction h₁, CallLine.line_isInstruction h₂⟩
  named := by
    rw [CallLine.line_words h₁, CallLine.line_words h₂]
    exact ⟨List.cons_ne_nil _ _, List.cons_ne_nil _ _⟩
  label := by
    rw [CallLine.line_label h₁, CallLine.line_label h₂]
    exact hlabel
  width := ⟨hwidth, CallLine.width h₁, CallLine.width h₂⟩
  noCall := hcall
  outcomes := by
    refine ⟨{ op := c₁.op, rd := reg, imm := v.highRounded.setWidth 32 },
      { op := c₂.op, rd := reg, rs1 := reg, imm := v.low.setWidth 32 }, ?_, fun memory => ?_⟩
    · have hlow : Instruction.toWord { op := c₂.op, rd := reg, rs1 := reg, imm := v.low.signExtend 32 } =
          Instruction.toWord { op := c₂.op, rd := reg, rs1 := reg, imm := v.low.setWidth 32 } := by
        simp only [Instruction.toWord, hformat.2, Coding.packI_signExtend]
      rw [his, List.map_cons, List.map_singleton, hlow, upperHalf, Word.highRounded_eq_high]
    · obtain ⟨memory', hagree, hps⟩ := hhalves c₁ c₂ h₁ h₂ ⟨rfl, rfl⟩ ⟨rfl, ha⟩ memory
      refine ⟨memory', hagree, _, hps, ?_⟩
      have hupper := fun x => CallLine.line_upper h₁ hformat.1 hops.1 hrd x (v.highRounded.setWidth 32)
      have hlower := fun x => CallLine.line_low h₂ hformat.2 hops.2 hrd hrd x (v.low.setWidth 32)
      simp only [encoded, List.map_cons, List.map_nil, attempt, hupper, hlower]

/-- A name in the table is read as its label. -/
theorem resolve_of_find? {symbols : SymbolTable} (hs : symbols.WellNamed) {name : Text} {s : Symbol}
    (h : symbols.find? name = some s) :
    Token name ∧ Operand.resolve symbols name = .label s ∧ (Operand.resolve symbols name).word? = some s.address := by
  obtain ⟨hmem, rfl⟩ := SymbolTable.find?_eq_some h
  obtain ⟨hne, hbytes⟩ := SymbolTable.isLabelName_word (hs s hmem)
  have token : ∀ b, Text.isWordByte b = true → Source.isTokenByte b = true := Text.forall_byte (by decide +kernel)
  have hresolve : Operand.resolve symbols s.name = .label s := by
    rw [Operand.resolve, SymbolTable.number?_of_isLabelName (hs s hmem), h]
  refine ⟨⟨hne, fun b hb => token b (hbytes b hb)⟩, hresolve, ?_⟩
  rw [hresolve, Operand.word?_label]

namespace Context

variable {x : Context} {e : LineError} {s : Symbol} {is : List Instruction}

/-- The address of a label, by its distance or by itself. -/
theorem expandPseudo_la_label {rd token : Text} (hs : Operand.resolve x.symbols token = .label s)
    (h : x.expandPseudo (.error e) .la [rd, token] = .ok is) :
    ∃ reg, Reg.ofText? rd = some reg ∧
      is = if x.positionIndependent && s.segment = .text then
          [upperHalf .auipc reg (s.address - x.pc), lowHalf reg (s.address - x.pc)]
        else [upperHalf .lui reg s.address, lowHalf reg s.address] := by
  have hyields : Yields (fun is => ∃ reg, Reg.ofText? rd = some reg ∧
      is = if x.positionIndependent && s.segment = .text then
          [upperHalf .auipc reg (s.address - x.pc), lowHalf reg (s.address - x.pc)]
        else [upperHalf .lui reg s.address, lowHalf reg s.address]) (x.expandPseudo (.error e) .la [rd, token]) := by
    refine .bind fun reg hreg => .bind fun halves hu => .pure ⟨reg, register_yields rd reg hreg, ?_⟩
    simp only [upper, hs] at hu
    by_cases hp : (x.positionIndependent && s.segment = .text) = true
    · rw [if_pos hp] at hu ⊢
      cases hu
      rfl
    · rw [if_neg hp] at hu ⊢
      cases hu
      rfl
  exact hyields is h

theorem expandPseudo_call_label {token : Text} (hs : Operand.resolve x.symbols token = .label s)
    (h : x.expandPseudo (.error e) .call [token] = .ok is) :
    is = [upperHalf .auipc .ra (s.address - x.pc),
      { op := .jalr, rd := .ra, rs1 := .ra, imm := (s.address - x.pc).low.signExtend 32 }] := by
  have hdistance : x.distance token = .ok (s.address - x.pc) := by rw [distance, hs]
  have hyields : Yields (fun is => is = [upperHalf .auipc .ra (s.address - x.pc),
      { op := .jalr, rd := .ra, rs1 := .ra, imm := (s.address - x.pc).low.signExtend 32 }])
      (x.expandPseudo (.error e) .call [token]) := by
    refine .bind fun v hv => .pure ?_
    rw [hdistance] at hv
    cases hv
    rfl
  exact hyields is h

end Context

section Rows

variable {o : Options} {symbols : SymbolTable} {P : Text → Prop} {pc : Word} {is : List Instruction} {l : Line}
  (hlabel : ∀ b ∈ l.statement.label, Text.isWordByte b = true) (hwidth : Mnemonic.width l.mnemonic = 8)
  (hcall : 0x25 ∉ l.text) {argument : Text} (ha : Token argument) {upper lower : Relocation} {v : Word}
  (hhalves : GivesHalves symbols P pc argument upper lower v) (n : Nat)

include hlabel hwidth hcall ha hhalves

/-- The halves of a value put into a register. -/
theorem splits_register {rd : Text} {reg : Reg} (hrd : Token rd ∧ Reg.ofText? rd = some reg) (op : BaseOp)
    (hop : op.format = .u) (his : is = [upperHalf op reg v, lowHalf reg v]) :
    Splits o symbols P pc is l
      (Line.ofRaw n (labelled l.statement.label (row op.name [rd, upper.written argument])))
      (Line.ofRaw (n + 1) (row "addi" [rd, rd, lower.written argument])) := by
  have h₁ : CallLine.WellFormed ⟨n, l.statement.label, op, [rd], upper, argument⟩ := ⟨hlabel, by simpa using hrd.1, ha⟩
  have h₂ : CallLine.WellFormed ⟨n + 1, [], .addi, [rd, rd], lower, argument⟩ := ⟨by simp, by simpa using hrd.1, ha⟩
  have e₁ := CallLine.ofRaw_row h₁ (List.cons_ne_nil _ _)
  have e₂ := CallLine.ofRaw_row h₂ (List.cons_ne_nil _ _)
  refine (congrArg₂ (Splits o symbols P pc is l) e₁ e₂).mpr ?_
  exact splits_of_halves h₁ h₂ ⟨rfl, rfl⟩ hwidth hcall ⟨hop, rfl⟩ ⟨rfl, rfl⟩ hrd.2 his rfl hhalves

/-- The halves of a value jumped to. -/
theorem splits_call (his : is = [upperHalf .auipc .ra v,
      { op := .jalr, rd := .ra, rs1 := .ra, imm := v.low.signExtend 32 }]) :
    Splits o symbols P pc is l
      (Line.ofRaw n (labelled l.statement.label (row "auipc" ["ra", upper.written argument])))
      (Line.ofRaw (n + 1) (row "jalr" ["ra", lower.written argument ++ "(ra)"])) := by
  have h₁ : CallLine.WellFormed ⟨n, l.statement.label, .auipc, [Reg.name .ra], upper, argument⟩ :=
    ⟨hlabel, by simpa using Source.name_token .ra, ha⟩
  have h₂ : CallLine.WellFormed ⟨n + 1, [], .jalr, [Reg.name .ra, Reg.name .ra], lower, argument⟩ :=
    ⟨by simp, by simpa using Source.name_token .ra, ha⟩
  have e₁ := CallLine.ofRaw_row h₁ (List.cons_ne_nil _ _)
  have e₂ := CallLine.ofRaw_row_indexed h₂ rfl
  refine (congrArg₂ (Splits o symbols P pc is l) e₁ e₂).mpr ?_
  exact splits_of_halves h₁ h₂ ⟨rfl, rfl⟩ hwidth hcall ⟨rfl, rfl⟩ ⟨rfl, rfl⟩ (Source.ofText?_name .ra) his rfl hhalves

end Rows

namespace InTwoRows

variable {o : Options} {symbols : SymbolTable} {later : List Line} {l : Line} {first second : Text}
  (hx : InTwoRows o symbols later (Text.words l.statement.body) first second) (hnamed : symbols.WellNamed)

include hx hnamed

/-- The line is two words wide and has tokens for operands. -/
theorem tokens : ∃ name p operands, Text.words l.statement.body = name :: operands ∧
    Mnemonic.ofText? name = some (.pseudo p) ∧ Mnemonic.bytes (.pseudo p) = 8 ∧ ∀ t ∈ operands, Token t := by
  have register : ∀ {rd reg}, rd ∈ Text.words l.statement.body → Reg.ofText? rd = some reg → Token rd :=
    Source.register_token
  generalize Text.words l.statement.body = ws at hx register
  cases hx with
  | constant hname hrd hv =>
    exact ⟨_, _, _, rfl, hname, rfl, by simp [register (by simp) hrd, Source.number?_token hv]⟩
  | absolute hname hrd hs =>
    exact ⟨_, _, _, rfl, hname, rfl, by simp [register (by simp) hrd, (resolve_of_find? hnamed hs).1]⟩
  | relative hname hrd hs =>
    exact ⟨_, _, _, rfl, hname, rfl, by simp [register (by simp) hrd, (resolve_of_find? hnamed hs).1]⟩
  | call hname hs =>
    exact ⟨_, _, _, rfl, hname, rfl, by simp [(resolve_of_find? hnamed hs).1]⟩

/-- The words of the line have no visible ASCII byte but those of names and tokens. -/
theorem not_mem_words {b : UInt8} (hb : b < 0x80 ∧ Source.isTokenByte b = false) :
    ∀ w ∈ Text.words l.statement.body, b ∉ w := by
  obtain ⟨name, p, operands, hw, hp, _, htokens⟩ := hx.tokens hnamed
  intro w hmem hbw
  rw [hw] at hmem
  rcases List.mem_cons.mp hmem with rfl | hmem
  · have := Source.isTokenByte_of_isAlnumByte (Mnemonic.ofText?_ascii hp hb.1 hbw).1
    exact absurd this (by simp [hb.2])
  · exact (htokens w hmem).not_mem hb.2 hbw

theorem noCall (hlabel : ∀ b ∈ l.statement.label, Text.isWordByte b = true) : 0x25 ∉ l.text := by
  intro hmem
  rcases Source.mem_ofCode (by decide) hmem with hb | hb | ⟨w, hw, hb⟩
  · exact absurd (hlabel _ hb) (by decide)
  · exact absurd hb (by decide)
  · exact hx.not_mem_words hnamed (by decide) w hw hb

theorem isInstruction : l.isInstruction = true := by
  obtain ⟨_, _, _, hw, _⟩ := hx.tokens hnamed
  have hne : l.statement.body ≠ [] := by
    intro he
    rw [he] at hw
    cases hw
  have hdot : l.statement.body.head? ≠ some 0x2E := by
    intro hhead
    obtain ⟨w, hw, hb⟩ := Text.mem_words_of_isGraphic (by decide) (List.mem_of_mem_head? hhead)
    exact hx.not_mem_words hnamed (by decide) w hw hb
  simp [Line.isInstruction, Source.directive?, hne, hdot]

/-- A line agrees with the two rows that name its halves. -/
theorem splits (hlabel : ∀ b ∈ l.statement.label, Text.isWordByte b = true) {pc : Word} {is : List Instruction}
    (hok : Context.line ⟨symbols, o.positionIndependent, pc⟩ l = .ok is) (n : Nat) :
    ∃ P, Splits o symbols P pc is l (Line.ofRaw n (labelled l.statement.label first)) (Line.ofRaw (n + 1) second) ∧
      ∀ l ∈ later, AsksOnly P l.text := by
  obtain ⟨_, p, operands, hw, hp, hbytes, htokens⟩ := hx.tokens hnamed
  have hcall := hx.noCall hnamed hlabel
  have hwidth : Mnemonic.width l.mnemonic = 8 := by
    rw [Line.mnemonic, hw, List.headD_cons, Mnemonic.width, hp, ← hbytes]
  obtain ⟨e, he⟩ := Context.expandPseudo_of_line _ hok hw hp
  rw [hw] at hx
  have anchor : ∀ {symbol : Text}, (∀ l ∈ later, (.pcrelLo, symbol) ∉ Relocation.calls l.text) →
      ∀ l ∈ later, AsksOnly (fun other => other ≠ symbol) l.text := by
    intro symbol hlater l hl other hother e
    exact hlater l hl (e ▸ hother)
  cases hx with
  | @constant _ rd v reg i hname hrd hv =>
    cases hp.symm.trans hname
    obtain ⟨_, _, _, _, e', hrd', hv', his⟩ := Context.expandPseudo_li _ e _ is he
    cases e'
    cases hrd.symm.trans hrd'
    cases hv.symm.trans hv'
    have ht : (Operand.resolve symbols v).word? = some (BitVec.ofInt 32 i) := by
      rw [Operand.resolve, hv]
      rfl
    exact ⟨_, splits_register hlabel hwidth hcall (htokens _ (by simp)) (givesHalves_absolute ht pc) n
      ⟨htokens _ (by simp), hrd⟩ .lui rfl his, fun _ _ _ _ => trivial⟩
  | @absolute _ rd symbol reg s hname hrd hs hfar =>
    cases hp.symm.trans hname
    obtain ⟨htoken, hresolve, ht⟩ := resolve_of_find? hnamed hs
    obtain ⟨_, hrd', his⟩ := Context.expandPseudo_la_label hresolve he
    cases hrd.symm.trans hrd'
    have hnear : ¬(o.positionIndependent && s.segment = .text) = true := by
      intro hnear
      rw [Bool.and_eq_true, decide_eq_true_eq] at hnear
      rcases hfar with h | h
      · simp [h] at hnear
      · exact absurd (h.symm.trans hnear.2) (by decide)
    rw [if_neg hnear] at his
    exact ⟨_, splits_register hlabel hwidth hcall htoken (givesHalves_absolute ht pc) n ⟨htokens _ (by simp), hrd⟩ .lui rfl
      his, fun _ _ _ _ => trivial⟩
  | @relative _ rd symbol reg s hname hrd hs hnear hlater =>
    cases hp.symm.trans hname
    obtain ⟨htoken, hresolve, ht⟩ := resolve_of_find? hnamed hs
    obtain ⟨_, hrd', his⟩ := Context.expandPseudo_la_label hresolve he
    cases hrd.symm.trans hrd'
    rw [if_pos (by simp [hnear.1, hnear.2])] at his
    exact ⟨_, splits_register hlabel hwidth hcall htoken (givesHalves_relative ht pc) n ⟨htokens _ (by simp), hrd⟩ .auipc
      rfl his, anchor hlater⟩
  | @call _ symbol s hname hs hlater =>
    cases hp.symm.trans hname
    obtain ⟨htoken, hresolve, ht⟩ := resolve_of_find? hnamed hs
    have his := Context.expandPseudo_call_label hresolve he
    exact ⟨_, splits_call hlabel hwidth hcall htoken (givesHalves_relative ht pc) n his, anchor hlater⟩

end InTwoRows

/-! ## The source around them -/

namespace Layout

/-- An instruction takes its label and its bytes. -/
theorem step_instruction {y z : Layout} {l : Line} (hi : l.isInstruction = true)
    (hw : Text.words l.statement.body ≠ []) :
    y.step l = .ok z ↔ ∃ t, y.labelled l = .ok t ∧ y.pc + Mnemonic.width l.mnemonic ≤ addressSpace ∧
      z = behind (y.placements ++ [⟨l, y.address⟩])
        { pc := y.pc + Mnemonic.width l.mnemonic, symbols := t, ignored := y.ignored } := by
  rw [step_eq]
  cases y.labelled l with
  | error e => simp
  | ok t =>
    simp only [body_of_isInstruction _ hi hw, Except.ok.injEq, exists_eq_left']
    by_cases hfit : y.pc + Mnemonic.width l.mnemonic ≤ addressSpace
    · simp [hfit, behind, address, eq_comm]
    · simp [hfit]

/-- A layout through an instruction, up to it and from it on. -/
theorem place_instruction {y z : Layout} {l : Line} (hi : l.isInstruction = true)
    (hw : Text.words l.statement.body ≠ []) {before after : List Line} :
    y.place (before ++ l :: after) = (z, none) ↔ ∃ y₁ t rest, y.place before = (y₁, none) ∧
      y₁.labelled l = .ok t ∧ y₁.pc + Mnemonic.width l.mnemonic ≤ addressSpace ∧
      place { pc := y₁.pc + Mnemonic.width l.mnemonic, symbols := t, ignored := y₁.ignored } after = (rest, none) ∧
      z = rest.behind (y₁.placements ++ [⟨l, y₁.address⟩]) := by
  rw [place_append]
  rcases y.place before with ⟨y₁, _ | fault⟩
  · simp only [place]
    constructor
    · intro h
      cases hs : y₁.step l with
      | error halt =>
        rw [hs] at h
        cases h
      | ok z₁ =>
        obtain ⟨t, ht, hfit, rfl⟩ := (step_instruction hi hw).mp hs
        simp only [hs, place_behind, Prod.mk.injEq] at h
        exact ⟨y₁, t, _, rfl, ht, hfit, Prod.ext rfl h.2, h.1.symm⟩
    · rintro ⟨_, t, rest, e, ht, hfit, hrest, rfl⟩
      cases e
      simp only [(step_instruction hi hw).mpr ⟨t, ht, hfit, rfl⟩, place_behind, hrest]
  · simp

/-- What is placed on an empty layout comes from the lines. -/
theorem place_lines {y z : Layout} (hy : y.placements = []) {ls : List Line} (h : y.place ls = (z, none)) :
    ∀ p ∈ z.placements, p.line ∈ ls := by
  intro p hp
  rw [(place_ok h).placements, hy, List.nil_append] at hp
  have hline := List.mem_map_of_mem (f := Placement.line) hp
  rw [along_placedOn_lines] at hline
  exact List.mem_of_mem_filter hline

theorem labelled_word {y : Layout} {l : Line} {t : SymbolTable} (h : y.labelled l = .ok t) :
    ∀ b ∈ l.statement.label, Text.isWordByte b = true := by
  unfold labelled at h
  by_cases he : l.statement.label.isEmpty = true
  · simp [List.isEmpty_iff.mp he]
  · rw [if_neg he] at h
    exact (SymbolTable.isLabelName_word (SymbolTable.define_eq_ok_iff.mp h).1).2

variable {o : Options} {symbols : SymbolTable} {P : Text → Prop} {pc : Word} {is : List Instruction} {l l₁ l₂ : Line}

/-- Two lines are laid out in the place of one. -/
theorem place_pair (hx : Splits o symbols P pc is l l₁ l₂) (hn : l₁.number = l.number) {y y₁ rest : Layout}
    {t : SymbolTable} {before after : List Line} (hy : y.place before = (y₁, none)) (ht : y₁.labelled l = .ok t)
    (hfit : y₁.pc + Mnemonic.width l.mnemonic ≤ addressSpace)
    (hrest : place { pc := y₁.pc + Mnemonic.width l.mnemonic, symbols := t, ignored := y₁.ignored } after =
      (rest, none)) :
    y.place (before ++ l₁ :: l₂ :: after) =
      (rest.behind (y₁.placements ++ [⟨l₁, y₁.address⟩, ⟨l₂, y₁.address + 4⟩]), none) := by
  rw [hx.width.1] at hfit hrest
  have hlabel : y₁.labelled l₁ = .ok t := by rw [labelled, hx.label.1, hn, ← labelled, ht]
  have hsecond : place { pc := y₁.pc + 4, symbols := t, ignored := y₁.ignored } ([] ++ l₂ :: after) =
      (rest.behind [⟨l₂, y₁.address + 4⟩], none) := by
    refine (place_instruction hx.instruction.2 hx.named.2).mpr ⟨_, t, rest, rfl, ?_, ?_, ?_, ?_⟩
    · rw [labelled, hx.label.2]
      rfl
    · rw [hx.width.2.2]
      exact hfit
    · rw [hx.width.2.2]
      exact hrest
    · simp only [address, BitVec.ofNat_add]
      rfl
  refine (place_instruction hx.instruction.1 hx.named.1).mpr ⟨y₁, t, _, hy, hlabel, ?_, hx.width.2.1 ▸ hsecond, ?_⟩
  · rw [hx.width.2.1]
    omega
  · simp only [behind, List.append_assoc, List.cons_append, List.nil_append]

end Layout

/-- A line without a call comes to what it comes to, whatever the calls around it. -/
theorem encoded_of_noCall (o : Options) (symbols : SymbolTable) {l : Line} (h : 0x25 ∉ l.text) (pc : Word)
    (front rest : List Placement) :
    encoded o symbols (expandAll symbols {} (front ++ ⟨l, pc⟩ :: rest)).1 =
      encoded o symbols (expandAll symbols {} front).1 ++ Context.line ⟨symbols, o.positionIndependent, pc⟩ l ::
        encoded o symbols (expandAll symbols (expandAll symbols {} front).2 rest).1 := by
  have hline : Relocation.expandOne symbols (expandAll symbols {} front).2 ⟨l, pc⟩ =
      (⟨l, pc⟩, (expandAll symbols {} front).2) := Relocation.expandOne_of_not_mem _ _ h
  rw [Relocation.expandAll_append, encoded_append, expandAll, hline]
  rfl

/-- Between the same lines, two lines come to one instruction each, and all others to what they came to before. -/
theorem Splits.encoded_pair {o : Options} {symbols : SymbolTable} {P : Text → Prop} {pc : Word}
    {is : List Instruction} {l l₁ l₂ : Line} (hx : Splits o symbols P pc is l l₁ l₂) (front : List Placement)
    {rest : List Placement} (hrest : ∀ p ∈ rest, AsksOnly P p.line.text) :
    ∃ i₁ i₂, is.map Instruction.toWord = [i₁.toWord, i₂.toWord] ∧
      encoded o symbols (expandAll symbols {} (front ++ ⟨l₁, pc⟩ :: ⟨l₂, pc + 4⟩ :: rest)).1 =
        encoded o symbols (expandAll symbols {} front).1 ++ .ok [i₁] :: .ok [i₂] ::
          encoded o symbols (expandAll symbols (expandAll symbols {} front).2 rest).1 := by
  obtain ⟨i₁, i₂, hwords, hpair⟩ := hx.outcomes
  obtain ⟨memory', hagree, ps, hps, hencoded⟩ := hpair (expandAll symbols {} front).2
  have hbehind := (Relocation.expandAll_alike (rfl : symbols.Alike symbols)
    (List.forall₂_same.mpr fun p _ => .refl p) hrest hagree).1
  have hcons : ⟨l₁, pc⟩ :: ⟨l₂, pc + 4⟩ :: rest = [⟨l₁, pc⟩, ⟨l₂, pc + 4⟩] ++ rest := rfl
  refine ⟨i₁, i₂, hwords, ?_⟩
  rw [Relocation.expandAll_append, encoded_append, hcons, Relocation.expandAll_append, hps, encoded_append, hencoded,
    encoded_alike rfl hbehind]
  rfl

/-- If all lines around a line and the line itself come to instructions, then so they do around its two rows, with the
same words. -/
theorem InTwoRows.encoded_pair {o : Options} {symbols : SymbolTable} {later : List Line} {l : Line} {first second : Text}
    (hx : InTwoRows o symbols later (Text.words l.statement.body) first second) (hnamed : symbols.WellNamed)
    (hlabel : ∀ b ∈ l.statement.label, Text.isWordByte b = true) {pc : Word} {front rest : List Placement}
    (hrest : ∀ p ∈ rest, p.line ∈ later)
    (hall : ∀ x ∈ encoded o symbols (expandAll symbols {} (front ++ ⟨l, pc⟩ :: rest)).1, ∃ is, x = .ok is)
    (n : Nat) :
    ∃ P is l₁ l₂, l₁ = Line.ofRaw n (labelled l.statement.label first) ∧ l₂ = Line.ofRaw (n + 1) second ∧
      Splits o symbols P pc is l l₁ l₂ ∧
      (∀ x ∈ encoded o symbols (expandAll symbols {} (front ++ ⟨l₁, pc⟩ :: ⟨l₂, pc + 4⟩ :: rest)).1,
        ∃ is, x = .ok is) ∧
      Stages.wordsOf (encoded o symbols (expandAll symbols {} (front ++ ⟨l₁, pc⟩ :: ⟨l₂, pc + 4⟩ :: rest)).1) =
        Stages.wordsOf (encoded o symbols (expandAll symbols {} (front ++ ⟨l, pc⟩ :: rest)).1) := by
  rw [encoded_of_noCall o symbols (hx.noCall hnamed hlabel)] at hall ⊢
  rw [List.forall_mem_append, List.forall_mem_cons] at hall
  obtain ⟨hfront, ⟨is, hok⟩, hbehind⟩ := hall
  obtain ⟨P, hsplit, hasks⟩ := hx.splits hnamed hlabel hok n
  obtain ⟨i₁, i₂, hwords, hpair⟩ := hsplit.encoded_pair front fun p hp => hasks _ (hrest p hp)
  refine ⟨P, is, _, _, rfl, rfl, hsplit, ?_, ?_⟩
  · rw [hpair, List.forall_mem_append, List.forall_mem_cons, List.forall_mem_cons]
    exact ⟨hfront, ⟨_, rfl⟩, ⟨_, rfl⟩, hbehind⟩
  · rw [hpair, hok]
    simp [Stages.wordsOf, hwords]

namespace Stages

/-- The stages of a source whose text segment has its base somewhere in `front`. -/
theorem ofSource_inText {source : Text} {front rest : List Line} (h : Line.ofSource source = front ++ rest)
    {scan : Sections.Scan} (hscan : Sections.scan {} 0 front = (scan, none)) (hin : scan.InText) {text : Region}
    (ht : scan.text = some text) {s : Stages} :
    ofSource source = .ok s ↔
      (∀ l ∈ rest, l.isOrdinary = true) ∧
        s.sections = ⟨scan.data, { text with stop := (front ++ rest).length }⟩ ∧
        dataStage front s.sections = .ok s.data ∧
        Layout.place { pc := text.base.toNat, symbols := dataLabels s.data } (front.drop text.start ++ rest) =
          (s.layout, none) := by
  -- lines that tell nothing about segments leave the sections as `scan` has them
  have stages : (∀ l ∈ rest, l.isOrdinary = true) →
      let sections : Sections := ⟨scan.data, { text with stop := (front ++ rest).length }⟩
      (Sections.ofLines (front ++ rest)).2 = .ok sections ∧ dataStage (front ++ rest) sections = dataStage front sections ∧
        sections.text.lines (front ++ rest) = front.drop text.start ++ rest := by
    intro ho
    have hsections := Sections.ofLines_ordinary hscan hin.stage ht ho
    obtain ⟨hstart, hstop, hdata⟩ := Sections.ofLines_inText hscan hin hsections
    exact ⟨hsections, dataStage_append hdata, Region.lines_of_start_le hstart hstop⟩
  constructor
  · intro hs
    obtain ⟨hsections, hdata, hlayout⟩ := ofSource_ok hs
    rw [h] at hsections hdata hlayout
    have ho := Sections.ordinary_of_ofLines hscan hin hsections
    obtain ⟨hsections', hdata', hlines⟩ := stages ho
    have he := Except.ok.inj (hsections.symm.trans hsections')
    rw [layoutStage, he, hlines] at hlayout
    rw [he, hdata', ← he] at hdata
    exact ⟨ho, he, hdata, hlayout⟩
  · obtain ⟨sections, data, layout⟩ := s
    rintro ⟨ho, rfl, hdata, hlayout⟩
    obtain ⟨hsections, hdata', hlines⟩ := stages ho
    rw [← hdata'] at hdata
    simp only [ofSource, h, hsections, hdata, layoutStage, hlines, Layout.ofLines, hlayout]

/-- A source with two rows in the place of a line runs as it did. -/
theorem ofSource_inTwoRows {source source' : Text} {s : Stages} {o : Options} {front after after' : List Line}
    {l : Line} {first second : Text} (h : Line.ofSource source = front ++ l :: after) {n : Nat} (hn : l.number = n)
    (h' : Line.ofSource source' =
      front ++ Line.ofRaw n (labelled l.statement.label first) :: Line.ofRaw (n + 1) second :: after')
    (ha : List.Forall₂ Line.Alike after after') (ht : Sections.EndsInText front) (hs : ofSource source = .ok s)
    (he : s.errors o = [])
    (hx : InTwoRows o s.layout.symbols after (Text.words l.statement.body) first second) :
    ∃ s', ofSource source' = .ok s' ∧ s'.errors o = [] ∧ s'.words o = s.words o ∧
      s'.sections.text.base = s.sections.text.base ∧ dataImage s'.sections s'.data = dataImage s.sections s.data ∧
      s'.layout.symbols.Alike s.layout.symbols := by
  obtain ⟨hnone, hin⟩ := ht
  obtain ⟨scan, hscan⟩ : ∃ scan, Sections.scan {} 0 front = (scan, none) := ⟨_, Prod.ext rfl hnone⟩
  rw [hscan] at hin
  obtain ⟨text, htext⟩ := Option.isSome_iff_exists.mp hin.text
  obtain ⟨hordinary, hsections, hdata, hplace⟩ := (ofSource_inText h hscan hin htext).mp hs
  have hnamed := wellNamed hs
  obtain ⟨_, _, _, hw, _⟩ := hx.tokens hnamed
  obtain ⟨y, t, rest, hy, hlabel, hfit, hrest, hlayout⟩ :=
    (Layout.place_instruction (hx.isInstruction hnamed) (hw ▸ List.cons_ne_nil _ _)).mp hplace
  have hsymbols : s.layout.symbols = rest.symbols := by
    rw [hlayout]
    rfl
  rw [hsymbols] at hx hnamed ⊢
  have hold : s.expanded = (expandAll rest.symbols {} (y.placements ++ ⟨l, y.address⟩ :: rest.placements)).1 := by
    rw [expanded, hlayout, Layout.behind, List.append_assoc]
    rfl
  have hall := (errors_eq_nil_iff hs).mp he
  rw [hold, hsymbols] at hall
  obtain ⟨P, is, l₁, l₂, hl₁, hl₂, hsplit, hall', hwords⟩ :=
    hx.encoded_pair hnamed (Layout.labelled_word hlabel) (Layout.place_lines rfl hrest) hall n
  rw [← hl₁, ← hl₂] at h'
  -- the run with the two rows
  obtain ⟨rest', hrest', halike⟩ := Layout.place_alike ⟨rfl, rfl, .nil⟩ ha hrest
  have hnumber : l₁.number = l.number := by rw [hl₁, Line.ofRaw_number, hn]
  have hplace' := Layout.place_pair hsplit hnumber hy hlabel hfit hrest'
  have hordinary' : ∀ k ∈ l₁ :: l₂ :: after', k.isOrdinary = true := by
    rw [List.forall_mem_cons, List.forall_mem_cons] at *
    exact ⟨Line.isOrdinary_of_none (Line.directive?_of_isInstruction hsplit.instruction.1),
      Line.isOrdinary_of_none (Line.directive?_of_isInstruction hsplit.instruction.2),
      Line.ordinary_alike ha hordinary.2⟩
  rw [hsections] at hdata
  have hs' : ofSource source' = .ok ⟨⟨scan.data, { text with stop := (front ++ l₁ :: l₂ :: after').length }⟩, s.data,
      rest'.behind (y.placements ++ [⟨l₁, y.address⟩, ⟨l₂, y.address + 4⟩])⟩ :=
    (ofSource_inText h' hscan hin htext).mpr ⟨hordinary', rfl, hdata, hplace'⟩
  have hplacements : List.Forall₂ Placement.Alike
      (y.placements ++ [⟨l₁, y.address⟩, ⟨l₂, y.address + 4⟩] ++ rest.placements)
      (y.placements ++ [⟨l₁, y.address⟩, ⟨l₂, y.address + 4⟩] ++ rest'.placements) :=
    List.rel_append (List.forall₂_same.mpr fun p _ => .refl p) halike.placements
  have hnew := encoded_expandAll_alike (o := o) halike.symbols hplacements
  rw [List.append_assoc] at hnew
  refine ⟨_, hs', ?_, ?_, ?_, ?_, halike.symbols.symm⟩
  · rw [errors_eq_nil_iff hs']
    exact hnew ▸ hall'
  · rw [words_eq, words_eq, hold, hsymbols, ← hwords]
    exact congrArg wordsOf hnew.symm
  · rw [hsections]
  · rw [hsections]
    rfl

end Stages

/-- A source that loads a constant or an address in one line assembles to the same text, data and labels with two lines
that name the halves. -/
theorem load_forms_agree (o : Options) (source source' : Text) (before after : List Text) (raw first second : Text)
    (r : Result) (h : Line.rawLines source = before ++ raw :: after)
    (h' : Line.rawLines source' =
      before ++ labelled (Line.ofRaw (before.length + 1) raw).statement.label first :: second :: after)
    (ht : Sections.EndsInText (Line.numbered 1 before))
    (hx : InTwoRows o r.symbols (Line.numbered (before.length + 2) after)
      (Text.words (Line.ofRaw (before.length + 1) raw).statement.body) first second)
    (hr : (assemble o source).outcome = .ok r) (he : r.errors = []) :
    ∃ r', (assemble o source').outcome = .ok r' ∧ r'.errors = [] ∧ r'.text = r.text ∧ r'.data = r.data ∧
      r'.symbols.entries.map Symbol.spot = r.symbols.entries.map Symbol.spot := by
  have hl := Line.ofSource_of_rawLines h
  have hl' := Line.ofSource_of_rawLines h'
  obtain ⟨s, hs, rfl⟩ := Stages.ofSource_of_outcome hr
  have ha := Line.numbered_alike (before.length + 2) (before.length + 2 + 1) after
  rw [Line.numbered] at hl'
  obtain ⟨s', hs', he', hwords, hbase, hdata, hsymbols⟩ :=
    Stages.ofSource_inTwoRows hl (Line.ofRaw_number _ raw) hl' ha ht hs he hx
  refine ⟨s'.result o source', ?_, he', ?_, ?_, hsymbols⟩
  · rw [assemble_eq, hs']
    rfl
  · have hold : s.errors o = [] := he
    simp only [Stages.result, hold, he', hwords, hbase]
  · rw [Stages.result_data _ _ _ he', Stages.result_data _ _ _ he, hdata]

/-- The lines before and behind a call of the routine `sp`, which has the name of a register. -/
def aroundCall : List Text × List Text :=
  ([".section .data", ".org 0x0", "v: .byte 7", ".section .text", ".org 0x1000", "la a0, v"],
    ["j main", "sp: lb a0, 0(a0)", "ret"])

theorem load_forms_agree_call :
    let program (lines : List Text) := Text.unlines (aroundCall.1 ++ lines ++ aroundCall.2)
    ∃ r r', (assemble {} (program ["main: call sp  # again"])).outcome = .ok r ∧ r.errors = [] ∧
      (assemble {} (program ["main: auipc ra, %pcrel_hi(sp)", "jalr ra, %pcrel_lo(sp)(ra)"])).outcome = .ok r' ∧
      r'.errors = [] ∧ r'.text = r.text ∧ r'.data = r.data ∧
      r'.symbols.entries.map Symbol.spot = r.symbols.entries.map Symbol.spot := by
  intro program
  have run : ((assemble {} (program ["main: call sp  # again"])).outcome.toOption.map
      fun r => (r.errors, (r.symbols.find? "sp").isSome)) = some ([], true) := by decide +kernel
  obtain ⟨r, hr, he⟩ := Option.map_eq_some_iff.mp run
  obtain ⟨he, hsome⟩ := Prod.mk.inj he
  obtain ⟨s, hs⟩ := Option.isSome_iff_exists.mp hsome
  have words : Text.words (Line.ofRaw 7 "main: call sp  # again").statement.body = [("call" : Text), ("sp" : Text)] := by
    decide +kernel
  have rows : InTwoRows {} r.symbols (Line.numbered 8 aroundCall.2)
      (Text.words (Line.ofRaw 7 "main: call sp  # again").statement.body)
      (row "auipc" ["ra", Relocation.pcrelHi.written "sp"]) (row "jalr" ["ra", Relocation.pcrelLo.written "sp" ++ "(ra)"]) := by
    rw [words]
    exact .call (by decide +kernel) hs (by decide +kernel)
  obtain ⟨r', agree⟩ := load_forms_agree {} (program ["main: call sp  # again"])
    (program ["main: auipc ra, %pcrel_hi(sp)", "jalr ra, %pcrel_lo(sp)(ra)"]) aroundCall.1 aroundCall.2
    "main: call sp  # again" _ _ r (by decide +kernel) (by decide +kernel)
    ⟨by decide +kernel, by decide +kernel, by decide +kernel⟩ rows (Source.toOption_eq_some hr) he
  exact ⟨r, r', Source.toOption_eq_some hr, he, agree⟩

end Assembly

end Rv32Tools
