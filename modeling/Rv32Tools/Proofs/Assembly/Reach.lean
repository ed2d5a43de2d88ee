import Mathlib.Algebra.Group.Int.Defs
import Rv32Tools.Proofs.Assembly.Execution
import Rv32Tools.Proofs.Isa.Decoding

/-
  Rv32Tools.Proofs.Assembly.Reach — which labels a branch or a jump reaches.

  Branches, `beqz`, `bnez`, `jal`, `j` and `j1` are one word each, and hold the distance to their last operand
  (`expand_transfer`). The field has room for thirteen bits of it, or for twenty-one, and none for the lowest: what is
  read back is the even part of the distance modulo the size of the field, as a signed number (`Format.kept_toInt`). So
  the word leads to its label exactly if the distance is even and fits (`kept_eq_iff`); nothing is reported if it is not
  so. In the other direction a word that is read is what its own name and registers make with a label at its target
  (`line_of_target`).
-/

namespace Rv32Tools

/-! ## Distances in their fields -/

namespace Format

/-- The bits of a distance that a branch or a jump keeps, the lowest, which is always clear, counted in. -/
def offsetBits : Format → Nat
  | .b => 13
  | .j => 21
  | _ => 0

/-- The distances between the ends of the field, as signed numbers. -/
def InReach (f : Format) (d : Int) : Prop :=
  match f with
  | .b => -4096 ≤ d ∧ d ≤ 4094
  | .j => -1048576 ≤ d ∧ d ≤ 1048574
  | _ => False

end Format

/-- The word without its lowest bit. -/
theorem Word.clear_toNat (v : Word) : (v &&& ~~~(1 : Word)).toNat = 2 * (v.toNat / 2) := by
  have hbits : v &&& ~~~(1 : Word) = v >>> 1 <<< 1 := by
    apply BitVec.eq_of_getLsbD_eq
    intro k hk
    simp only [BitVec.getLsbD_and, BitVec.getLsbD_not, BitVec.getLsbD_shiftLeft, BitVec.getLsbD_ushiftRight]
    grind
  have hv := v.isLt
  rw [hbits, BitVec.toNat_shiftLeft, BitVec.toNat_ushiftRight, Nat.shiftLeft_eq, Nat.shiftRight_eq_div_pow]
  omega

theorem Word.signExtendFrom_toInt {bits : Nat} (h : bits ≤ 32) (v : Word) :
    (v.signExtendFrom bits).toInt = (v.toNat : Int).bmod (2 ^ bits) := by
  rw [Word.signExtendFrom, BitVec.toInt_signExtend_of_le h, BitVec.toInt_setWidth]

namespace Format

variable {f : Format} (hf : f = .b ∨ f = .j)

include hf

/-- What a field keeps of a distance is its even part modulo the size of the field, as a signed number. -/
theorem kept_toInt (v : Word) : (f.kept v).toInt = (2 * ((v.toNat : Int) / 2)).bmod (2 ^ f.offsetBits) := by
  have heven : ((v &&& ~~~(1 : Word)).toNat : Int) = 2 * ((v.toNat : Int) / 2) := by
    rw [Word.clear_toNat]
    omega
  rcases hf with rfl | rfl
  · rw [kept, Word.signExtendFrom_toInt (by decide), heven]
    rfl
  · rw [kept, Word.signExtendFrom_toInt (by decide), heven]
    rfl

/-- The distance from `p` to `a` may be taken with or without the wrap at the end of the address space. -/
theorem kept_sub_toInt (a p : Word) :
    (f.kept (a - p)).toInt = (2 * (((a.toNat : Int) - p.toNat) / 2)).bmod (2 ^ f.offsetBits) := by
  have ha := a.isLt
  have hp := p.isLt
  rw [kept_toInt hf, BitVec.toNat_sub]
  rcases hf with rfl | rfl
  · simp only [offsetBits, Int.bmod_def]
    omega
  · simp only [offsetBits, Int.bmod_def]
    omega

/-- The field keeps a distance exactly if it is even and lies between its ends. -/
theorem kept_eq_iff (v : Word) : f.kept v = v ↔ v.toInt % 2 = 0 ∧ f.InReach v.toInt := by
  have hv := v.isLt
  have hsigned := BitVec.toInt_eq_toNat_cond v
  rw [← BitVec.toInt_inj, kept_toInt hf, hsigned]
  rcases hf with rfl | rfl
  · simp only [offsetBits, InReach, Int.bmod_def]
    omega
  · simp only [offsetBits, InReach, Int.bmod_def]
    omega

end Format

/-! ## Branches and jumps to labels -/

/-- The branch or jump whose word a name stands for, if it is one that holds the distance to its target. -/
def Mnemonic.transfer? : Mnemonic → Option BaseOp
  | .base op => if op.format = .b ∨ op.format = .j then some op else none
  | .pseudo .beqz => some .beq
  | .pseudo .bnez => some .bne
  | .pseudo .j | .pseudo .j1 => some .jal
  | .pseudo _ => none

theorem Mnemonic.transfer?_format {m : Mnemonic} {op : BaseOp} (h : m.transfer? = some op) :
    op.format = .b ∨ op.format = .j := by
  unfold transfer? at h
  split at h
  · split at h
    · cases h
      assumption
    · cases h
  · cases h
    exact Or.inl rfl
  · cases h
    exact Or.inl rfl
  · cases h
    exact Or.inr rfl
  · cases h
    exact Or.inr rfl
  · cases h

namespace Instruction

/-- The registers that stand before the target of a branch or a jump. -/
def targetRegisters (i : Instruction) : List Reg := if i.op.format = .b then [i.rs1, i.rs2] else [i.rd]

theorem target_eq_iff {i : Instruction} {pc a : Word} : i.target pc = a ↔ i.imm = a - pc := by
  rw [target, BitVec.add_comm, BitVec.eq_sub_iff_add_eq]

/-- The text of a branch or a jump ends with the address it goes to. -/
theorem render_target (i : Instruction) (hf : i.op.format = .b ∨ i.op.format = .j) (pc : Word) :
    ∃ front, i.render pc = front ++ ", 0x" ++ Text.hexLower 8 (i.target pc).toNat := by
  have htail : ∀ s : Text, (", " : Text) ++ ("0x" ++ s) = ", 0x" ++ s := fun _ => rfl
  rcases hf with hf | hf
  · refine ⟨i.op.name ++ " " ++ (i.rs1.name ++ ", " ++ i.rs2.name), ?_⟩
    simp only [render, hf, renderTarget, Text.join, List.intercalate_cons_cons, List.intercalate_singleton,
      List.append_assoc, htail]
  · refine ⟨i.op.name ++ " " ++ i.rd.name, ?_⟩
    simp only [render, hf, renderTarget, Text.join, List.intercalate_cons_cons, List.intercalate_singleton,
      List.append_assoc, htail]

end Instruction

namespace Assembly.Context

variable (x : Context)

/-- The single word of a branch or a jump whose last operand is at the distance that the word is to hold. -/
def Transfers (op : BaseOp) (operands : List Text) (is : List Instruction) : Prop :=
  ∃ i token, is = [i] ∧ i.op = op ∧ operands.getLast? = some token ∧ x.distance token = .ok i.imm

theorem expandBase_transfer (e : LineError) {op : BaseOp} (hf : op.format = .b ∨ op.format = .j) (operands : List Text) :
    Yields (x.Transfers op operands) (x.expandBase (.error e) op operands) := by
  unfold expandBase
  rcases hf with hf | hf
  · rw [hf]
    rcases operands with _ | ⟨a, _ | ⟨b, _ | ⟨c, _ | ⟨d, rest⟩⟩⟩⟩
    · exact .error e
    · exact .error e
    · exact .error e
    · exact .bind fun _ _ => .bind fun _ _ => .bind fun _ hd => .pure ⟨_, c, rfl, rfl, rfl, hd⟩
    · exact .error e
  · rw [hf]
    rcases operands with _ | ⟨a, _ | ⟨b, _ | ⟨c, rest⟩⟩⟩
    · exact .error e
    · exact .bind fun _ hd => .pure ⟨_, a, rfl, rfl, rfl, hd⟩
    · exact .bind fun _ _ => .bind fun _ hd => .pure ⟨_, b, rfl, rfl, rfl, hd⟩
    · exact .error e

theorem expandPseudo_transfer (e : LineError) {p : Pseudo} {op : BaseOp} (h : Mnemonic.transfer? (.pseudo p) = some op)
    (operands : List Text) : Yields (x.Transfers op operands) (x.expandPseudo (.error e) p operands) := by
  cases p with
  | beqz =>
    cases h
    rcases operands with _ | ⟨a, _ | ⟨b, _ | ⟨c, rest⟩⟩⟩
    · exact .error e
    · exact .error e
    · exact .bind fun _ _ => .bind fun _ hd => .pure ⟨_, b, rfl, rfl, rfl, hd⟩
    · exact .error e
  | bnez =>
    cases h
    rcases operands with _ | ⟨a, _ | ⟨b, _ | ⟨c, rest⟩⟩⟩
    · exact .error e
    · exact .error e
    · exact .bind fun _ _ => .bind fun _ hd => .pure ⟨_, b, rfl, rfl, rfl, hd⟩
    · exact .error e
  | j =>
    cases h
    rcases operands with _ | ⟨a, _ | ⟨b, rest⟩⟩
    · exact .error e
    · exact .bind fun _ hd => .pure ⟨_, a, rfl, rfl, rfl, hd⟩
    · exact .error e
  | j1 =>
    cases h
    rcases operands with _ | ⟨a, _ | ⟨b, rest⟩⟩
    · exact .error e
    · exact .bind fun _ hd => .pure ⟨_, a, rfl, rfl, rfl, hd⟩
    · exact .error e
  | _ => cases h

theorem expand_transfer {name : Text} {m : Mnemonic} {op : BaseOp} (hm : Mnemonic.ofText? name = some m)
    (hop : m.transfer? = some op) (operands : List Text) : Yields (x.Transfers op operands) (x.expand name operands) := by
  unfold expand
  rw [hm]
  cases m with
  | base op' =>
    have hformat := Mnemonic.transfer?_format hop
    obtain rfl : op' = op := by
      simp only [Mnemonic.transfer?] at hop
      split at hop
      · cases hop
        rfl
      · cases hop
    exact x.expandBase_transfer _ hformat operands
  | pseudo p => exact x.expandPseudo_transfer _ hop operands

variable {x}

theorem distance_label {token : Text} {s : Symbol} (h : Operand.resolve x.symbols token = .label s) :
    x.distance token = .ok (s.address - x.pc) := by
  rw [distance, h]

/-- The name and the registers of a branch or a jump, with a label at its target, make the same word. -/
theorem expandBase_target {w : Word} {i : Instruction} (hi : Instruction.ofWord? w = some i)
    (hf : i.op.format = .b ∨ i.op.format = .j) (wrong : Except LineError (List Instruction)) {tokens : List Text}
    (hregs : tokens.map Reg.ofText? = i.targetRegisters.map some) {label : Text}
    (hlabel : x.distance label = .ok i.imm) :
    ∃ k, x.expandBase wrong i.op (tokens ++ [label]) = .ok [k] ∧ k.toWord = w := by
  have hword := Instruction.toWord_of_ofWord? hi
  have hregister : ∀ {t : Text} {r : Reg}, Reg.ofText? t = some r → register t = .ok r := by
    intro t r ht
    rw [register, ht]
  rw [← hword]
  rcases hf with hf | hf
  · obtain ⟨a, b, rfl, ha, hb⟩ : ∃ a b, tokens = [a, b] ∧ Reg.ofText? a = some i.rs1 ∧ Reg.ofText? b = some i.rs2 := by
      simpa [Instruction.targetRegisters, hf, List.map_eq_cons_iff] using hregs
    refine ⟨{ op := i.op, rs1 := i.rs1, rs2 := i.rs2, imm := i.imm }, ?_, ?_⟩
    · simp only [expandBase, hf, List.cons_append, List.nil_append, hregister ha, hregister hb, hlabel]
      rfl
    · simp only [Instruction.toWord, hf]
  · obtain ⟨a, rfl, ha⟩ : ∃ a, tokens = [a] ∧ Reg.ofText? a = some i.rd := by
      simpa [Instruction.targetRegisters, hf, List.map_eq_cons_iff] using hregs
    refine ⟨{ op := i.op, rd := i.rd, imm := i.imm }, ?_, ?_⟩
    · simp only [expandBase, hf, List.cons_append, List.nil_append, hregister ha, hlabel]
      rfl
    · simp only [Instruction.toWord, hf]

/-- A line of such a name, such registers and such a label is assembled to the word. -/
theorem line_of_target {w : Word} {i : Instruction} (hi : Instruction.ofWord? w = some i)
    (hf : i.op.format = .b ∨ i.op.format = .j) {l : Source.Line} (hfault : l.fault = none) {name label : Text}
    {tokens : List Text} (hw : Text.words l.statement.body = name :: (tokens ++ [label]))
    (hname : Mnemonic.ofText? name = some (.base i.op)) (hregs : tokens.map Reg.ofText? = i.targetRegisters.map some)
    {s : Symbol} (hs : Operand.resolve x.symbols label = .label s) (haddress : s.address = i.target x.pc) :
    ∃ k, x.line l = .ok [k] ∧ k.toWord = w := by
  have hdistance : x.distance label = .ok i.imm := by
    rw [distance_label hs, ← Instruction.target_eq_iff.mp haddress.symm]
  obtain ⟨k, hk, hword⟩ := expandBase_target hi hf
    (.error (.operandCount name (Mnemonic.operandCounts (.base i.op)) (tokens ++ [label]).length)) hregs hdistance
  refine ⟨k, ?_, hword⟩
  rw [line, hfault]
  simp only [hw, expand, hname, hk]

end Assembly.Context

namespace Assembly

open Context

/-- A branch or a jump with a label as its target is one word. It holds the even part of the distance modulo the size of
its field, and the address that its text shows is the label's exactly if the distance is even and the field has room for
it. Every branch and jump is the word that its name and registers make with a label at the address its text shows. -/
theorem labels_reached :
    (∀ (x : Context) (l : Source.Line) (is : List Instruction), x.line l = .ok is →
      ∀ (name : Text) (operands : List Text), Text.words l.statement.body = name :: operands →
      ∀ (m : Mnemonic) (op : BaseOp), Mnemonic.ofText? name = some m → m.transfer? = some op →
      ∀ (label : Text) (s : Symbol), operands.getLast? = some label → Operand.resolve x.symbols label = .label s →
      ∃ i k, is = [i] ∧ Instruction.ofWord? i.toWord = some k ∧ k.op = op ∧
        k.imm.toInt = (2 * (((s.address.toNat : Int) - x.pc.toNat) / 2)).bmod (2 ^ op.format.offsetBits) ∧
        (∃ front, i.toWord.render x.pc = front ++ ", 0x" ++ Text.hexLower 8 (k.target x.pc).toNat) ∧
        (k.target x.pc = s.address ↔
          (s.address - x.pc).toInt % 2 = 0 ∧ op.format.InReach (s.address - x.pc).toInt)) ∧
    ∀ (w : Word) (i : Instruction), Instruction.ofWord? w = some i → i.op.format = .b ∨ i.op.format = .j →
      ∀ (x : Context) (l : Source.Line), l.fault = none →
      ∀ (name label : Text) (tokens : List Text), Text.words l.statement.body = name :: (tokens ++ [label]) →
      Mnemonic.ofText? name = some (.base i.op) → tokens.map Reg.ofText? = i.targetRegisters.map some →
      ∀ s : Symbol, Operand.resolve x.symbols label = .label s → s.address = i.target x.pc →
      ∃ k, x.line l = .ok [k] ∧ k.toWord = w := by
  refine ⟨?_, fun w i hi hf x l hfault name label tokens hw hname hregs s hs haddress =>
    line_of_target hi hf hfault hw hname hregs hs haddress⟩
  intro x l is hline name operands hw m op hm hop label s hlast hs
  obtain ⟨-, name', operands', hw', hexpand⟩ := x.line_eq_ok hline
  rw [hw] at hw'
  cases hw'
  obtain ⟨i, token, rfl, rfl, htoken, hdistance⟩ := x.expand_transfer hm hop operands is hexpand
  obtain rfl : label = token := Option.some.inj (hlast.symm.trans htoken)
  have hoffset : i.imm = s.address - x.pc := by
    rw [distance_label hs] at hdistance
    exact (Except.ok.inj hdistance).symm
  have hf := Mnemonic.transfer?_format hop
  obtain ⟨k, hk, hkop, -, -, -, himm⟩ := i.ofWord?_toWord
  rw [hoffset] at himm
  refine ⟨i, k, rfl, hk, hkop, ?_, ?_, ?_⟩
  · rw [himm, Format.kept_sub_toInt hf]
  · rw [Word.render, hk]
    exact k.render_target (hkop ▸ hf) x.pc
  · rw [Instruction.target_eq_iff, himm, Format.kept_eq_iff hf]

/-- A label 4096 bytes behind a branch and one 4096 bytes ahead of it. -/
def edgeLabels : SymbolTable := ⟨[⟨"behind", 0, .data, 1⟩, ⟨"ahead", 0x2000, .text, 2⟩]⟩

/-- The branch back reaches its label; the one ahead, two bytes too far, comes to the same word and misses. The word is made
again by its own name and registers. -/
theorem labels_reached_edge :
    let x : Context := ⟨edgeLabels, false, 0x1000⟩
    x.line { number := 1, text := "beqz a0 behind" } = .ok [{ op := .beq, rs1 := 10, imm := -4096 }] ∧
    x.line { number := 1, text := "beqz a0 ahead" } = .ok [{ op := .beq, rs1 := 10, imm := 4096 }] ∧
    (∃ k, Instruction.ofWord? 0x80050063 = some k ∧ k.target 0x1000 = 0 ∧ k.target 0x1000 ≠ 0x2000) ∧
    ∃ k, x.line { number := 1, text := "BEQ x10 zero behind" } = .ok [k] ∧ k.toWord = 0x80050063 := by
  intro x
  obtain ⟨reached, again⟩ := labels_reached
  have hbehind : x.line { number := 1, text := "beqz a0 behind" } = .ok [{ op := .beq, rs1 := 10, imm := -4096 }] :=
    Source.toOption_eq_some (by decide +kernel)
  have hahead : x.line { number := 1, text := "beqz a0 ahead" } = .ok [{ op := .beq, rs1 := 10, imm := 4096 }] :=
    Source.toOption_eq_some (by decide +kernel)
  obtain ⟨_, k, hi, hk, -, -, -, hexact⟩ := reached x _ _ hbehind "beqz" ["a0", "behind"] (by decide +kernel)
    (.pseudo .beqz) .beq (by decide +kernel) rfl "behind" ⟨"behind", 0, .data, 1⟩ rfl (by decide +kernel)
  obtain ⟨_, k', hi', hk', -, -, -, hexact'⟩ := reached x _ _ hahead "beqz" ["a0", "ahead"] (by decide +kernel)
    (.pseudo .beqz) .beq (by decide +kernel) rfl "ahead" ⟨"ahead", 0x2000, .text, 2⟩ rfl (by decide +kernel)
  cases hi
  cases hi'
  obtain rfl : k = k' := Option.some.inj (hk.symm.trans hk')
  refine ⟨hbehind, hahead, ⟨k, hk, hexact.mpr ⟨by decide, by decide, by decide⟩, fun hfar => ?_⟩, ?_⟩
  · exact absurd (hexact'.mp hfar).2.2 (by decide)
  · exact again 0x80050063 ⟨.beq, 0, 10, 0, -4096⟩ (by decide +kernel) (Or.inl rfl) x _ rfl "BEQ" "behind" ["x10", "zero"]
      (by decide +kernel) (by decide +kernel) (by decide +kernel) ⟨"behind", 0, .data, 1⟩ (by decide +kernel) (by decide)

end Assembly

end Rv32Tools
