import Rv32Tools.Proofs.Source.Reading
import Rv32Tools.Proofs.Isa.Disassembly
import Rv32Tools.Proofs.Assembly.Addresses

/-
  Rv32Tools.Proofs.Assembly.Reassembly — a disassembly assembles to the words it shows.

  The two halves meet at `Spells`: rows, and the words they stand for wherever they are and whatever the labels are.
  - A disassembly, without its columns of addresses and words, spells the words it was made of
    (`disassemble_spells`): an instruction as it is rendered (`row_render`), and an upper load with the addition behind
    it as the constant they make, which comes apart into the same two words (`Word.loadedConstant?_eq_some`).
  - A text segment of rows that spell words is laid out and encoded to them (`Spells.assembled`).
  Branches and jumps are left out: they are shown with the address they go to, and read with the distance.
-/

namespace Rv32Tools

open Source (Line Token Written followers)
open Source.Written (WellFormed)

/-! ## Instructions as they are rendered -/

theorem decimalInt_token (v : Int) : Token (Text.decimalInt v) := by
  have digit : ∀ b, Text.isDigitByte b = true → Source.isTokenByte b = true := Text.forall_byte (by decide +kernel)
  have digits : ∀ n, Token (Text.decimal n) := fun n =>
    ⟨Text.natural_ne_nil (Text.natural_decimal (Nat.le_refl n)), fun b hb => digit b (Source.decimal_digits n b hb)⟩
  cases v with
  | ofNat n => exact digits n
  | negSucc n =>
    refine ⟨List.cons_ne_nil _ _, fun b hb => ?_⟩
    rcases List.mem_cons.mp hb with rfl | hb
    · decide
    · exact (digits (n + 1)).bytes b hb

theorem hex_token {digits : Text} {n : Nat} (h : Text.natural 16 0xFFFFFFFF digits = .ok n) :
    Token ("0x" ++ digits) := Source.number?_token (Source.number?_hex h)

theorem natural_hexShort_word (w : Word) : Text.natural 16 0xFFFFFFFF (Text.hexShort w.toNat) = .ok w.toNat :=
  Text.natural_hexShort (by have := w.isLt; omega)

theorem op_name (op : BaseOp) : Token op.name ∧ Mnemonic.ofText? op.name = some (.base op) := by
  have names : ∀ op ∈ BaseOp.all, (op.name ≠ [] ∧ op.name.all Source.isTokenByte = true) ∧
      Mnemonic.ofText? op.name = some (.base op) := by decide +kernel
  obtain ⟨⟨hne, hbytes⟩, hof⟩ := names op (BaseOp.mem_all op)
  exact ⟨⟨hne, List.all_eq_true.mp hbytes⟩, hof⟩

namespace Instruction

/-- Neither a branch nor a jump. -/
def IsStraight (i : Instruction) : Prop := i.op.format ≠ .b ∧ i.op.format ≠ .j

instance (i : Instruction) : Decidable i.IsStraight := inferInstanceAs (Decidable (_ ∧ _))

/-- The operands of an instruction as they are rendered; none of a branch or a jump. -/
def written (i : Instruction) : List Written :=
  let offset := Text.decimalInt i.imm.toInt
  match i.op.format with
  | .r => [.token i.rd.name, .token i.rs1.name, .token i.rs2.name]
  | .i =>
    if i.op.isIndexed then [.token i.rd.name, .indexed offset i.rs1]
    else [.token i.rd.name, .token i.rs1.name, .token offset]
  | .shift => [.token i.rd.name, .token i.rs1.name, .token offset]
  | .s => [.token i.rs2.name, .indexed offset i.rs1]
  | .u => [.token i.rd.name, .token ("0x" ++ Text.hexShort i.imm.toNat)]
  | .b | .j | .pseudo => []

theorem written_wellFormed (i : Instruction) : ∀ w ∈ i.written, w.WellFormed := by
  have hrd : WellFormed (.token i.rd.name) := Source.name_token i.rd
  have hrs1 : WellFormed (.token i.rs1.name) := Source.name_token i.rs1
  have hrs2 : WellFormed (.token i.rs2.name) := Source.name_token i.rs2
  have hoffset := decimalInt_token i.imm.toInt
  have hat : WellFormed (.indexed (Text.decimalInt i.imm.toInt) i.rs1) := hoffset
  have himm : WellFormed (.token (Text.decimalInt i.imm.toInt)) := hoffset
  have hupper : WellFormed (.token ("0x" ++ Text.hexShort i.imm.toNat)) := hex_token (natural_hexShort_word i.imm)
  unfold written
  cases i.op.format with
  | r => simp [hrd, hrs1, hrs2]
  | i => cases i.op.isIndexed <;> simp [hrd, hrs1, hat, himm]
  | shift => simp [hrd, hrs1, himm]
  | s => simp [hrs2, hat]
  | u => simp [hrd, hupper]
  | b => simp
  | j => simp
  | pseudo => simp

theorem render_eq {i : Instruction} (h : i.IsStraight) (pc : Word) :
    ∃ w ws, i.written = w :: ws ∧ i.render pc = i.op.name ++ 0x20 :: (w.text ++ followers ws) := by
  have hrender : i.render pc = i.op.name ++ " " ++ Text.join ", " (i.written.map Written.text) := by
    unfold render written
    cases hf : i.op.format with
    | r => rfl
    | i =>
      cases i.op.isIndexed with
      | true => simp [Written.text]; rfl
      | false => rfl
    | shift => rfl
    | s => simp [Written.text]; rfl
    | u => rfl
    | b => exact absurd hf h.1
    | j => exact absurd hf h.2
    | pseudo => exact absurd hf (format_ne_pseudo i.op)
  have hne : i.written ≠ [] := by
    unfold written
    cases hf : i.op.format with
    | i => cases i.op.isIndexed <;> simp
    | b => exact absurd hf h.1
    | j => exact absurd hf h.2
    | pseudo => exact absurd hf (format_ne_pseudo i.op)
    | _ => simp
  obtain ⟨w, ws, hw⟩ := List.exists_cons_of_ne_nil hne
  refine ⟨w, ws, hw, ?_⟩
  rw [hrender, hw, Source.join_text, List.append_assoc]
  rfl

end Instruction

namespace Assembly

open Layout (along placedOn)

theorem register_name (r : Reg) : Context.register r.name = .ok r := by rw [Context.register, Source.ofText?_name]

theorem literal_decimal (w : Word) : Context.literal (Text.decimalInt w.toInt) = .ok w := by
  have hlow := BitVec.le_toInt w
  have hhigh := BitVec.toInt_lt (x := w)
  have hv : Source.number? (Text.decimalInt w.toInt) = some w.toInt :=
    Source.number?_decimalInt (by simp at hlow; omega) (by simp at hhigh; omega)
  rw [Context.literal, hv]
  exact congrArg Except.ok (BitVec.ofInt_toInt)

theorem literal_hex {digits : Text} {w : Word} (h : Text.natural 16 0xFFFFFFFF digits = .ok w.toNat) :
    Context.literal ("0x" ++ digits) = .ok w := by
  rw [Context.literal, Source.number?_hex h]
  refine congrArg Except.ok ?_
  rw [BitVec.ofInt_natCast, BitVec.ofNat_toNat, BitVec.setWidth_eq]

/-- An instruction that is read as it was rendered has the same word, whatever the labels are. -/
theorem expand_written {i : Instruction} (h : i.IsStraight) (x : Context) :
    ∃ j : Instruction, x.expand i.op.name (i.written.flatMap Written.words) = .ok [j] ∧ j.toWord = i.toWord := by
  have himm := literal_decimal i.imm
  have hupper := literal_hex (natural_hexShort_word i.imm)
  have same : ∀ (operands : List Text) (j : Instruction), i.written.flatMap Written.words = operands →
      (∀ wrong, x.expandBase wrong i.op operands = .ok [j]) → j.toWord = i.toWord →
      ∃ j : Instruction, x.expand i.op.name (i.written.flatMap Written.words) = .ok [j] ∧ j.toWord = i.toWord := by
    intro operands j ho hj hw
    refine ⟨j, ?_, hw⟩
    rw [Context.expand, (op_name i.op).2, ho]
    exact hj _
  cases hf : i.op.format with
  | r =>
    apply same [i.rd.name, i.rs1.name, i.rs2.name] { op := i.op, rd := i.rd, rs1 := i.rs1, rs2 := i.rs2 }
    · simp [Instruction.written, hf, Written.words]
    · simp [Context.expandBase, hf, register_name, bind, Except.bind, pure, Except.pure]
    · simp [Instruction.toWord, hf]
  | i =>
    apply same [i.rd.name, i.rs1.name, Text.decimalInt i.imm.toInt]
      { op := i.op, rd := i.rd, rs1 := i.rs1, imm := i.imm }
    · cases hx : i.op.isIndexed <;> simp [Instruction.written, hf, hx, Written.words]
    · simp [Context.expandBase, hf, register_name, himm, bind, Except.bind, pure, Except.pure]
    · simp [Instruction.toWord, hf]
  | shift =>
    apply same [i.rd.name, i.rs1.name, Text.decimalInt i.imm.toInt]
      { op := i.op, rd := i.rd, rs1 := i.rs1, imm := i.imm }
    · simp [Instruction.written, hf, Written.words]
    · simp [Context.expandBase, hf, register_name, himm, bind, Except.bind, pure, Except.pure]
    · simp [Instruction.toWord, hf]
  | s =>
    apply same [i.rs2.name, i.rs1.name, Text.decimalInt i.imm.toInt]
      { op := i.op, rs1 := i.rs1, rs2 := i.rs2, imm := i.imm }
    · simp [Instruction.written, hf, Written.words]
    · simp [Context.expandBase, hf, register_name, himm, bind, Except.bind, pure, Except.pure]
    · simp [Instruction.toWord, hf]
  | u =>
    apply same [i.rd.name, "0x" ++ Text.hexShort i.imm.toNat] { op := i.op, rd := i.rd, imm := i.imm }
    · simp [Instruction.written, hf, Written.words]
    · simp [Context.expandBase, hf, register_name, hupper, bind, Except.bind, pure, Except.pure]
    · simp [Instruction.toWord, hf]
  | b => exact absurd hf h.1
  | j => exact absurd hf h.2
  | pseudo => exact absurd hf (Instruction.format_ne_pseudo i.op)

/-! ## Lines and the words they stand for -/

/-- A line stands for words, wherever it is and whatever the labels are. -/
structure StandsFor (l : Line) (ws : List Word) : Prop where
  instruction : l.isInstruction = true
  label : l.statement.label = []
  named : Text.words l.statement.body ≠ []
  noCall : 0x25 ∉ l.text
  width : Mnemonic.width l.mnemonic = 4 * ws.length
  encoded : ∀ x : Context, ∃ is, x.line l = .ok is ∧ is.map Instruction.toWord = ws

/-- A line of tokens stands for what its words expand to. -/
theorem standsFor_ofWords {number : Nat} {name : Text} {operands : List Text} {ws : List Word} {m : Mnemonic}
    (ht : ∀ t ∈ name :: operands, Token t) (hm : Mnemonic.ofText? name = some m) (hw : m.words = ws.length)
    (hx : ∀ x : Context, ∃ is, x.expand name operands = .ok is ∧ is.map Instruction.toWord = ws) :
    StandsFor (.ofWords number (name :: operands)) ws := by
  have hdotted : ∀ t ∈ name :: operands, Source.Dotted t := fun t h => (ht t h).dotted
  have hst := Line.ofWords_statement number hdotted
  have hwords : Text.words (Line.statement (.ofWords number (name :: operands))).body = name :: operands := by
    rw [hst]
    exact Line.ofWords_words number hdotted
  obtain ⟨b, hb, hhead⟩ := Line.ofWords_head number (ht name List.mem_cons_self) operands
  have hdot : b ≠ 0x2E := Source.isTokenByte_ne hb (by decide)
  constructor
  · obtain ⟨r, hr⟩ := List.head?_eq_some_iff.mp hhead
    simp [Line.isInstruction, hst, Source.directive?, hr, hdot]
  · rw [hst]
  · rw [hwords]
    exact List.cons_ne_nil _ _
  · exact fun hmem => Source.isLineByte_ne (Line.ofWords_bytes number ht _ hmem) (by decide) rfl
  · rw [Line.mnemonic, hwords, Mnemonic.width, List.headD_cons, hm]
    show m.words * 4 = _
    omega
  · intro x
    obtain ⟨is, his, hws⟩ := hx x
    refine ⟨is, ?_, hws⟩
    rw [Context.line, hwords]
    simp only [his]
    rfl

/-! ## Rows of a disassembly -/

theorem words_tokens {ws : List Written} (h : ∀ w ∈ ws, w.WellFormed) : ∀ t ∈ ws.flatMap Written.words, Token t := by
  intro t ht
  obtain ⟨w, hw, ht⟩ := List.mem_flatMap.mp ht
  have hwf := h w hw
  cases w with
  | token text =>
    rw [List.mem_singleton.mp ht]
    exact hwf
  | indexed offset reg =>
    rcases List.mem_cons.mp ht with rfl | ht
    · exact Source.name_token reg
    · rw [List.mem_singleton.mp ht]
      exact hwf

/-- A row stands for words, on whatever line it is. -/
structure Row (row : Text) (ws : List Word) : Prop where
  oneLine : 0x0A ∉ row ∧ 0x0D ∉ row
  standsFor : ∀ number, StandsFor (Line.ofRaw number row) ws

/-- An instruction written out stands for what its words expand to. -/
theorem row_written {name : Text} {w : Written} {operands : List Written} {ws : List Word} {m : Mnemonic}
    (hname : Token name) (hm : Mnemonic.ofText? name = some m) (hw : ∀ v ∈ w :: operands, v.WellFormed)
    (hlen : m.words = ws.length)
    (hx : ∀ x : Context, ∃ is, x.expand name ((w :: operands).flatMap Written.words) = .ok is ∧
      is.map Instruction.toWord = ws) :
    Row (name ++ 0x20 :: (w.text ++ followers operands)) ws := by
  have hfirst := hw w List.mem_cons_self
  have hrest : ∀ v ∈ operands, v.WellFormed := fun v hv => hw v (List.mem_cons_of_mem _ hv)
  have hbytes := Source.isLineByte_instruction hname hfirst hrest
  refine ⟨⟨fun hb => Source.isLineByte_ne (hbytes _ hb) (by decide) rfl,
    fun hb => Source.isLineByte_ne (hbytes _ hb) (by decide) rfl⟩, fun number => ?_⟩
  rw [Source.ofRaw_instruction number hname hfirst hrest]
  refine standsFor_ofWords (fun t ht => ?_) hm hlen hx
  rcases List.mem_cons.mp ht with rfl | ht
  · exact hname
  · exact words_tokens hw t ht

theorem row_render {w : Word} {i : Instruction} (hi : Instruction.ofWord? w = some i) (hs : i.IsStraight) (pc : Word) :
    Row (Word.render w pc) [w] := by
  obtain ⟨v, vs, hwritten, hrender⟩ := Instruction.render_eq hs pc
  have hwf := i.written_wellFormed
  rw [Word.render, hi]
  show Row (i.render pc) [w]
  rw [hrender]
  refine row_written (op_name i.op).1 (op_name i.op).2 (hwritten ▸ hwf) rfl fun x => ?_
  obtain ⟨j, hj, hjw⟩ := expand_written hs x
  rw [hwritten] at hj
  refine ⟨[j], hj, ?_⟩
  rw [List.map_singleton, hjw, Instruction.toWord_of_ofWord? hi]

theorem row_constant {w v : Word} {rd : Reg} {value : Word} (h : Word.loadedConstant? w v = some (rd, value)) :
    Row ("li" ++ 0x20 :: (rd.name ++ followers [.token ("0x" ++ (Text.hexShort value.toNat).map Text.upperByte)]))
      [w, v] := by
  have hdigits : Text.natural 16 0xFFFFFFFF ((Text.hexShort value.toNat).map Text.upperByte) = .ok value.toNat :=
    Text.natural_hexShort_upper (by have := value.isLt; omega)
  have hname : Token "li" := ⟨by decide, by decide +kernel⟩
  have hli : Mnemonic.ofText? "li" = some (.pseudo .li) := by decide +kernel
  obtain ⟨hw, hv⟩ := Word.loadedConstant?_eq_some h
  refine row_written (w := .token rd.name) hname hli (fun t ht => ?_) rfl fun x => ?_
  · rcases List.mem_cons.mp ht with rfl | ht
    · exact Source.name_token rd
    · rw [List.mem_singleton.mp ht]
      exact hex_token hdigits
  · refine ⟨[{ op := .lui, rd, imm := value.high.setWidth 32 },
      { op := .addi, rd, rs1 := rd, imm := value.low.signExtend 32 }], ?_, by rw [← hw, ← hv]; rfl⟩
    rw [Context.expand, hli]
    simp [Context.expandPseudo, Written.words, register_name, literal_hex hdigits, bind, Except.bind, pure, Except.pure]

/-- Rows that spell words: each stands for the next of them, or is blank. -/
inductive Spells : List Text → List Word → Prop
  | nil : Spells [] []
  | remark {r : Text} {rows : List Text} {ws : List Word} (hr : 0x0A ∉ r ∧ 0x0D ∉ r) (h : Spells rows ws) :
      Spells ((0x20 :: 0x23 :: r) :: rows) ws
  | row {row : Text} {rows : List Text} {ws ws' : List Word} (hrow : Row row ws) (h : Spells rows ws') :
      Spells (row :: rows) (ws ++ ws')

/-- What a row shows behind address and word. -/
theorem drop_margin (pc w : Word) (r : Text) : (Word.rowHead pc w ++ "    " ++ r).drop 22 = r := by
  have hdrop := congrArg (List.drop 4) (Word.drop_rowHead pc w ("    " ++ r))
  rw [List.drop_drop, ← List.append_assoc] at hdrop
  exact hdrop

theorem drop_constantRow (pc w : Word) (name digits : Text) :
    (Word.rowHead pc w ++ "    li " ++ name ++ ", 0x" ++ digits).drop 22 =
      "li" ++ 0x20 :: (name ++ followers [.token ("0x" ++ digits)]) := by
  have hli : Text.ofString "    li " = Text.ofString "    " ++ (Text.ofString "li" ++ [0x20]) := by decide
  have hcomma : Text.ofString ", 0x" = 0x2C :: 0x20 :: Text.ofString "0x" := by decide
  rw [← drop_margin pc w (_ ++ 0x20 :: _), hli, hcomma]
  simp [followers, Written.text]

theorem drop_remarkRow (pc w : Word) (r : Text) :
    (Word.rowHead pc w ++ "     # (" ++ r ++ ")").drop 22 = 0x20 :: 0x23 :: 0x20 :: 0x28 :: (r ++ [0x29]) := by
  have hopen : Text.ofString "     # (" = Text.ofString "    " ++ [0x20, 0x23, 0x20, 0x28] := by decide
  have hclose : Text.ofString ")" = [0x29] := by decide
  rw [← drop_margin pc w (0x20 :: _), hopen, hclose]
  simp

/-- A disassembly, without its addresses and words, spells the words it was made of. -/
theorem disassemble_spells {words : List Word}
    (h : ∀ w ∈ words, ∃ i, Instruction.ofWord? w = some i ∧ i.IsStraight) (pc : Word) :
    Spells ((Word.disassemble pc words).map (List.drop 22)) words := by
  have row : ∀ w ∈ words, ∀ pc, Row (Word.render w pc) [w] := by
    intro w hw pc
    obtain ⟨i, hi, hs⟩ := h w hw
    exact row_render hi hs pc
  clear h
  fun_induction Word.disassemble pc words with
  | case1 pc => exact .nil
  | case2 pc w =>
    rw [List.map_singleton, drop_margin]
    exact .row (row w List.mem_cons_self pc) .nil
  | case3 pc w v r rd value hload ih =>
    have hv := (row v (List.mem_cons_of_mem _ List.mem_cons_self) (pc + 4)).oneLine
    have rest := ih fun w' hw' => row w' (List.mem_cons_of_mem _ (List.mem_cons_of_mem _ hw'))
    -- the first row stands for both words, and the second is nothing but a comment
    rw [List.map_cons, List.map_cons, drop_constantRow, drop_remarkRow]
    exact .row (row_constant hload) (.remark (by simpa using hv) rest)
  | case4 pc w v r hload ih =>
    rw [List.map_cons, drop_margin]
    exact .row (row w List.mem_cons_self pc) (ih fun w' hw' => row w' (List.mem_cons_of_mem _ hw'))

/-! ## Rows assembled -/

theorem Spells.oneLine {rows : List Text} {ws : List Word} (h : Spells rows ws) :
    ∀ row ∈ rows, 0x0A ∉ row ∧ 0x0D ∉ row := by
  induction h with
  | nil => simp
  | remark hr _ ih => simpa using ⟨hr, ih⟩
  | row hrow _ ih => simpa using ⟨hrow.oneLine, ih⟩

theorem Spells.directive? {rows : List Text} {ws : List Word} (h : Spells rows ws) (n : Nat) :
    ∀ l ∈ Line.numbered n rows, l.directive? = none := by
  induction h generalizing n with
  | nil => simp [Line.numbered]
  | @remark r rows ws hr h ih =>
    intro l hl
    rcases List.mem_cons.mp hl with rfl | hl
    · rw [Line.directive?, Line.statement_of_isBlank (Source.ofRaw_comment n r)]
      rfl
    · exact ih (n + 1) l hl
  | row hrow h ih =>
    intro l hl
    rcases List.mem_cons.mp hl with rfl | hl
    · exact Line.directive?_of_isInstruction (hrow.standsFor n).instruction
    · exact ih (n + 1) l hl

theorem StandsFor.step {l : Line} {ws : List Word} (h : StandsFor l ws) {y : Layout}
    (hfit : y.pc + 4 * ws.length ≤ addressSpace) :
    y.step l = .ok { y with pc := y.pc + 4 * ws.length, placements := y.placements ++ [⟨l, y.address⟩] } := by
  rw [Layout.step_eq, Layout.labelled, h.label]
  show y.body l l.statement.body = _
  rw [Layout.body_of_isInstruction y h.instruction h.named, h.width, if_pos hfit]

/-- Rows that spell words find a place for all of them. -/
theorem Spells.place {rows : List Text} {ws : List Word} (h : Spells rows ws) (n : Nat) {y : Layout}
    (hfit : y.pc + 4 * ws.length ≤ addressSpace) : ∃ y', y.place (Line.numbered n rows) = (y', none) := by
  induction h generalizing n y with
  | nil => exact ⟨y, rfl⟩
  | @remark r rows ws hr h ih =>
    obtain ⟨y', hy⟩ := ih (n + 1) hfit
    refine ⟨y', ?_⟩
    simp only [Line.numbered, Layout.place, Layout.step, Source.ofRaw_comment, if_true]
    exact hy
  | @row row rows ws ws' hrow h ih =>
    rw [List.length_append] at hfit
    have hstep := (hrow.standsFor n).step (y := y) (by omega)
    obtain ⟨y', hy⟩ := ih (n + 1)
      (y := { y with pc := y.pc + 4 * ws.length, placements := y.placements ++ [⟨_, y.address⟩] })
      (by show y.pc + 4 * ws.length + _ ≤ _; omega)
    refine ⟨y', ?_⟩
    simp only [Line.numbered, Layout.place, hstep]
    exact hy

/-- Placed rows that spell words are encoded to them, without an error. -/
theorem Spells.encoded {rows : List Text} {ws : List Word} (h : Spells rows ws) (n pc : Nat) (o : Options)
    (symbols : SymbolTable) :
    let ps := along placedOn pc (Line.numbered n rows)
    (∀ p ∈ ps, 0x25 ∉ p.line.text ∧ ∃ is, (attempt o symbols p).outcome = .ok is) ∧
      (ps.map (attempt o symbols)).flatMap Attempt.words = ws := by
  induction h generalizing n pc with
  | nil => simp [Line.numbered, along]
  | @remark r rows ws hr h ih =>
    have hnone : (Line.ofRaw n (0x20 :: 0x23 :: r)).isInstruction = false := by
      rw [Line.isInstruction, Line.statement_of_isBlank (Source.ofRaw_comment n r)]
      rfl
    simp only [Line.numbered, along, placedOn, hnone, Bool.false_eq_true, if_false, List.nil_append]
    exact ih (n + 1) _
  | @row row rows ws ws' hrow h ih =>
    have hl := hrow.standsFor n
    rw [Line.numbered]
    generalize Line.ofRaw n row = l at hl ⊢
    obtain ⟨is, his, hws⟩ := hl.encoded ⟨symbols, o.positionIndependent, BitVec.ofNat 32 pc⟩
    obtain ⟨hok, hrest⟩ := ih (n + 1) (pc + l.extent)
    simp only [along, placedOn, hl.instruction, if_true, List.singleton_append, List.map_cons]
    refine ⟨fun p hp => ?_, ?_⟩
    · rcases List.mem_cons.mp hp with rfl | hp
      · exact ⟨hl.noCall, is, his⟩
      · exact hok p hp
    · have hwords : (attempt o symbols ⟨l, BitVec.ofNat 32 pc⟩).words = ws := (Attempt.words_of_ok his).trans hws
      rw [List.flatMap_cons, hrest, hwords]

/-! ## The source of a disassembly -/

/-- Rows as a text segment, at the base that `digits` write. -/
def textSource (digits : Text) (rows : List Text) : Text :=
  Text.unlines (".section .text" :: (".org 0x" ++ digits) :: rows)

/-- A base that is a multiple of four is taken as it is written. -/
theorem org_line (number : Nat) {digits : Text} {base : Word} (h : Text.natural 16 0xFFFFFFFF digits = .ok base.toNat)
    (hbase : base.toNat % 4 = 0) :
    let l := Line.ofRaw number (".org 0x" ++ digits)
    l.directive? = some (".org" : Text) ∧ l.statement.label = [] ∧
      Sections.orgAddress l = .ok (base.toNat, base.toNat) := by
  have hparts : Text.ofString ".org 0x" ++ digits = Text.join " " [(".org" : Text), "0x" ++ digits] := by
    have hspace : Text.ofString ".org 0x" = Text.ofString ".org" ++ 0x20 :: Text.ofString "0x" := by decide
    rw [Text.join_space_cons, Text.join, List.intercalate_singleton, hspace, List.append_assoc, List.cons_append]
  have hdotted : ∀ w ∈ [(".org" : Text), "0x" ++ digits], Source.Dotted w := by
    intro w hw
    rcases List.mem_cons.mp hw with rfl | hw
    · exact ⟨by decide, by decide +kernel⟩
    · rw [List.mem_singleton.mp hw]
      exact (hex_token h).dotted
  have hstatement := Line.ofWords_statement number hdotted
  have hwords := Line.ofWords_words number hdotted
  obtain ⟨d, r, hdr⟩ := List.exists_cons_of_ne_nil (Text.natural_ne_nil h)
  have hround : (base.toNat + 3) / 4 * 4 = base.toNat := by omega
  have hlt := base.isLt
  rw [hparts, Source.ofRaw_directive number rfl hdotted]
  refine ⟨?_, by rw [hstatement], ?_⟩
  · rw [Line.directive?, hstatement, Line.ofWords, Text.join_space_cons]
    rfl
  · rw [Sections.orgAddress, hwords]
    simp only [Source.hexDigits?_hex]
    rw [hdr] at h ⊢
    simp only [h, hround]
    rw [if_pos (by omega)]

section Segment

variable {rows : List Text} {ws : List Word} {digits : Text} {base : Word} (h : Spells rows ws)
  (hdigits : Text.natural 16 0xFFFFFFFF digits = .ok base.toNat) (hbase : base.toNat % 4 = 0)

include h hdigits

theorem Spells.ofSource : Line.ofSource (textSource digits rows) =
    Line.numbered 1 [".section .text"] ++ Line.ofRaw 2 (".org 0x" ++ digits) :: Line.numbered 3 rows := by
  have hdigit : ∀ b ∈ digits, Text.isAlnumByte b = true := Source.natural_alnum hdigits
  have horg : ∀ b ∈ Text.ofString ".org 0x" ++ digits, b ≠ 0x0A ∧ b ≠ 0x0D := by
    intro b hb
    rcases List.mem_append.mp hb with hb | hb
    · have head : ∀ b ∈ Text.ofString ".org 0x", b ≠ 0x0A ∧ b ≠ 0x0D := by decide +kernel
      exact head b hb
    · have hb := hdigit b hb
      exact ⟨by rintro rfl; exact absurd hb (by decide), by rintro rfl; exact absurd hb (by decide)⟩
  rw [Line.ofSource, textSource, Source.rawLines_unlines]
  · rfl
  · intro row hrow
    rcases List.mem_cons.mp hrow with rfl | hrow
    · decide
    · rcases List.mem_cons.mp hrow with rfl | hrow
      · exact ⟨fun hb => (horg _ hb).1 rfl, fun hb => (horg _ hb).2 rfl⟩
      · exact h.oneLine row hrow

theorem Spells.ofSource_length : (Line.ofSource (textSource digits rows)).length = 2 + rows.length := by
  rw [h.ofSource hdigits, List.length_append, List.length_cons, Line.numbered_length, Line.numbered_length,
    List.length_singleton]
  omega

include hbase

theorem Spells.sections :
    (Sections.ofLines (Line.ofSource (textSource digits rows))).2 = .ok ⟨none, ⟨base, 2, 2 + rows.length⟩⟩ := by
  obtain ⟨hd, hl, ha⟩ := org_line 2 hdigits hbase
  have hsection : Sections.scan {} 0 (Line.numbered 1 [".section .text"]) =
      ({ stage := .awaitingOrg .text 1, text := some {} }, none) := by decide +kernel
  have hscan := Sections.scan_org hsection rfl hd ha (Line.numbered 3 rows)
  have hordinary : ∀ l ∈ Line.numbered 3 rows, l.isOrdinary = true := fun l hl =>
    Line.isOrdinary_of_none (h.directive? 3 l hl)
  rw [if_neg (not_not_intro hl), Sections.scan_ordinary rfl _ hordinary, ← h.ofSource hdigits] at hscan
  rw [Sections.ofLines, hscan]
  simp [Sections.finish, Sections.Scan.withBase, h.ofSource_length hdigits]

/-- A source that spells words is laid out, one row behind the other. -/
theorem Spells.stages (hfit : base.toNat + 4 * ws.length ≤ addressSpace) :
    ∃ y, Stages.ofSource (textSource digits rows) = .ok ⟨⟨none, ⟨base, 2, 2 + rows.length⟩⟩, none, y⟩ ∧
      y.placements = along placedOn base.toNat (Line.numbered 3 rows) := by
  obtain ⟨y, hy⟩ := h.place 3 (y := { pc := base.toNat, symbols := .empty }) hfit
  have hlines : Region.lines ⟨base, 2, 2 + rows.length⟩ (Line.ofSource (textSource digits rows)) =
      Line.numbered 3 rows := by
    rw [Region.lines, List.take_of_length_le (h.ofSource_length hdigits).le, h.ofSource hdigits]
    rfl
  refine ⟨y, ?_, (Layout.place_ok hy).placements⟩
  simp only [Stages.ofSource, h.sections hdigits hbase, dataStage, layoutStage, hlines, dataLabels, Layout.ofLines, hy]

/-- A source that spells words is assembled to them. -/
theorem Spells.assembled (hfit : base.toNat + 4 * ws.length ≤ addressSpace) (o : Options) :
    ∃ r, (assemble o (textSource digits rows)).outcome = .ok r ∧ r.errors = [] ∧ r.text = some (.ofText base ws) := by
  obtain ⟨y, hstages, hplaced⟩ := h.stages hdigits hbase hfit
  obtain ⟨hok, hencoded⟩ := h.encoded 3 base.toNat o y.symbols
  rw [← hplaced] at hok hencoded
  let s : Stages := ⟨⟨none, ⟨base, 2, 2 + rows.length⟩⟩, none, y⟩
  have hattempts : s.attempts o = y.placements.map (attempt o y.symbols) := by
    rw [Stages.attempts, Stages.expanded, Relocation.expandAll_of_not_mem _ _ fun p hp => (hok p hp).1]
  have herrors : s.errors o = [] := by
    refine List.filterMap_eq_nil_iff.mpr fun a ha => ?_
    rw [hattempts] at ha
    obtain ⟨p, hp, rfl⟩ := List.mem_map.mp ha
    obtain ⟨is, his⟩ := (hok p hp).2
    simp only [Attempt.error?, his]
  refine ⟨s.result o (textSource digits rows), ?_, herrors, ?_⟩
  · rw [assemble_eq, hstages]
    rfl
  · simp only [Stages.result, herrors, Stages.words, hattempts, hencoded]
    rfl

end Segment

/-- A disassembly without branches and jumps is a source of the words it shows. -/
theorem disassembly_reassembles (o : Options) (base : Word) (words : List Word) (digits : Text)
    (hbase : base.toNat % 4 = 0) (hfit : base.toNat + 4 * words.length ≤ addressSpace)
    (hwords : ∀ w ∈ words, ∃ i ∈ Instruction.ofWord? w, i.IsStraight)
    (hdigits : Text.natural 16 0xFFFFFFFF digits = .ok base.toNat) :
    ∃ r, (assemble o (textSource digits ((Word.disassemble base words).map (List.drop 22)))).outcome = .ok r ∧
      r.errors = [] ∧ r.text = some (.ofText base words) :=
  (disassemble_spells hwords base).assembled hdigits hbase hfit o

/-- Up to the top of the address space: of two upper loads only the second goes with the addition behind it, and a pair
that loads nothing is folded too. -/
theorem disassembly_reassembles_top :
    let words : List Word :=
      [0x123452B7, 0x800002B7, 0xFFF28293, 0xFFFFF037, 0x80000013, 0xFFC12503, 0x80A42023]
    let source := Text.unlines [".section .text", ".org 0xFFFFFFE4", "lui t0, 0x12345", "li t0, 0x7FFFFFFF",
      " # (addi t0, t0, -1)", "li zero, 0xFFFFE800", " # (addi zero, zero, -2048)", "lw a0, -4(sp)", "sw a0, -2048(s0)"]
    textSource "FFFFFFE4" ((Word.disassemble 0xFFFFFFE4 words).map (List.drop 22)) = source ∧
      ∃ r, (assemble {} source).outcome = .ok r ∧ r.errors = [] ∧ r.text = some (.ofText 0xFFFFFFE4 words) := by
  intro words source
  have hsource : textSource "FFFFFFE4" ((Word.disassemble 0xFFFFFFE4 words).map (List.drop 22)) = source := by
    decide +kernel
  have hwords : words.all (fun w => decide (∃ i ∈ Instruction.ofWord? w, i.IsStraight)) = true := by decide +kernel
  refine ⟨hsource, ?_⟩
  rw [← hsource]
  exact disassembly_reassembles {} 0xFFFFFFE4 words "FFFFFFE4" (by decide) (by decide)
    (fun w hw => of_decide_eq_true (List.all_eq_true.mp hwords w hw)) (Source.toOption_eq_some (by decide +kernel))

end Assembly

end Rv32Tools
