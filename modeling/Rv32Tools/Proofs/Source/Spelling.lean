import Rv32Tools.Proofs.Source.Operands

/-
  Rv32Tools.Proofs.Source.Spelling — an instruction is read the same however it is spelled.

  An instruction is a label or none, a mnemonic and operands (`InstructionForm`). Its parts may be laid out over a line
  with any blanks between them, as long as the label and the mnemonic are parted from what follows, and with any comment
  behind them. What is read is always the mnemonic and the words of the operands with single spaces between them, behind
  the label.

  The line is read in passes, and each pass keeps the parts: the comment goes and blanks are made single (`Layout`), the
  label is taken off (`ofCode_parts`), blanks are taken out of calls, and the rest is cut at the commas
  (`allOperandWords_parts`).
-/

namespace Rv32Tools.Source

/-! ## Parts of a line -/

/-- A text that is a column wherever it stands, and shows at both ends. -/
structure Visible (s : Text) : Prop extends Column s, Shows s

theorem visible_of_plain {s : Text} (hne : s ≠ []) (h : ∀ b ∈ s, isPlain b = true ∧ b ≠ 0x23) : Visible s where
  toColumn := column_of_noQuote hne fun b hb =>
    ⟨isPlain_not_isQuoteMark (h b hb).1, (isPlain_not_blank (h b hb).1).1, (h b hb).2⟩
  toShows := shows_of_plain hne fun b hb => (h b hb).1

theorem visible_byte {b : UInt8} (h : isPlain b = true ∧ b ≠ 0x23) : Visible [b] := by
  refine visible_of_plain (List.cons_ne_nil _ _) fun c hc => ?_
  rwa [List.mem_singleton.mp hc]

theorem Token.visible {t : Text} (h : Token t) : Visible t := visible_of_plain h.ne_nil h.plain

theorem token_of_word {s : Text} (hne : s ≠ []) (h : ∀ b ∈ s, Text.isWordByte b = true) : Token s :=
  ⟨hne, fun b hb => by rw [isTokenByte, h b hb]; rfl⟩

theorem Term.visible (t : Term) : ∀ part ∈ t.parts, Visible part.text := by
  cases t with
  | token t h =>
    intro part hpart
    rw [List.mem_singleton.mp hpart]
    exact h.visible
  | call name argument h =>
    have hname : Visible (0x25 :: name) := by
      refine visible_of_plain (List.cons_ne_nil _ _) fun b hb => ?_
      rcases List.mem_cons.mp hb with rfl | hb
      · decide
      · exact (token_of_word h.name_ne h.name_bytes).plain b hb
    intro part hpart
    simp only [parts, List.mem_cons, List.not_mem_nil, or_false] at hpart
    rcases hpart with rfl | rfl | rfl | rfl
    · exact hname
    · exact visible_byte (by decide)
    · exact h.argument.visible
    · exact visible_byte (by decide)

theorem Form.visible (f : Form) : ∀ part ∈ f.parts, Visible part.text := by
  cases f with
  | term t => exact t.visible
  | character c =>
    intro part hpart
    rw [List.mem_singleton.mp hpart]
    exact ⟨c.column, c.shows⟩
  | indexed offset reg h =>
    intro part hpart
    rcases List.mem_append.mp hpart with hpart | hpart
    · cases offset with
      | none => cases hpart
      | some t => exact t.visible part hpart
    · simp only [List.mem_cons, List.not_mem_nil, or_false] at hpart
      rcases hpart with rfl | rfl | rfl
      · exact visible_byte (by decide)
      · exact h.token.visible
      · exact visible_byte (by decide)

theorem Form.parts_ne_nil (f : Form) : f.parts ≠ [] := by
  cases f with
  | term t => cases t <;> exact List.cons_ne_nil _ _
  | indexed offset reg h => exact List.append_ne_nil_of_right_ne_nil _ (List.cons_ne_nil _ _)
  | character c => exact List.cons_ne_nil _ _

/-! ## Instructions -/

/-- The parts of operands, with a comma between each two. -/
def operandParts (fs : List Form) : List Part := List.intercalate [.free [0x2C]] (fs.map Form.parts)

theorem operandParts_cons (f g : Form) (fs : List Form) :
    operandParts (f :: g :: fs) = f.parts ++ .free [0x2C] :: operandParts (g :: fs) := by
  rw [operandParts, List.map_cons, List.map_cons, List.intercalate_cons_cons, List.append_assoc]
  rfl

theorem operandParts_singleton (f : Form) : operandParts [f] = f.parts := by
  rw [operandParts, List.map_singleton, List.intercalate_singleton]

theorem operandParts_ne_nil (f : Form) (fs : List Form) : operandParts (f :: fs) ≠ [] := by
  cases fs with
  | nil =>
    rw [operandParts_singleton]
    exact f.parts_ne_nil
  | cons g fs =>
    rw [operandParts_cons]
    exact List.append_ne_nil_of_right_ne_nil _ (List.cons_ne_nil _ _)

theorem operandParts_visible (fs : List Form) : ∀ part ∈ operandParts fs, Visible part.text := by
  induction fs with
  | nil => exact fun _ hpart => absurd hpart List.not_mem_nil
  | cons f fs ih =>
    cases fs with
    | nil =>
      rw [operandParts_singleton]
      exact f.visible
    | cons g fs =>
      rw [operandParts_cons]
      intro part hpart
      rcases List.mem_append.mp hpart with hpart | hpart
      · exact f.visible part hpart
      · rcases List.mem_cons.mp hpart with rfl | hpart
        · exact visible_byte (by decide)
        · exact ih part hpart

/-- A label, which may be empty, a mnemonic and operands. -/
structure InstructionForm where
  label : Text
  mnemonic : Text
  operands : List Form
  label_bytes : ∀ b ∈ label, Text.isWordByte b = true
  mnemonic_ne : mnemonic ≠ []
  mnemonic_bytes : ∀ b ∈ mnemonic, Text.isWordByte b = true

namespace InstructionForm

variable (i : InstructionForm)

/-- The parts of the mnemonic and the operands. -/
def bodyParts : List Part := ⟨i.mnemonic, true⟩ :: operandParts i.operands

/-- The parts of a line with the instruction. Blanks have to stand behind a label and before the first operand. -/
def parts : List Part := (labelColumns i.label).map (⟨·, true⟩) ++ i.bodyParts

/-- The instruction in one spelling. -/
def text : Text := labelled i.label (Text.join " " (i.mnemonic :: i.operands.flatMap Form.words))

theorem mnemonic_token : Token i.mnemonic := token_of_word i.mnemonic_ne i.mnemonic_bytes

theorem bodyParts_visible : ∀ part ∈ i.bodyParts, Visible part.text := by
  intro part hpart
  rcases List.mem_cons.mp hpart with rfl | hpart
  · exact i.mnemonic_token.visible
  · exact operandParts_visible i.operands part hpart

theorem parts_visible : ∀ part ∈ i.parts, Visible part.text := by
  intro part hpart
  rcases List.mem_append.mp hpart with hpart | hpart
  · obtain ⟨c, hc, rfl⟩ := List.mem_map.mp hpart
    obtain ⟨hne, hbytes⟩ := labelColumns_bytes i.label_bytes c hc
    refine ⟨column_of_noQuote hne hbytes, ?_⟩
    -- a colon is visible, but no plain byte
    unfold labelColumns at hc
    split at hc
    · cases hc
    · rename_i hlabel
      obtain rfl := List.mem_singleton.mp hc
      obtain ⟨b, r, hb⟩ := List.exists_cons_of_ne_nil (show i.label ≠ [] by simpa using hlabel)
      have hword : Text.isWordByte b = true := i.label_bytes b (hb ▸ List.mem_cons_self)
      exact ⟨⟨b, by rw [hb]; rfl, isPlain_isGraphic (isPlain_of_isWordByte hword)⟩, 0x3A, List.getLast?_concat, by decide⟩
  · exact i.bodyParts_visible part hpart

end InstructionForm

/-! ## Operands of a line -/

/-- Behind a part that has to be parted stands one space. -/
theorem Laid.parted {c : Text} {parts : List Part} {s : Text} (hne : parts ≠ []) (h : Laid Narrow (⟨c, true⟩ :: parts) s) :
    ∃ t, s = c ++ 0x20 :: t ∧ Laid Narrow parts t := by
  obtain ⟨gap, t, rfl, hgap, hparted, ht⟩ := h.tail hne
  rcases hgap with rfl | rfl
  · exact absurd rfl (hparted rfl)
  · exact ⟨t, rfl, ht⟩

/-- Operands are cut at the commas between them, and read one after the other. -/
theorem allOperandWords_parts {f : Form} {fs : List Form} {t front : Text} (h : Laid Gap (operandParts (f :: fs)) t)
    (hfront : Gap front) :
    Line.allOperandWords (splitOperands (front ++ tightenCalls t)) = .ok ((f :: fs).flatMap Form.words) := by
  -- the blanks behind a comma stand in front of the next operand, so `front` goes along with the induction
  induction fs generalizing f t front with
  | nil =>
    rw [operandParts_singleton] at h
    obtain ⟨v, htight, hreads⟩ := Form.reads h
    have hwords := hreads.words hfront Gap.nil
    rw [List.append_nil] at hwords
    rw [htight.eq, (hfront.level.append hreads.level).splitOperands]
    simp only [Line.allOperandWords, hwords, List.append_nil, List.flatMap_cons, List.flatMap_nil]
  | cons g fs ih =>
    rw [operandParts_cons] at h
    obtain ⟨u, gap, r, rfl, hu, hgap, hr⟩ := h.append f.parts_ne_nil (List.cons_ne_nil _ _)
    obtain ⟨gap', t, rfl, hgap', -, ht⟩ := hr.tail (operandParts_ne_nil g fs)
    obtain ⟨v, htight, hreads⟩ := Form.reads hu
    have hpercent : 0x25 ∉ gap ++ 0x2C :: gap' := by
      simp [hgap.not_mem (b := 0x25) (by decide), hgap'.not_mem (b := 0x25) (by decide)]
    have hcode : front ++ tightenCalls (u ++ (gap ++ ((Part.free [0x2C]).text ++ (gap' ++ t)))) =
        (front ++ (v ++ gap)) ++ 0x2C :: (gap' ++ tightenCalls t) := by
      have hsplit : gap ++ ((Part.free [0x2C]).text ++ (gap' ++ t)) = (gap ++ 0x2C :: gap') ++ t := by simp [Part.free]
      rw [htight, hsplit, tightenCalls_append hpercent]
      simp
    rw [hcode, (hfront.level.append (hreads.level.append hgap.level)).splitOperands_comma]
    simp only [Line.allOperandWords, hreads.words hfront hgap, ih ht hgap', List.flatMap_cons]

namespace InstructionForm

variable {i : InstructionForm}

/-- The body of a line starts with the mnemonic, up to the end or the first space. -/
theorem body_cases {body : Text} (h : Laid Narrow i.bodyParts body) :
    (i.operands = [] ∧ body = i.mnemonic) ∨
      ∃ f fs t, i.operands = f :: fs ∧ body = i.mnemonic ++ 0x20 :: t ∧ Laid Narrow (operandParts (f :: fs)) t := by
  unfold bodyParts at h
  cases hoperands : i.operands with
  | nil =>
    rw [hoperands] at h
    left
    cases h with
    | last => exact ⟨rfl, rfl⟩
    | cons _ _ h => cases h
  | cons f fs =>
    rw [hoperands] at h
    obtain ⟨t, rfl, ht⟩ := h.parted (operandParts_ne_nil f fs)
    exact Or.inr ⟨f, fs, t, rfl, rfl, ht⟩

theorem instructionWords_parts {body : Text} (h : Laid Narrow i.bodyParts body) :
    Line.instructionWords body = .ok (i.mnemonic :: i.operands.flatMap Form.words) := by
  have hname := i.mnemonic_token
  have hpercent : 0x25 ∉ i.mnemonic := hname.not_mem (by decide)
  have hfirst : ∀ b ∈ i.mnemonic, (b != 0x20) = true := by
    intro b hb
    rw [bne_iff_ne]
    exact isTokenByte_ne (hname.bytes b hb) (by decide)
  rcases body_cases h with ⟨hoperands, rfl⟩ | ⟨f, fs, t, hoperands, rfl, ht⟩
  · have htight : tightenCalls i.mnemonic = i.mnemonic := (tightens_of_not_mem hpercent).eq
    simp only [Line.instructionWords, htight, List.takeWhile_eq_self_iff.mpr hfirst, List.dropWhile_eq_nil_iff.mpr hfirst,
      hoperands, List.flatMap_nil]
  · obtain ⟨htake, hdrop⟩ := takeWhile_append_cons hfirst 0x20 (by decide) (tightenCalls t)
    have hwords := allOperandWords_parts (ht.mono fun _ => Narrow.gap) Gap.nil
    rw [List.nil_append] at hwords
    simp only [Line.instructionWords, tightenCalls_append hpercent, tightenCalls_cons (show (0x20 : UInt8) ≠ 0x25 by decide),
      htake, hdrop, hwords, hoperands]

/-- What stands before the first blank of a body is its mnemonic, which is no label. -/
theorem isLabelled_body {body : Text} (h : Laid Narrow i.bodyParts body) : isLabelled body = false := by
  have hfirst : ∀ b ∈ i.mnemonic, (!Text.isGap b) = true := fun b hb =>
    isPlain_not_isGap (i.mnemonic_token.plain b hb).1
  have htake : body.takeWhile (!Text.isGap ·) = i.mnemonic := by
    rcases body_cases h with ⟨-, rfl⟩ | ⟨f, fs, t, -, rfl, -⟩
    · exact List.takeWhile_eq_self_iff.mpr hfirst
    · exact (takeWhile_append_cons hfirst 0x20 (by decide) t).1
  have hcolon : Text.endsWith ":" i.mnemonic = false := by
    rw [Bool.eq_false_iff, ne_eq, endsWith_colon]
    intro hlast
    exact i.mnemonic_token.not_mem (by decide) (List.mem_of_getLast? hlast)
  rw [isLabelled, htake, hcolon, Bool.false_and]

/-- The label is taken off. -/
theorem ofCode_parts {code : Text} (h : Laid Narrow i.parts code) :
    ∃ body, code = labelled i.label body ∧ Statement.ofCode code = ⟨i.label, body⟩ ∧ Laid Narrow i.bodyParts body := by
  by_cases hlabel : i.label = []
  · have hbody : Laid Narrow i.bodyParts code := by
      rw [parts, labelColumns, hlabel] at h
      exact h
    refine ⟨code, by rw [labelled, hlabel]; rfl, ?_, hbody⟩
    rw [ofCode_unlabelled (isLabelled_body hbody), hlabel]
  · have hcolumns : labelColumns i.label = [i.label ++ [0x3A]] := by rw [labelColumns, if_neg (by simpa using hlabel)]
    rw [parts, hcolumns] at h
    obtain ⟨body, rfl, hbody⟩ := Laid.parted (List.cons_ne_nil _ _) h
    have hcode : (i.label ++ [0x3A]) ++ 0x20 :: body = labelled i.label body := by
      rw [labelled, if_neg (by simpa using hlabel), List.append_assoc, List.append_assoc]
      rfl
    have hshows : Shows body := hbody.shows fun part hpart => (i.bodyParts_visible part hpart).toShows
    have htrim : Text.trim (0x20 :: body) = body := by
      obtain ⟨⟨a, hfirst, ha⟩, b, hlast, hb⟩ := hshows
      exact Text.trim_space ha hb hfirst hlast
    exact ⟨body, hcode, by rw [hcode]; exact ofCode_label hlabel i.label_bytes htrim, hbody⟩

end InstructionForm

/-- An instruction is read as its words with single spaces between them, behind its label, whatever blanks its parts are
laid out with and whatever comment follows; and nothing is wrong with it. -/
theorem layout_insignificant (number : Nat) (i : InstructionForm) (indent s tail : Text) (remark : Option Text)
    (hindent : Gap indent) (h : Laid Gap i.parts s) (htail : Gap tail) :
    Line.ofRaw number (indent ++ (s ++ (tail ++ commentText remark))) =
      { number, text := i.text, comment := (remark.map Text.trim).getD [], fault := none } := by
  have hcolumns : ∀ part ∈ i.parts, Column part.text := fun part hpart => (i.parts_visible part hpart).toColumn
  obtain ⟨code, hsplit, hlaid⟩ := h.splitComment_collapse hcolumns hindent htail remark
  obtain ⟨body, hcode, hstatement, hbody⟩ := InstructionForm.ofCode_parts hlaid
  have hwords := InstructionForm.instructionWords_parts hbody
  obtain ⟨b, r, rfl, hdot⟩ : ∃ b r, body = b :: r ∧ b ≠ 0x2E := by
    obtain ⟨b, r, hb⟩ := List.exists_cons_of_ne_nil i.mnemonic_ne
    have hdot : b ≠ 0x2E := isTokenByte_ne (i.mnemonic_token.bytes b (hb ▸ List.mem_cons_self)) (by decide)
    rcases InstructionForm.body_cases hbody with ⟨-, rfl⟩ | ⟨f, fs, t, -, rfl, -⟩
    · exact ⟨b, r, hb, hdot⟩
    · exact ⟨b, r ++ 0x20 :: t, by rw [hb, List.cons_append], hdot⟩
  have hempty : (collapse code).isEmpty = false := by
    rw [hcode, labelled]
    split <;> simp
  simp only [Line.ofRaw, hsplit, hstatement, hwords, hempty]
  simp [hdot, InstructionForm.text, labelled]

/-- `loop: sb ',', %lo(x)(A0)`. -/
def storeForm : InstructionForm where
  label := "loop"
  mnemonic := "sb"
  operands := [
    .character (.visible 0x2C (by decide)),
    .indexed (some (.call "lo" "x"
      ⟨List.cons_ne_nil _ _, List.all_eq_true.mp rfl, List.cons_ne_nil _ _, List.all_eq_true.mp rfl⟩)) "A0"
      ⟨List.all_eq_true.mp rfl, by decide +kernel⟩]
  label_bytes := List.all_eq_true.mp rfl
  mnemonic_ne := List.cons_ne_nil _ _
  mnemonic_bytes := List.all_eq_true.mp rfl

theorem layout_insignificant_store :
    Line.ofRaw 7 "\tloop: \tsb ',',%lo (x ) (\tA0) # store" =
      { number := 7, text := "loop: sb 0x2C A0 %lo(x)", comment := "store" } := by
  have hlaid : Laid Gap storeForm.parts ("loop:" ++ (" \t" ++ ("sb" ++ (" " ++ ("','" ++ ("" ++ ("," ++ ("" ++ ("%lo" ++
      (" " ++ ("(" ++ ("" ++ ("x" ++ (" " ++ (")" ++ (" " ++ ("(" ++ ("\t" ++ ("A0" ++ ("" ++ ")")))))))))))))))))))) := by
    repeat refine .cons (List.all_eq_true.mp rfl) (by decide) ?_
    exact .last
  have hread := layout_insignificant 7 storeForm "\t" _ " " (some " store") (List.all_eq_true.mp rfl) hlaid
    (List.all_eq_true.mp rfl)
  exact hread

end Rv32Tools.Source
