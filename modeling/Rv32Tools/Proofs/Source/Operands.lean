import Rv32Tools.Proofs.Source.Calls
import Rv32Tools.Proofs.Source.Layout
import Rv32Tools.Proofs.Source.Spans
import Rv32Tools.Proofs.Text.Digits

/-
  Rv32Tools.Proofs.Source.Operands — the forms of an operand, and the words they come to.

  An operand is a name, a number or a call (`Term`), a register in parentheses with or without a term before it, or a
  character between quotes (`Character`). Each form has its parts, between which blanks may stand (`Form.parts`), and the
  words it is read as (`Form.words`). Taking the blanks out of calls leaves an operand that is cut from its neighbours at
  the commas around it, and that is read as its words whatever blanks stand at its ends (`Form.reads`).
-/

namespace Rv32Tools.Source

/-! ## Forms -/

/-- A name or a number, or a call with one of them in its parentheses. -/
inductive Term where
  | token (text : Text) (h : Token text)
  | call (name argument : Text) (h : IsTight name argument)

namespace Term

/-- The term without blanks. -/
def text : Term → Text
  | .token t _ => t
  | .call name argument _ => callText name argument

def parts : Term → List Part
  | .token t _ => [.free t]
  | .call name argument _ => [.free (0x25 :: name), .free [0x28], .free argument, .free [0x29]]

end Term

/-- The letters of escapes, each with the byte that it stands for. -/
def escapes : List (UInt8 × UInt8) :=
  [(0x6E, 0x0A), (0x72, 0x0D), (0x74, 0x09), (0x5C, 0x5C), (0x27, 0x27), (0x22, 0x22)]

/-- What stands between the quotes of a character literal. -/
inductive Character where
  | empty
  | visible (b : UInt8) (h : 0x20 ≤ b ∧ b ≤ 0x7E ∧ b ≠ 0x27 ∧ b ≠ 0x5C)
  | escape (letter value : UInt8) (h : (letter, value) ∈ escapes)

namespace Character

def inner : Character → Text
  | .empty => []
  | .visible b _ => [b]
  | .escape letter _ _ => [0x5C, letter]

def value : Character → UInt8
  | .empty => 0
  | .visible b _ => b
  | .escape _ v _ => v

def text (c : Character) : Text := 0x27 :: (c.inner ++ [0x27])

/-- `0x` and two digits, in capitals. -/
def numeral (c : Character) : Text :=
  [0x30, 0x78, Text.digitByte true (c.value.toNat / 16), Text.digitByte true (c.value.toNat % 16)]

end Character

/-- Letters and digits that name a register. -/
structure IsRegister (reg : Text) : Prop where
  bytes : ∀ b ∈ reg, Text.isAlnumByte b = true
  named : (Reg.ofText? reg).isSome = true

theorem IsRegister.token {reg : Text} (h : IsRegister reg) : Token reg := by
  refine ⟨?_, fun b hb => isTokenByte_of_isAlnumByte (h.bytes b hb)⟩
  rintro rfl
  exact absurd h.named (by decide +kernel)

/-- An operand. -/
inductive Form where
  | term (t : Term)
  | indexed (offset : Option Term) (reg : Text) (h : IsRegister reg)
  | character (c : Character)

namespace Form

def parts : Form → List Part
  | .term t => t.parts
  | .indexed offset reg _ => (offset.map Term.parts).getD [] ++ [.free [0x28], .free reg, .free [0x29]]
  | .character c => [.free c.text]

/-- The words that an operand is read as. -/
def words : Form → List Text
  | .term t => [t.text]
  | .indexed offset reg _ => [reg, (offset.map Term.text).getD "0"]
  | .character c => [c.numeral]

end Form

/-! ## Ends and blanks -/

/-- A text that begins and ends with a visible byte. -/
structure Shows (s : Text) : Prop where
  first : ∃ a, s.head? = some a ∧ Text.isGraphic a = true
  last : ∃ b, s.getLast? = some b ∧ Text.isGraphic b = true

theorem Shows.trim {front s back : Text} (h : Shows s) (hfront : Gap front) (hback : Gap back) :
    Text.trim (front ++ (s ++ back)) = s := by
  obtain ⟨⟨a, hfirst, ha⟩, b, hlast, hb⟩ := h
  exact Text.trim_between (Text.allBlank_of_isGap hfront) (Text.allBlank_of_isGap hback) ha hb hfirst hlast

theorem shows_of_plain {s : Text} (hne : s ≠ []) (h : ∀ b ∈ s, isPlain b = true) : Shows s := by
  obtain ⟨a, ha⟩ : ∃ a, s.head? = some a := ⟨_, List.head?_eq_some_head hne⟩
  obtain ⟨b, hb⟩ : ∃ b, s.getLast? = some b := ⟨_, List.getLast?_eq_some_getLast hne⟩
  exact ⟨⟨a, ha, isPlain_isGraphic (h a (List.mem_of_head? ha))⟩, b, hb, isPlain_isGraphic (h b (List.mem_of_getLast? hb))⟩

theorem Shows.append {s t gap : Text} (hs : Shows s) (ht : Shows t) : Shows (s ++ (gap ++ t)) := by
  obtain ⟨a, hfirst, ha⟩ := hs.first
  obtain ⟨b, hlast, hb⟩ := ht.last
  refine ⟨⟨a, by rw [List.head?_append, hfirst, Option.some_or], ha⟩, b, ?_, hb⟩
  rw [← List.append_assoc, List.getLast?_append, hlast, Option.some_or]

theorem Laid.shows {G : Text → Prop} {parts : List Part} {s : Text} (h : Laid G parts s)
    (hparts : ∀ part ∈ parts, Shows part.text) : Shows s := by
  induction h with
  | last => exact hparts _ List.mem_cons_self
  | cons _ _ _ ih =>
    exact (hparts _ List.mem_cons_self).append (ih fun part hpart => hparts part (List.mem_cons_of_mem _ hpart))

theorem Gap.cases {gap : Text} (h : Gap gap) {b : UInt8} (hb : b ∈ gap) : b = 0x20 ∨ b = 0x09 := by
  simpa [Text.isGap] using h b hb

theorem Gap.isCallBlank {gap : Text} (h : Gap gap) : ∀ b ∈ gap, Text.isCallBlank b = true := by
  intro b hb
  rcases h.cases hb with rfl | rfl
  · decide
  · decide

theorem Gap.not_mem {gap : Text} (h : Gap gap) {b : UInt8} (hb : Text.isGap b = false) : b ∉ gap := by
  intro hmem
  rw [h b hmem] at hb
  cases hb

theorem Gap.flat {gap : Text} (h : Gap gap) : ∀ b ∈ gap, b ≠ 0x28 ∧ b ≠ 0x29 ∧ b ≠ 0x2C := by
  intro b hb
  rcases h.cases hb with rfl | rfl
  · decide
  · decide

/-- Blanks around a token in parentheses are taken off. -/
theorem trimCallBlanks_between {front t back : Text} (hfront : Gap front) (ht : Token t) (hback : Gap back) :
    trimCallBlanks (front ++ (t ++ back)) = t := by
  have drop : ∀ {gap s r : Text}, Gap gap → s ≠ [] → (∀ b ∈ s, isTokenByte b = true) →
      (gap ++ (s ++ r)).dropWhile Text.isCallBlank = s ++ r := by
    intro gap s r hgap hne hs
    obtain ⟨b, s, rfl⟩ := List.exists_cons_of_ne_nil hne
    rw [List.dropWhile_append_of_pos hgap.isCallBlank, List.cons_append,
      List.dropWhile_cons_of_neg (by simp [(isTokenByte_not_blank (hs b List.mem_cons_self)).2])]
  have hreverse : Gap back.reverse := fun b hb => hback b (List.mem_reverse.mp hb)
  have hend := drop (r := []) hreverse (by simpa using ht.ne_nil) fun b hb => ht.bytes b (List.mem_reverse.mp hb)
  rw [List.append_nil] at hend
  rw [trimCallBlanks, drop hfront ht.ne_nil ht.bytes, List.reverse_append, hend, List.reverse_reverse]

theorem flat_between {front t back : Text} (hfront : Gap front) (ht : Token t) (hback : Gap back) :
    ∀ b ∈ front ++ (t ++ back), b ≠ 0x28 ∧ b ≠ 0x29 ∧ b ≠ 0x2C := by
  intro b hb
  rcases List.mem_append.mp hb with hb | hb
  · exact hfront.flat b hb
  · rcases List.mem_append.mp hb with hb | hb
    · exact ht.flat b hb
    · exact hback.flat b hb

/-! ## Where operands are cut -/

/-- No comma of the text parts operands, and behind it the parentheses are as deep as before. -/
def Level (v : Text) : Prop := ∀ r, commas 0 (marked (v ++ r)) = unparted v ++ commas 0 (marked r)

namespace Level

theorem append {v w : Text} (hv : Level v) (hw : Level w) : Level (v ++ w) := by
  intro r
  rw [List.append_assoc, hv, hw, unparted, unparted, unparted, List.map_append, List.append_assoc]

theorem splitOperands {v : Text} (hv : Level v) : Source.splitOperands v = [v] := by
  have hcommas := hv []
  rw [List.append_nil, show commas 0 (marked []) = [] from rfl, List.append_nil] at hcommas
  rw [Source.splitOperands, hcommas, pieces_unparted, List.map_singleton, map_unparted]

theorem splitOperands_comma {v : Text} (hv : Level v) (r : Text) :
    Source.splitOperands (v ++ 0x2C :: r) = v :: Source.splitOperands r := by
  have hcomma : commas 0 (marked (0x2C :: r)) = (0x2C, true) :: commas 0 (marked r) := rfl
  have hv' : ∀ c ∈ unparted v, c.2 = false := by
    intro c hc
    obtain ⟨b, _, rfl⟩ := List.mem_map.mp hc
    rfl
  rw [Source.splitOperands, hv, hcomma, Text.pieces_append_cons hv' rfl, List.map_cons, map_unparted]
  rfl

end Level

theorem level_of_flat {v : Text} (hquote : ∀ b ∈ v, isQuoteMark b = false)
    (hflat : ∀ b ∈ v, b ≠ 0x28 ∧ b ≠ 0x29 ∧ b ≠ 0x2C) : Level v := by
  intro r
  rw [marked_append_of_noQuote hquote, commas_flat 0 hflat]

theorem Gap.level {gap : Text} (h : Gap gap) : Level gap := level_of_flat h.noQuote h.flat

/-- A text in parentheses that is read without further ones. -/
theorem level_parens {v : Text} (hquote : ∀ b ∈ v, isQuoteMark b = false)
    (hflat : ∀ b ∈ v, b ≠ 0x28 ∧ b ≠ 0x29 ∧ b ≠ 0x2C) : Level (0x28 :: (v ++ [0x29])) := by
  intro r
  have hall : ∀ b ∈ 0x28 :: (v ++ [0x29]), isQuoteMark b = false := by
    intro b hb
    simp only [List.mem_cons, List.mem_append, List.not_mem_nil, or_false] at hb
    rcases hb with rfl | hb | rfl
    · decide
    · exact hquote b hb
    · decide
  rw [marked_append_of_noQuote hall, commas_parens hflat]

/-- Whatever stands in quotes parts nothing. -/
theorem commas_quoted (depth : Int) (s : Text) (ms : List Marked) :
    commas depth (s.map (⟨·, true⟩) ++ ms) = unparted s ++ commas depth ms := by
  induction s with
  | nil => rfl
  | cons b s ih =>
    have hdepth : depthAfter depth ⟨b, true⟩ = depth := rfl
    simp only [List.map_cons, List.cons_append, commas, hdepth, ih, Bool.not_true, Bool.and_false, Bool.false_and, unparted]

/-! ## Reading -/

/-- The text is one operand, read as the words `ws` with any blanks at its ends. -/
structure Reads (v : Text) (ws : List Text) : Prop where
  level : Level v
  words : ∀ {front back : Text}, Gap front → Gap back → Line.operandWords (front ++ (v ++ back)) = .ok ws

/-- Taking the blanks out of calls makes `v` of the operand `u`. -/
def Tightens (u v : Text) : Prop := ∀ r, tightenCalls (u ++ r) = v ++ tightenCalls r

theorem Tightens.eq {u v : Text} (h : Tightens u v) : tightenCalls u = v := by
  have hend := h []
  rwa [List.append_nil, show tightenCalls [] = [] from rfl, List.append_nil] at hend

theorem tightens_of_not_mem {u : Text} (h : 0x25 ∉ u) : Tightens u u := tightenCalls_append h

theorem Tightens.append {u v s t : Text} (h : Tightens u v) (h' : Tightens s t) : Tightens (u ++ s) (v ++ t) := by
  intro r
  rw [List.append_assoc, h, h', List.append_assoc]

/-! ## Terms -/

/-- The blanks of a call are taken out. -/
theorem tightens_call {name argument : Text} (h : IsTight name argument) {g g' g'' : Text} (hg : Gap g) (hg' : Gap g')
    (hg'' : Gap g'') :
    Tightens (0x25 :: (name ++ (g ++ 0x28 :: (g' ++ (argument ++ (g'' ++ [0x29])))))) (callText name argument) := by
  intro r
  have hinner : ∀ b ∈ g' ++ (argument ++ g''), isParen b = false := by
    intro b hb
    obtain ⟨hopen, hclose, -⟩ := flat_between hg' h.argument hg'' b hb
    simp [isParen, hopen, hclose]
  have htight := tightenCalls_parens h.name_ne h.name_bytes hg.isCallBlank hinner r
  rw [trimCallBlanks_between hg' h.argument hg''] at htight
  rw [← htight]
  simp

namespace Term

theorem ne_nil (t : Term) : t.text ≠ [] := by
  cases t with
  | token t h => exact h.ne_nil
  | call name argument h => exact List.cons_ne_nil _ _

theorem plain (t : Term) : ∀ b ∈ t.text, isPlain b = true := by
  cases t with
  | token t h => exact fun b hb => (h.plain b hb).1
  | call name argument h => exact fun b hb => (callText_bytes h b hb).1

theorem endsInCallName (t : Term) : Source.endsInCallName t.text = false := by
  cases t with
  | token t h => exact endsInCallName_token h
  | call name argument h => exact endsInCallName_call name argument

theorem indexed? (t : Term) : Source.indexed? t.text = none := by
  cases t with
  | token t h => exact indexed?_token h
  | call name argument h => exact indexed?_call h

theorem level (t : Term) : Level t.text := by
  cases t with
  | token t h => exact level_of_flat (fun b hb => isPlain_not_isQuoteMark (h.plain b hb).1) h.flat
  | call name argument h =>
    intro r
    rw [text, marked_append_of_noQuote fun b hb => isPlain_not_isQuoteMark (callText_bytes h b hb).1, (readAs_call h).level]

theorem tightens {t : Term} {u : Text} (h : Laid Gap t.parts u) : Tightens u t.text := by
  cases t with
  | token t ht =>
    cases h with
    | last => exact tightens_of_not_mem (ht.not_mem (by decide))
    | cons _ _ h => cases h
  | call name argument hcall =>
    obtain _ | ⟨hg, -, _ | ⟨hg', -, _ | ⟨hg'', -, _ | ⟨-, -, h⟩⟩⟩⟩ := h
    · exact tightens_call hcall hg hg' hg''
    · cases h

end Term

/-- Blanks at the ends of an operand are taken off before it is read. -/
theorem operandWords_between {front v back : Text} (hv : Shows v) (hquote : ∀ b, v.head? = some b → isPlain b = true)
    (hfront : Gap front) (hback : Gap back) :
    Line.operandWords (front ++ (v ++ back)) =
      match indexed? v with
      | some (reg, offset) => .ok [reg, offset]
      | none => .ok (Text.words v) := by
  have hmark : (v.head? == some 0x27) = false := by
    rw [beq_eq_false_iff_ne]
    intro hhead
    exact absurd (hquote _ hhead) (by decide)
  cases hindexed : indexed? v with
  | none => simp only [Line.operandWords, hv.trim hfront hback, hmark, hindexed, Bool.false_eq_true, if_false]
  | some _ => simp only [Line.operandWords, hv.trim hfront hback, hmark, hindexed, Bool.false_eq_true, if_false]

theorem Term.reads (t : Term) : Reads t.text [t.text] := by
  refine ⟨t.level, fun hfront hback => ?_⟩
  rw [operandWords_between (shows_of_plain t.ne_nil t.plain) (fun b hb => t.plain b (List.mem_of_head? hb)) hfront hback,
    t.indexed?, words_plain t.ne_nil t.plain]

/-! ## Registers in parentheses -/

/-- A register in parentheses, with blanks on both sides. -/
def registerText (g reg g' : Text) : Text := 0x28 :: (g ++ (reg ++ (g' ++ [0x29])))

section Registers

variable {offset g reg g' : Text} (hreg : IsRegister reg) (hg : Gap g) (hg' : Gap g')

include hreg hg hg'

theorem registerText_level : Level (registerText g reg g') := by
  have hquote : ∀ b ∈ g ++ (reg ++ g'), isQuoteMark b = false := by
    intro b hb
    rcases List.mem_append.mp hb with hb | hb
    · exact hg.noQuote b hb
    · rcases List.mem_append.mp hb with hb | hb
      · exact isPlain_not_isQuoteMark (hreg.token.plain b hb).1
      · exact hg'.noQuote b hb
  have hlevel := level_parens hquote (flat_between hg hreg.token hg')
  simpa only [registerText, List.append_assoc] using hlevel

theorem registerText_tightens : Tightens (registerText g reg g') (registerText g reg g') := by
  have hpercent := hreg.token.not_mem (c := 0x25) (by decide)
  have hblank : Text.isGap 0x25 = false := by decide
  exact tightens_of_not_mem (by simp [registerText, hpercent, hg.not_mem hblank, hg'.not_mem hblank])

/-- What is read of a register in parentheses behind `offset`. -/
theorem reads_registerText (hlevel : Level offset) (hfirst : ∀ b, offset.head? = some b → isPlain b = true)
    (hcall : endsInCallName offset = false) (hline : 0x0A ∉ offset) :
    Reads (offset ++ registerText g reg g')
      [reg, if (Text.trim offset).isEmpty then Text.ofString "0" else (Text.trim offset).filter (· != 0x20)] := by
  have hhead : ∀ b, (offset ++ registerText g reg g').head? = some b → isPlain b = true := by
    intro b hb
    cases offset with
    | nil =>
      obtain rfl : 0x28 = b := by simpa [registerText] using hb
      decide
    | cons a offset => exact hfirst b (by simpa using hb)
  have hshows : Shows (offset ++ registerText g reg g') := by
    have hlast : offset ++ registerText g reg g' = (offset ++ 0x28 :: (g ++ (reg ++ g'))) ++ [0x29] := by simp [registerText]
    refine ⟨?_, 0x29, by rw [hlast, List.getLast?_concat], by decide⟩
    obtain ⟨a, ha⟩ : ∃ a, (offset ++ registerText g reg g').head? = some a :=
      ⟨_, List.head?_eq_some_head (by simp [registerText])⟩
    exact ⟨a, ha, isPlain_isGraphic (hhead a ha)⟩
  have hindexed := indexed?_register (fun b hb => (flat_between hg hreg.token hg' b hb).1)
    (trimCallBlanks_between hg hreg.token hg') hreg.token.ne_nil (List.all_eq_true.mpr hreg.bytes) hreg.named hcall hline
  simp only [List.append_assoc] at hindexed
  refine ⟨hlevel.append (registerText_level hreg hg hg'), fun hfront hback => ?_⟩
  rw [operandWords_between hshows hhead hfront hback, registerText, hindexed]

end Registers

/-- Blanks behind a text keep a parenthesis from opening a call. -/
theorem endsInCallName_append_gap {s gap : Text} (hs : endsInCallName s = false) (hgap : Gap gap) :
    endsInCallName (s ++ gap) = false := by
  rcases List.eq_nil_or_concat gap with rfl | ⟨front, b, rfl⟩
  · rwa [List.append_nil]
  · have hb : Text.isWordByte b = false := by
      rcases hgap.cases (b := b) (by simp) with rfl | rfl
      · decide
      · decide
    simp [endsInCallName, hb]

/-- A register behind a term is read before the term. -/
theorem Term.reads_indexed (t : Term) {reg gap g g' : Text} (hreg : IsRegister reg) (hgap : Gap gap) (hg : Gap g)
    (hg' : Gap g') : Reads (t.text ++ (gap ++ registerText g reg g')) [reg, t.text] := by
  have hshows := shows_of_plain t.ne_nil t.plain
  have htrim : Text.trim (t.text ++ gap) = t.text := hshows.trim Gap.nil hgap
  have hempty : t.text.isEmpty = false := by simpa using t.ne_nil
  have hline : 0x0A ∉ t.text ++ gap := by
    rw [List.mem_append]
    rintro (hmem | hmem)
    · exact not_mem_of_plain t.plain (by decide) hmem
    · exact hgap.oneLine hmem
  have hfirst : ∀ b, (t.text ++ gap).head? = some b → isPlain b = true := by
    intro b hb
    obtain ⟨a, ha, -⟩ := hshows.first
    rw [List.head?_append, ha, Option.some_or, Option.some.injEq] at hb
    exact hb ▸ t.plain a (List.mem_of_head? ha)
  have hreads := reads_registerText hreg hg hg' (t.level.append hgap.level) hfirst
    (endsInCallName_append_gap t.endsInCallName hgap) hline
  rwa [htrim, hempty, if_neg Bool.false_ne_true, filter_space_plain t.plain, List.append_assoc] at hreads

/-! ## Characters -/

namespace Character

theorem whole (c : Character) : (Span.quoted 0x27 (c.inner ++ [0x27])).Whole := by
  have hbody : Body 0x27 c.inner := by
    cases c with
    | empty => exact .nil
    | visible b h => exact .byte h.2.2.1 h.2.2.2 .nil
    | escape letter value h => exact .escape .nil
  exact .quoted (by decide) hbody

theorem column (c : Character) : Column c.text := c.whole.column

theorem shows (c : Character) : Shows c.text :=
  ⟨⟨0x27, rfl, by decide⟩, 0x27, List.getLast?_concat (l := 0x27 :: c.inner), by decide⟩

theorem level (c : Character) : Level c.text := by
  intro r
  have hmarks : Source.marked (c.text ++ r) = c.text.map (⟨·, true⟩) ++ Source.marked r := c.whole.marked r
  rw [hmarks, commas_quoted]

/-- A percent sign in quotes calls nothing. -/
theorem tightens (c : Character) : Tightens c.text c.text := by
  cases c with
  | empty => exact tightens_of_not_mem (by decide)
  | visible b h =>
    by_cases hb : b = 0x25
    · subst hb
      intro r
      have hcall : call? (0x27 :: r) = none := rfl
      have hpercent : tightenCalls (0x25 :: 0x27 :: r) = 0x25 :: tightenCalls (0x27 :: r) := by
        simp only [tightenCalls, tightenFrom, beq_self_eq_true, if_true, hcall]
      show tightenCalls (0x27 :: 0x25 :: 0x27 :: r) = 0x27 :: 0x25 :: 0x27 :: tightenCalls r
      rw [tightenCalls_cons (by decide), hpercent, tightenCalls_cons (by decide)]
    · exact tightens_of_not_mem (by simp [text, inner, Ne.symm hb])
  | escape letter value h =>
    have letters : escapes.all (fun e => e.1 != 0x25) = true := by decide +kernel
    have hletter : letter ≠ 0x25 := bne_iff_ne.mp (List.all_eq_true.mp letters _ h)
    exact tightens_of_not_mem (by simp [text, inner, hletter.symm])

theorem charNumeral (c : Character) : Source.charNumeral c.text = .ok c.numeral := by
  cases c with
  | empty => rfl
  | visible b h =>
    have visible : ∀ b : UInt8, 0x20 ≤ b ∧ b ≤ 0x7E ∧ b ≠ 0x27 ∧ b ≠ 0x5C → Source.charNumeral [0x27, b, 0x27] =
        .ok [0x30, 0x78, Text.digitByte true (b.toNat / 16), Text.digitByte true (b.toNat % 16)] :=
      Text.forall_byte (by decide +kernel)
    exact visible b h
  | escape letter value h =>
    have escaped : escapes.all (fun e => decide (Source.charNumeral [0x27, 0x5C, e.1, 0x27] =
        .ok [0x30, 0x78, Text.digitByte true (e.2.toNat / 16), Text.digitByte true (e.2.toNat % 16)])) = true := by
      decide +kernel
    exact of_decide_eq_true (List.all_eq_true.mp escaped _ h)

theorem reads (c : Character) : Reads c.text [c.numeral] := by
  refine ⟨c.level, fun hfront hback => ?_⟩
  have hmark : (c.text.head? == some 0x27) = true := rfl
  simp only [Line.operandWords, c.shows.trim hfront hback, hmark, if_true, c.charNumeral]

end Character

/-! ## Operands -/

/-- Taking the blanks out of the calls of an operand leaves one that is read as its words. -/
theorem Form.reads {f : Form} {u : Text} (h : Laid Gap f.parts u) : ∃ v, Tightens u v ∧ Reads v f.words := by
  cases f with
  | term t => exact ⟨t.text, Term.tightens h, t.reads⟩
  | character c =>
    cases h with
    | last => exact ⟨c.text, c.tightens, c.reads⟩
    | cons _ _ h => cases h
  | indexed offset reg hreg =>
    have register : ∀ {s : Text}, Laid Gap [.free [0x28], .free reg, .free [0x29]] s →
        ∃ g g', s = registerText g reg g' ∧ Gap g ∧ Gap g' := by
      intro s hs
      obtain _ | ⟨hg, -, _ | ⟨hg', -, _ | ⟨-, -, h⟩⟩⟩ := hs
      · exact ⟨_, _, rfl, hg, hg'⟩
      · cases h
    cases offset with
    | none =>
      obtain ⟨g, g', rfl, hg, hg'⟩ := register h
      have hlevel : Level [] := fun r => rfl
      exact ⟨_, registerText_tightens hreg hg hg',
        reads_registerText hreg hg hg' hlevel (by simp) (by decide) (by simp)⟩
    | some t =>
      have hparts : t.parts ≠ [] := by cases t <;> exact List.cons_ne_nil _ _
      obtain ⟨u, gap, v, rfl, hu, hgap, hv⟩ := Laid.append hparts (List.cons_ne_nil _ _) h
      obtain ⟨g, g', rfl, hg, hg'⟩ := register hv
      have hblank : Tightens gap gap := tightens_of_not_mem (hgap.not_mem (by decide))
      exact ⟨_, (Term.tightens hu).append (hblank.append (registerText_tightens hreg hg hg')),
        t.reads_indexed hreg hgap hg hg'⟩

end Rv32Tools.Source
