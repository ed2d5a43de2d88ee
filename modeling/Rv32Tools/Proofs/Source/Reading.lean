import Rv32Tools.Proofs.Source.Numerals
import Rv32Tools.Proofs.Text.Case
import Rv32Tools.Proofs.Text.Ends
import Rv32Tools.Source.Line

/-
  Rv32Tools.Proofs.Source.Reading — a line that is already in one spelling is read as it is.

  Tokens are made of letters, digits, underscores and signs. Parted by single spaces they are the words of a text
  (`words_join`), and a text of them has nothing to be taken off or made single (`splitComment_of_noHash`,
  `collapse_join`). `ReadAs` says of an operand by which words it is read wherever it stands; a token is one word
  (`Token.readAs`), and `offset(register)` is two (`readAs_indexed`). So an instruction written as its name and its
  operands, parted by commas, is read as just these words, behind a label or without one (`ofRaw_operands`). Lines put
  together to a file are the lines of that file (`rawLines_unlines`).
-/

namespace Rv32Tools

namespace Text

/-! ## Pieces of a text -/

theorem pieces_map {α β : Type} (p : β → Bool) (f : α → β) (s : List α) :
    pieces p (s.map f) = (pieces (fun a => p (f a)) s).map (List.map f) := by
  induction s with
  | nil => rfl
  | cons a s ih =>
    simp only [List.map_cons, pieces, ih]
    split
    · rfl
    · cases pieces (fun a => p (f a)) s <;> rfl

theorem pieces_join {p : UInt8 → Bool} (sep : UInt8) (hsep : p sep = true) {ws : List Text} (hne : ws ≠ [])
    (h : ∀ w ∈ ws, ∀ b ∈ w, p b = false) : pieces p (join [sep] ws) = ws := by
  induction ws with
  | nil => exact absurd rfl hne
  | cons w ws ih =>
    have hw := h w List.mem_cons_self
    cases ws with
    | nil => rw [join, List.intercalate_singleton, pieces_of_neg hw]
    | cons v ws =>
      have rest := ih (List.cons_ne_nil _ _) fun w' hw' => h w' (List.mem_cons_of_mem _ hw')
      rw [join, List.intercalate_cons_cons, List.append_assoc, List.singleton_append, pieces_append_cons hw hsep]
      exact congrArg (w :: ·) rest

theorem join_space_cons (w v : Text) (ws : List Text) : join " " (w :: v :: ws) = w ++ 0x20 :: join " " (v :: ws) := by
  rw [join, List.intercalate_cons_cons, List.append_assoc]
  rfl

theorem join_append_cons (sep a w : Text) (ws : List Text) : join sep ((a ++ w) :: ws) = a ++ join sep (w :: ws) := by
  cases ws with
  | nil => rw [join, List.intercalate_singleton, join, List.intercalate_singleton]
  | cons v ws =>
    rw [join, List.intercalate_cons_cons, join, List.intercalate_cons_cons, List.append_assoc, List.append_assoc,
      List.append_assoc]

theorem mem_join {sep : Text} {ws : List Text} {b : UInt8} (h : b ∈ join sep ws) : b ∈ sep ∨ ∃ w ∈ ws, b ∈ w := by
  induction ws with
  | nil => cases h
  | cons w ws ih =>
    cases ws with
    | nil =>
      rw [join, List.intercalate_singleton] at h
      exact Or.inr ⟨w, List.mem_cons_self, h⟩
    | cons v ws =>
      rw [join, List.intercalate_cons_cons, List.mem_append, List.mem_append] at h
      rcases h with (h | h) | h
      · exact Or.inr ⟨w, List.mem_cons_self, h⟩
      · exact Or.inl h
      · rcases ih h with h | ⟨w', hw', h⟩
        · exact Or.inl h
        · exact Or.inr ⟨w', List.mem_cons_of_mem _ hw', h⟩

/-! ## Words and ends of an ASCII text -/

theorem words_ascii {s : Text} (h : ∀ b ∈ s, b < 0x80) :
    words s = (pieces (fun b => (asciiGlyph b).isBlank) s).filter (!·.isEmpty) := by
  rw [words, glyphs_ascii h, pieces_map, List.filter_map, List.map_map]
  have hempty : ((fun gs : List Glyph => !gs.isEmpty) ∘ List.map asciiGlyph) = fun s => !s.isEmpty := by
    funext s
    cases s <;> rfl
  have hbytes : (ofGlyphs ∘ List.map asciiGlyph) = id := by
    funext s
    exact ofGlyphs_map_asciiGlyph s
  rw [hempty, hbytes, List.map_id]

/-- Visible texts parted by spaces are the words of the whole. -/
theorem words_join {ws : List Text} (h : ∀ w ∈ ws, w ≠ [] ∧ ∀ b ∈ w, isGraphic b = true) : words (join " " ws) = ws := by
  have hascii : ∀ b ∈ join " " ws, b < 0x80 := by
    intro b hb
    rcases mem_join hb with hb | ⟨w, hw, hb⟩
    · rw [List.mem_singleton.mp hb]
      decide
    · exact isGraphic_ascii ((h w hw).2 b hb)
  by_cases hne : ws = []
  · subst hne
    rfl
  · have hpieces := pieces_join (p := fun b => (asciiGlyph b).isBlank) 0x20 (by decide) hne
      fun w hw b hb => asciiGlyph_not_blank ((h w hw).2 b hb)
    rw [words_ascii hascii]
    show (pieces _ (join [0x20] ws)).filter _ = ws
    rw [hpieces, List.filter_eq_self]
    intro w hw
    simp [(h w hw).1]

/-- Spaces are taken off a text that begins and ends with a visible byte. -/
theorem trim_spaces_of_ends {n : Nat} {s : Text} (hfirst : ∀ b, s.head? = some b → isGraphic b = true)
    (hlast : ∀ b, s.getLast? = some b → isGraphic b = true) : trim (List.replicate n 0x20 ++ s) = s := by
  have hspaces : AllBlank (List.replicate n 0x20) := by
    refine allBlank_of_isGap fun b hb => ?_
    rw [(List.mem_replicate.mp hb).2]
    decide
  cases hs : s with
  | nil =>
    rw [List.append_nil]
    exact trim_eq_nil_iff.mpr (words_eq_nil_iff.mpr hspaces)
  | cons a r =>
    rw [← hs]
    obtain ⟨b, hb⟩ : ∃ b, s.getLast? = some b := ⟨_, List.getLast?_eq_some_getLast (hs ▸ List.cons_ne_nil a r)⟩
    have hhead : s.head? = some a := by rw [hs, List.head?_cons]
    have := trim_between hspaces AllBlank.nil (hfirst a hhead) (hlast b hb) hhead hb
    rwa [List.append_nil] at this

/-- Spaces are taken off a visible text. -/
theorem trim_spaces {n : Nat} {s : Text} (h : ∀ b ∈ s, isGraphic b = true) : trim (List.replicate n 0x20 ++ s) = s :=
  trim_spaces_of_ends (fun b hb => h b (List.mem_of_head? hb)) fun b hb => h b (List.mem_of_getLast? hb)

theorem head?_join {w : Text} (hne : w ≠ []) (ws : List Text) : (join " " (w :: ws)).head? = w.head? := by
  cases ws with
  | nil => rw [join, List.intercalate_singleton]
  | cons v ws =>
    obtain ⟨b, r, rfl⟩ := List.exists_cons_of_ne_nil hne
    rw [join_space_cons]
    rfl

theorem getLast?_join {ws : List Text} (h : ∀ w ∈ ws, w ≠ []) {b : UInt8} (hb : (join " " ws).getLast? = some b) :
    ∃ w ∈ ws, w.getLast? = some b := by
  induction ws with
  | nil => cases hb
  | cons w ws ih =>
    cases ws with
    | nil =>
      rw [join, List.intercalate_singleton] at hb
      exact ⟨w, List.mem_cons_self, hb⟩
    | cons v ws =>
      have hne : join " " (v :: ws) ≠ [] := by
        intro hnil
        have := head?_join (h v (by simp)) ws
        rw [hnil, eq_comm, List.head?_nil, List.head?_eq_none_iff] at this
        exact h v (by simp) this
      have hrest : (join " " (v :: ws)).getLast? = some b := by
        rw [join_space_cons, List.getLast?_append_of_ne_nil _ (by simp), List.getLast?_cons_of_ne_nil hne] at hb
        exact hb
      obtain ⟨u, hu, hlast⟩ := ih (fun u hu => h u (List.mem_cons_of_mem _ hu)) hrest
      exact ⟨u, List.mem_cons_of_mem _ hu, hlast⟩

end Text

namespace Source

/-! ## Bytes of a line -/

/-- A byte of names and numbers as they are written: a letter, a digit, an underscore or a sign. -/
def isTokenByte (b : UInt8) : Bool := Text.isWordByte b || b == 0x2B || b == 0x2D

/-- A byte of an instruction as it is written. -/
def isLineByte (b : UInt8) : Bool := isTokenByte b || b == 0x20 || b == 0x28 || b == 0x29 || b == 0x2C

/-- A name or a number as it is written. -/
structure Token (s : Text) : Prop where
  ne_nil : s ≠ []
  bytes : ∀ b ∈ s, isTokenByte b = true

theorem isTokenByte_isGraphic {b : UInt8} : isTokenByte b = true → Text.isGraphic b = true :=
  Text.forall_byte (p := fun b => isTokenByte b = true → Text.isGraphic b = true) (by decide +kernel) b

theorem isTokenByte_isLineByte {b : UInt8} (h : isTokenByte b = true) : isLineByte b = true := by
  simp [isLineByte, h]

theorem isLineByte_noQuote {b : UInt8} : isLineByte b = true → isQuoteMark b = false :=
  Text.forall_byte (p := fun b => isLineByte b = true → isQuoteMark b = false) (by decide +kernel) b

theorem isLineByte_ne {b c : UInt8} (hb : isLineByte b = true) (hc : isLineByte c = false) : b ≠ c := by
  rintro rfl
  rw [hb] at hc
  cases hc

theorem isTokenByte_not_blank {b : UInt8} :
    isTokenByte b = true → Text.isColumnBlank b = false ∧ Text.isCallBlank b = false :=
  Text.forall_byte (p := fun b => isTokenByte b = true → Text.isColumnBlank b = false ∧ Text.isCallBlank b = false)
    (by decide +kernel) b

theorem isTokenByte_ne {b c : UInt8} (hb : isTokenByte b = true) (hc : isTokenByte c = false) : b ≠ c := by
  rintro rfl
  rw [hb] at hc
  cases hc

theorem isTokenByte_of_isAlnumByte {b : UInt8} : Text.isAlnumByte b = true → isTokenByte b = true :=
  Text.forall_byte (p := fun b => Text.isAlnumByte b = true → isTokenByte b = true) (by decide +kernel) b

/-- A number is a token. -/
theorem number?_token {t : Text} {v : Int} (h : number? t = some v) : Token t := by
  refine ⟨number?_ne_nil h, fun b hb => ?_⟩
  rcases number?_bytes h b hb with hb | rfl | rfl
  · exact isTokenByte_of_isAlnumByte hb
  · decide
  · decide

theorem Token.not_mem {t : Text} (h : Token t) {c : UInt8} (hc : isTokenByte c = false) : c ∉ t :=
  fun hmem => isTokenByte_ne (h.bytes c hmem) hc rfl

/-- Bytes before the first quote mark lie outside quotes. -/
theorem marked_append_of_noQuote {s : Text} (h : ∀ b ∈ s, isQuoteMark b = false) (r : Text) :
    marked (s ++ r) = s.map (⟨·, false⟩) ++ marked r := by
  show markFrom .outside (s ++ r) = _
  induction s with
  | nil => rfl
  | cons b s ih =>
    have hb : Quoting.next .outside b = .outside := by simp [Quoting.next, h b List.mem_cons_self]
    simp only [List.cons_append, markFrom, hb, ih fun b' hb' => h b' (List.mem_cons_of_mem _ hb'), List.map_cons]
    rfl

theorem marked_of_noQuote {s : Text} (h : ∀ b ∈ s, isQuoteMark b = false) : marked s = s.map (⟨·, false⟩) := by
  have := marked_append_of_noQuote h []
  rwa [List.append_nil, show marked [] = [] from rfl, List.append_nil] at this

theorem bytesOf_unquoted (s : Text) : bytesOf (s.map (⟨·, false⟩)) = s := by
  rw [bytesOf, List.map_map]
  exact List.map_id s

theorem splitComment_of_noHash {s : Text} (h : ∀ b ∈ s, isQuoteMark b = false ∧ b ≠ 0x23) : splitComment s = (s, []) := by
  have hmarks := marked_of_noQuote fun b hb => (h b hb).1
  have hhash : ∀ m ∈ s.map (fun b => (⟨b, false⟩ : Marked)), (!m.isHash) = true := by
    intro m hm
    obtain ⟨b, hb, rfl⟩ := List.mem_map.mp hm
    simp [Marked.isHash, (h b hb).2]
  simp only [splitComment, hmarks, List.takeWhile_eq_self_iff.mpr hhash, List.dropWhile_eq_nil_iff.mpr hhash,
    bytesOf_unquoted]
  rfl

theorem columns_of_noQuote {s : Text} (h : ∀ b ∈ s, isQuoteMark b = false) :
    columns s = (Text.pieces Text.isColumnBlank s).filter (!·.isEmpty) := by
  have hblank : (fun b => Marked.isBlank ⟨b, false⟩) = Text.isColumnBlank := by
    funext b
    simp [Marked.isBlank]
  have hempty : ((fun ms : List Marked => !ms.isEmpty) ∘ List.map (fun b => (⟨b, false⟩ : Marked))) =
      fun s => !s.isEmpty := by
    funext s
    cases s <;> rfl
  have hbytes : (bytesOf ∘ List.map (fun b => (⟨b, false⟩ : Marked))) = id := by
    funext s
    exact bytesOf_unquoted s
  rw [columns, marked_of_noQuote h, Text.pieces_map, hblank, List.filter_map, List.map_map, hempty, hbytes, List.map_id]

/-- Single spaces between texts without blanks stay. -/
theorem collapse_join {ws : List Text} (hne : ws ≠ [])
    (h : ∀ w ∈ ws, w ≠ [] ∧ ∀ b ∈ w, isQuoteMark b = false ∧ Text.isColumnBlank b = false) :
    collapse (Text.join " " ws) = Text.join " " ws := by
  have hquote : ∀ b ∈ Text.join " " ws, isQuoteMark b = false := by
    intro b hb
    rcases Text.mem_join hb with hb | ⟨w, hw, hb⟩
    · rw [List.mem_singleton.mp hb]
      decide
    · exact ((h w hw).2 b hb).1
  have hpieces := Text.pieces_join (p := Text.isColumnBlank) 0x20 (by decide) hne
    fun w hw b hb => ((h w hw).2 b hb).2
  have hcolumns : columns (Text.join " " ws) = ws := by
    rw [columns_of_noQuote hquote]
    show (Text.pieces _ (Text.join [0x20] ws)).filter _ = ws
    rw [hpieces, List.filter_eq_self]
    intro w hw
    simp [(h w hw).1]
  rw [collapse, hcolumns]

theorem isLabelled_of_noColon {s : Text} (h : 0x3A ∉ s) : isLabelled s = false := by
  rw [Bool.eq_false_iff]
  intro hl
  rw [isLabelled, Bool.and_eq_true, endsWith_colon] at hl
  exact h ((List.takeWhile_sublist _).subset (List.mem_of_getLast? hl.1))

theorem tightenCalls_cons {b : UInt8} (hb : b ≠ 0x25) (r : Text) : tightenCalls (b :: r) = b :: tightenCalls r := by
  have hbeq : (b == 0x25) = false := beq_eq_false_iff_ne.mpr hb
  simp only [tightenCalls, tightenFrom, hbeq, Bool.false_eq_true, if_false]

theorem tightenCalls_append {s : Text} (h : 0x25 ∉ s) (r : Text) : tightenCalls (s ++ r) = s ++ tightenCalls r := by
  induction s with
  | nil => rfl
  | cons b s ih =>
    have hb : b ≠ 0x25 := by
      rintro rfl
      exact h List.mem_cons_self
    rw [List.cons_append, tightenCalls_cons hb, ih fun hs => h (List.mem_cons_of_mem _ hs), List.cons_append]

theorem isPlain_not_blank {b : UInt8} :
    isPlain b = true → Text.isColumnBlank b = false ∧ Text.isCallBlank b = false :=
  Text.forall_byte (p := fun b => isPlain b = true → Text.isColumnBlank b = false ∧ Text.isCallBlank b = false)
    (by decide +kernel) b

theorem isTokenByte_isPlain {b : UInt8} : isTokenByte b = true → isPlain b = true :=
  Text.forall_byte (p := fun b => isTokenByte b = true → isPlain b = true) (by decide +kernel) b

/-! ## Operands -/

/-- Bytes that part nothing, each with that. -/
def unparted (s : Text) : List (UInt8 × Bool) := s.map (·, false)

theorem pieces_unparted (s : Text) : Text.pieces (·.2) (unparted s) = [unparted s] := by
  refine Text.pieces_of_neg fun c hc => ?_
  obtain ⟨b, _, rfl⟩ := List.mem_map.mp hc
  rfl

theorem map_unparted (s : Text) : (unparted s).map (·.1) = s := by
  rw [unparted, List.map_map]
  exact List.map_id s

/-- A text that is an operand wherever it stands among others, and the words it is read as. -/
structure ReadAs (t : Text) (ws : List Text) : Prop where
  ne_nil : t ≠ []
  bytes : ∀ b ∈ t, isPlain b = true ∧ b ≠ 0x23
  /-- It closes the parentheses it opens, and no comma stands outside of them. -/
  level : ∀ ms, commas 0 (t.map (⟨·, false⟩) ++ ms) = unparted t ++ commas 0 ms
  /-- Its calls have no blanks. -/
  tight : ∀ r, tightenCalls (t ++ r) = t ++ tightenCalls r
  words : ∀ n, Line.operandWords (List.replicate n 0x20 ++ t) = .ok ws

/-- Operands behind the first one, each with a comma and a space before it. -/
def trailing (ts : List Text) : Text := ts.flatMap fun t => 0x2C :: 0x20 :: t

theorem join_comma (t : Text) (ts : List Text) : Text.join ", " (t :: ts) = t ++ trailing ts := by
  induction ts generalizing t with
  | nil => simp [Text.join, trailing]
  | cons u ts ih =>
    have hjoin : Text.join ", " (t :: u :: ts) = t ++ 0x2C :: 0x20 :: Text.join ", " (u :: ts) := by
      rw [Text.join, List.intercalate_cons_cons, List.append_assoc]
      rfl
    rw [hjoin, ih]
    rfl

section Operands

variable {o : Text × List Text} {os : List (Text × List Text)}

/-- Operands are parted where they were put together. -/
theorem pieces_trailing (h : ∀ o ∈ os, ReadAs o.1 o.2) (s : Text)
    (hs : ∀ ms, commas 0 (s.map (⟨·, false⟩) ++ ms) = unparted s ++ commas 0 ms) :
    Text.pieces (·.2) (commas 0 ((s ++ trailing (os.map Prod.fst)).map (⟨·, false⟩))) =
      unparted s :: os.map fun o => unparted (0x20 :: o.1) := by
  rw [List.map_append, hs]
  induction os generalizing s with
  | nil =>
    show Text.pieces _ (unparted s ++ []) = _
    rw [List.append_nil, pieces_unparted]
    rfl
  | cons o os ih =>
    have ho : ∀ ms, commas 0 ((0x20 :: o.1).map (⟨·, false⟩) ++ ms) = unparted (0x20 :: o.1) ++ commas 0 ms := by
      intro ms
      have hspace : depthAfter 0 ⟨0x20, false⟩ = 0 := by decide
      rw [List.map_cons, List.cons_append, commas, hspace, (h o List.mem_cons_self).level]
      rfl
    have rest := ih (fun v hv => h v (List.mem_cons_of_mem _ hv)) (0x20 :: o.1) ho
    have hcomma : commas 0 ((trailing ((o :: os).map Prod.fst)).map (⟨·, false⟩)) =
        (0x2C, true) :: (unparted (0x20 :: o.1) ++ commas 0 ((trailing (os.map Prod.fst)).map (⟨·, false⟩))) := by
      have hsplit : trailing ((o :: os).map Prod.fst) = 0x2C :: ((0x20 :: o.1) ++ trailing (os.map Prod.fst)) := rfl
      have hdepth : depthAfter 0 ⟨0x2C, false⟩ = 0 := by decide
      rw [hsplit, List.map_cons, commas, hdepth, List.map_append, ho]
      rfl
    rw [hcomma, Text.pieces_append_cons _ rfl, rest]
    · rfl
    · intro c hc
      obtain ⟨b, _, rfl⟩ := List.mem_map.mp hc
      rfl

theorem trailing_bytes (h : ∀ o ∈ os, ReadAs o.1 o.2) :
    ∀ b ∈ trailing (os.map Prod.fst), (isPlain b = true ∨ b = 0x20) ∧ b ≠ 0x23 := by
  intro b hb
  obtain ⟨t, ht, hb⟩ := List.mem_flatMap.mp hb
  obtain ⟨o, ho, rfl⟩ := List.mem_map.mp ht
  rcases List.mem_cons.mp hb with rfl | hb
  · decide
  · rcases List.mem_cons.mp hb with rfl | hb
    · decide
    · exact ⟨Or.inl ((h o ho).bytes b hb).1, ((h o ho).bytes b hb).2⟩

theorem splitOperands_trailing (ho : ReadAs o.1 o.2) (h : ∀ o ∈ os, ReadAs o.1 o.2) :
    splitOperands (o.1 ++ trailing (os.map Prod.fst)) = o.1 :: os.map fun v => 0x20 :: v.1 := by
  have hquote : ∀ b ∈ o.1 ++ trailing (os.map Prod.fst), isQuoteMark b = false := by
    intro b hb
    rcases List.mem_append.mp hb with hb | hb
    · exact isPlain_not_isQuoteMark (ho.bytes b hb).1
    · rcases (trailing_bytes h b hb).1 with hb | rfl
      · exact isPlain_not_isQuoteMark hb
      · decide
  rw [splitOperands, marked_of_noQuote hquote, pieces_trailing h _ ho.level]
  simp [map_unparted, Function.comp_def]

theorem allOperandWords_spaced (h : ∀ o ∈ os, ReadAs o.1 o.2) :
    Line.allOperandWords (os.map fun o => 0x20 :: o.1) = .ok (os.flatMap Prod.snd) := by
  induction os with
  | nil => rfl
  | cons o os ih =>
    have ho := (h o List.mem_cons_self).words 1
    rw [List.replicate_one, List.singleton_append] at ho
    simp only [List.map_cons, Line.allOperandWords, ho, ih fun v hv => h v (List.mem_cons_of_mem _ hv),
      List.flatMap_cons]

theorem tightenCalls_trailing (h : ∀ o ∈ os, ReadAs o.1 o.2) :
    tightenCalls (trailing (os.map Prod.fst)) = trailing (os.map Prod.fst) := by
  induction os with
  | nil => rfl
  | cons o os ih =>
    show tightenCalls (0x2C :: 0x20 :: (o.1 ++ trailing (os.map Prod.fst))) = _
    rw [tightenCalls_cons (by decide), tightenCalls_cons (by decide), (h o List.mem_cons_self).tight,
      ih fun v hv => h v (List.mem_cons_of_mem _ hv)]
    rfl

end Operands

/-! ## Tokens and indexed operands -/

/-- Bytes that are neither parentheses nor commas part nothing, however deep they are. -/
theorem commas_flat (depth : Int) {s : Text} (h : ∀ b ∈ s, b ≠ 0x28 ∧ b ≠ 0x29 ∧ b ≠ 0x2C) (ms : List Marked) :
    commas depth (s.map (⟨·, false⟩) ++ ms) = unparted s ++ commas depth ms := by
  induction s with
  | nil => rfl
  | cons b s ih =>
    obtain ⟨hopen, hclose, hcomma⟩ := h b List.mem_cons_self
    have hdepth : depthAfter depth ⟨b, false⟩ = depth := by simp [depthAfter, hopen, hclose]
    have hb : (b == 0x2C) = false := beq_eq_false_iff_ne.mpr hcomma
    simp only [List.map_cons, List.cons_append, commas, hdepth, hb, Bool.false_and,
      ih fun b' hb' => h b' (List.mem_cons_of_mem _ hb'), unparted]

/-- What stands in parentheses parts nothing. -/
theorem commas_parens {s : Text} (h : ∀ b ∈ s, b ≠ 0x28 ∧ b ≠ 0x29 ∧ b ≠ 0x2C) (ms : List Marked) :
    commas 0 ((0x28 :: (s ++ [0x29])).map (⟨·, false⟩) ++ ms) = unparted (0x28 :: (s ++ [0x29])) ++ commas 0 ms := by
  have hopen : depthAfter 0 ⟨0x28, false⟩ = 1 := by decide
  have hclose : depthAfter 1 ⟨0x29, false⟩ = 0 := by decide
  simp only [List.map_cons, List.map_append, List.cons_append, List.append_assoc, commas, hopen, commas_flat 1 h,
    List.map_nil, List.nil_append, hclose]
  simp [unparted]

theorem takeWhile_append_cons {α : Type} {p : α → Bool} {w : List α} (h : ∀ b ∈ w, p b = true) (sep : α)
    (hsep : p sep = false) (r : List α) :
    (w ++ sep :: r).takeWhile p = w ∧ (w ++ sep :: r).dropWhile p = sep :: r := by
  constructor
  · rw [List.takeWhile_append_of_pos h, List.takeWhile_cons_of_neg (by simp [hsep]), List.append_nil]
  · rw [List.dropWhile_append_of_pos h, List.dropWhile_cons_of_neg (by simp [hsep])]

theorem Token.flat {t : Text} (h : Token t) : ∀ b ∈ t, b ≠ 0x28 ∧ b ≠ 0x29 ∧ b ≠ 0x2C := fun b hb =>
  ⟨isTokenByte_ne (h.bytes b hb) (by decide), isTokenByte_ne (h.bytes b hb) (by decide),
    isTokenByte_ne (h.bytes b hb) (by decide)⟩

theorem Token.plain {t : Text} (h : Token t) : ∀ b ∈ t, isPlain b = true ∧ b ≠ 0x23 := fun b hb =>
  ⟨isTokenByte_isPlain (h.bytes b hb), isTokenByte_ne (h.bytes b hb) (by decide)⟩

theorem words_plain {t : Text} (hne : t ≠ []) (h : ∀ b ∈ t, isPlain b = true) : Text.words t = [t] := by
  have graphic : ∀ w ∈ [t], w ≠ [] ∧ ∀ b ∈ w, Text.isGraphic b := by
    intro w hw
    rw [List.mem_singleton.mp hw]
    exact ⟨hne, fun b hb => isPlain_isGraphic (h b hb)⟩
  simpa [Text.join] using Text.words_join graphic

/-- A plain text with spaces before it is read as its words, or as a register and the offset before it. -/
theorem operandWords_plain {t : Text} (hne : t ≠ []) (h : ∀ b ∈ t, isPlain b = true) (n : Nat) :
    Line.operandWords (List.replicate n 0x20 ++ t) =
      match indexed? t with
      | some (reg, offset) => .ok [reg, offset]
      | none => .ok [t] := by
  have hquote : (t.head? == some 0x27) = false := by
    cases hh : t.head? with
    | none => rfl
    | some b =>
      have hb := isPlain_not_isQuoteMark (h b (List.mem_of_head? hh))
      have : b ≠ 0x27 := by
        rintro rfl
        exact absurd hb (by decide)
      simp [this]
  have htrim : Text.trim (List.replicate n 0x20 ++ t) = t := Text.trim_spaces fun b hb => isPlain_isGraphic (h b hb)
  simp only [Line.operandWords, htrim, hquote, Bool.false_eq_true, if_false]
  cases indexed? t with
  | none => simp only [words_plain hne h]
  | some v => rfl

theorem indexed?_token {t : Text} (h : Token t) : indexed? t = none := by
  have hopen : 0x28 ∉ t := h.not_mem (by decide)
  simp [indexed?, hopen]

theorem Token.readAs {t : Text} (h : Token t) : ReadAs t [t] where
  ne_nil := h.ne_nil
  bytes := h.plain
  level := commas_flat 0 h.flat
  tight := tightenCalls_append (h.not_mem (by decide))
  words := by
    intro n
    rw [operandWords_plain h.ne_nil fun b hb => (h.plain b hb).1, indexed?_token h]

theorem name_token (r : Reg) : Token r.name := by
  have names : ∀ r : Reg, r.name ≠ [] ∧ r.name.all isTokenByte = true := by decide +kernel
  exact ⟨(names r).1, List.all_eq_true.mp (names r).2⟩

theorem ofText?_name (r : Reg) : Reg.ofText? r.name = some r := by
  have names : ∀ r : Reg, Reg.ofText? r.name = some r := by decide +kernel
  exact names r

/-- A word that names a register is a token: no register has a name with one of the letters that capitals outside
ASCII come down to. -/
theorem register_token {s t : Text} {r : Reg} (ht : t ∈ Text.words s) (h : Reg.ofText? t = some r) : Token t := by
  have names : ∀ e ∈ Reg.spellings, e.1 ≠ [] ∧
      e.1.all (fun b => decide ((b < 0x80 ∧ b ∉ [0, 0x69, 0x6B]) ∧ Text.isAlnumByte b = true)) = true := by
    decide +kernel
  have lower : ∀ b : UInt8, Text.isAlnumByte (Text.lowerByte b) = true → isTokenByte b = true :=
    Text.forall_byte (by decide +kernel)
  rw [Reg.ofText?, Text.trim_of_mem_words ht] at h
  obtain ⟨front, rest, e, _⟩ := List.lookup_eq_some_iff.mp h
  have hmem : (Text.toLower t, r) ∈ Reg.spellings := by
    rw [e]
    exact List.mem_append_right _ List.mem_cons_self
  obtain ⟨hne, hall⟩ := names _ hmem
  have hbytes := Text.forall_mem_of_all hall
  have hascii := Text.ascii_of_toLower fun b hb => (hbytes b hb).1
  refine ⟨?_, fun b hb => lower b (hbytes _ (Text.lowerByte_mem_toLower (hascii b hb) hb)).2⟩
  rintro rfl
  exact hne rfl

theorem trimCallBlanks_token {t : Text} (h : Token t) : trimCallBlanks t = t := by
  have keep : ∀ s : Text, (∀ b ∈ s, isTokenByte b = true) → s.dropWhile Text.isCallBlank = s := by
    intro s hs
    cases s with
    | nil => rfl
    | cons b s => simp [(isTokenByte_not_blank (hs b List.mem_cons_self)).2]
  rw [trimCallBlanks, keep t h.bytes, keep t.reverse fun b hb => h.bytes b (List.mem_reverse.mp hb), List.reverse_reverse]

theorem endsInCallName_token {t : Text} (h : Token t) : endsInCallName t = false := by
  have hhead : ((t.reverse.dropWhile Text.isWordByte).head? == some 0x25) = false := by
    cases hd : (t.reverse.dropWhile Text.isWordByte).head? with
    | none => rfl
    | some b =>
      have hmem : b ∈ t := List.mem_reverse.mp ((List.dropWhile_sublist _).subset (List.mem_of_head? hd))
      simpa using isTokenByte_ne (h.bytes b hmem) (c := 0x25) (by decide)
  simp [endsInCallName, hhead]

theorem not_mem_of_plain {s : Text} (h : ∀ b ∈ s, isPlain b = true) {c : UInt8} (hc : isPlain c = false) : c ∉ s := by
  intro hmem
  rw [h c hmem] at hc
  cases hc

theorem filter_space_plain {s : Text} (h : ∀ b ∈ s, isPlain b = true) : s.filter (· != 0x20) = s := by
  refine List.filter_eq_self.mpr fun b hb => ?_
  rw [bne_iff_ne]
  rintro rfl
  exact not_mem_of_plain h (by decide) hb

/-- A register in parentheses is taken apart from what stands before it, unless they are those of a call. -/
theorem indexed?_register {offset inner reg : Text} (hinner : ∀ b ∈ inner, b ≠ 0x28) (hreg : trimCallBlanks inner = reg)
    (hne : reg ≠ []) (halnum : reg.all Text.isAlnumByte = true) (hnamed : (Reg.ofText? reg).isSome = true)
    (hcall : endsInCallName offset = false) (hline : 0x0A ∉ offset) :
    indexed? (offset ++ 0x28 :: (inner ++ [0x29])) =
      some (reg, if (Text.trim offset).isEmpty then Text.ofString "0" else (Text.trim offset).filter (· != 0x20)) := by
  have hback : (offset ++ 0x28 :: (inner ++ [0x29])).reverse = (0x29 :: inner.reverse) ++ 0x28 :: offset.reverse := by
    simp
  have hopened : ∀ b ∈ 0x29 :: inner.reverse, (b != 0x28) = true := by
    intro b hb
    rcases List.mem_cons.mp hb with rfl | hb
    · decide
    · simpa using hinner b (List.mem_reverse.mp hb)
  obtain ⟨htake, hdrop⟩ := takeWhile_append_cons hopened 0x28 (by decide) offset.reverse
  have hopen : (offset ++ 0x28 :: (inner ++ [0x29])).contains 0x28 = true := by simp
  have hnewline : offset.contains 0x0A = false := by simpa using hline
  have hempty : reg.isEmpty = false := by simpa using hne
  simp only [indexed?, hback, htake, hdrop, hopen, List.reverse_cons, List.reverse_reverse, List.tail_cons,
    List.dropLast_concat, List.getLast?_concat, hreg, halnum, hnewline, hnamed, hcall, hempty]
  simp

/-- A register in parentheses is taken apart from the offset before it, unless they are those of a call. -/
theorem indexed?_parens {offset : Text} (hne : offset ≠ []) (h : ∀ b ∈ offset, isPlain b = true)
    (hcall : endsInCallName offset = false) (reg : Reg) :
    indexed? (offset ++ 0x28 :: (reg.name ++ [0x29])) = some (reg.name, offset) := by
  have hname := name_token reg
  have hoffset : Text.trim offset = offset := by
    have := Text.trim_spaces (n := 0) fun b hb => isPlain_isGraphic (h b hb)
    simpa using this
  have halnum : reg.name.all Text.isAlnumByte = true := by
    have names : ∀ r : Reg, r.name.all Text.isAlnumByte = true := by decide +kernel
    exact names reg
  have hempty : offset.isEmpty = false := by simpa using hne
  rw [indexed?_register (fun b hb => (hname.flat b hb).1) (trimCallBlanks_token hname) hname.ne_nil halnum
    (by rw [ofText?_name]; rfl) hcall (not_mem_of_plain h (by decide)), hoffset, hempty, if_neg Bool.false_ne_true,
    filter_space_plain h]

/-- An operand with a register in parentheses behind it is read as the register and the operand. -/
theorem readAs_indexed {offset : Text} (h : ReadAs offset [offset]) (hcall : endsInCallName offset = false) (reg : Reg) :
    ReadAs (offset ++ 0x28 :: (reg.name ++ [0x29])) [reg.name, offset] := by
  have hname := name_token reg
  have hparens : ∀ b ∈ 0x28 :: (reg.name ++ [0x29]), isPlain b = true ∧ b ≠ 0x23 := by
    intro b hb
    simp only [List.mem_cons, List.mem_append, List.not_mem_nil, or_false] at hb
    rcases hb with rfl | hb | rfl
    · decide
    · exact hname.plain b hb
    · decide
  have hbytes : ∀ b ∈ offset ++ 0x28 :: (reg.name ++ [0x29]), isPlain b = true ∧ b ≠ 0x23 := by
    intro b hb
    rcases List.mem_append.mp hb with hb | hb
    · exact h.bytes b hb
    · exact hparens b hb
  have hpercent : 0x25 ∉ 0x28 :: (reg.name ++ [0x29]) := by
    have := hname.not_mem (c := 0x25) (by decide)
    simp [this]
  refine ⟨by simp, hbytes, fun ms => ?_, fun r => ?_, fun n => ?_⟩
  · rw [List.map_append, List.append_assoc, h.level, commas_parens hname.flat, ← List.append_assoc]
    simp [unparted]
  · rw [List.append_assoc, h.tight, tightenCalls_append hpercent, List.append_assoc]
  · rw [operandWords_plain (by simp) fun b hb => (hbytes b hb).1,
      indexed?_parens h.ne_nil (fun b hb => (h.bytes b hb).1) hcall]

/-! ## Lines -/

/-- Code behind a label; an empty label is none. -/
def labelled (label code : Text) : Text := if label.isEmpty then code else label ++ ": " ++ code

theorem labelled_append (label s t : Text) : labelled label (s ++ t) = labelled label s ++ t := by
  unfold labelled
  split
  · rfl
  · simp only [List.append_assoc]

theorem mem_labelled {label s : Text} {b : UInt8} (h : b ∈ labelled label s) :
    b ∈ label ∨ b = 0x3A ∨ b = 0x20 ∨ b ∈ s := by
  unfold labelled at h
  split at h
  · exact Or.inr (Or.inr (Or.inr h))
  · rcases List.mem_append.mp h with h | h
    · rcases List.mem_append.mp h with h | h
      · exact Or.inl h
      · have hmark : b ∈ ([0x3A, 0x20] : Text) := h
        simp only [List.mem_cons, List.not_mem_nil, or_false] at hmark
        rcases hmark with hb | hb
        · exact Or.inr (Or.inl hb)
        · exact Or.inr (Or.inr (Or.inl hb))
    · exact Or.inr (Or.inr (Or.inr h))

/-- Words that are plain, so that single spaces between them are all that parts them. -/
def PlainWords (ws : List Text) : Prop := ∀ w ∈ ws, w ≠ [] ∧ ∀ b ∈ w, isPlain b = true

theorem PlainWords.words_join {ws : List Text} (h : PlainWords ws) : Text.words (Text.join " " ws) = ws :=
  Text.words_join fun w hw => ⟨(h w hw).1, fun b hb => isPlain_isGraphic ((h w hw).2 b hb)⟩

theorem PlainWords.bytes {ws : List Text} (h : PlainWords ws) : ∀ b ∈ Text.join " " ws, isPlain b = true ∨ b = 0x20 := by
  intro b hb
  rcases Text.mem_join hb with hb | ⟨w, hw, hb⟩
  · exact Or.inr (List.mem_singleton.mp hb)
  · exact Or.inl ((h w hw).2 b hb)

/-- The columns that a label stands in. -/
def labelColumns (label : Text) : List Text := if label.isEmpty then [] else [label ++ [0x3A]]

theorem labelColumns_bytes {label : Text} (h : ∀ b ∈ label, Text.isWordByte b = true) :
    ∀ c ∈ labelColumns label, c ≠ [] ∧ ∀ b ∈ c, isQuoteMark b = false ∧ Text.isColumnBlank b = false ∧ b ≠ 0x23 := by
  have word : ∀ b, Text.isWordByte b = true → isQuoteMark b = false ∧ Text.isColumnBlank b = false ∧ b ≠ 0x23 :=
    Text.forall_byte (by decide +kernel)
  intro c hc
  unfold labelColumns at hc
  split at hc
  · cases hc
  · rw [List.mem_singleton.mp hc]
    refine ⟨by simp, fun b hb => ?_⟩
    rcases List.mem_append.mp hb with hb | hb
    · exact word b (h b hb)
    · rw [List.mem_singleton.mp hb]
      decide

theorem labelled_join (label : Text) {ws : List Text} (hne : ws ≠ []) :
    labelled label (Text.join " " ws) = Text.join " " (labelColumns label ++ ws) := by
  obtain ⟨w, ws, rfl⟩ := List.exists_cons_of_ne_nil hne
  unfold labelled labelColumns
  cases label.isEmpty with
  | true => rfl
  | false =>
    simp only [Bool.false_eq_true, if_false, List.singleton_append]
    rw [Text.join_space_cons]
    simp only [List.append_assoc]
    rfl

/-- A space before plain words is taken off. -/
theorem PlainWords.trim_space {ws : List Text} (h : PlainWords ws) :
    Text.trim (0x20 :: Text.join " " ws) = Text.join " " ws := by
  have hfirst : ∀ b, (Text.join " " ws).head? = some b → Text.isGraphic b = true := by
    intro b hb
    cases ws with
    | nil => cases hb
    | cons w ws =>
      have hw := h w List.mem_cons_self
      rw [Text.head?_join hw.1] at hb
      exact isPlain_isGraphic (hw.2 b (List.mem_of_head? hb))
  have hlast : ∀ b, (Text.join " " ws).getLast? = some b → Text.isGraphic b = true := by
    intro b hb
    obtain ⟨w, hw, hb⟩ := Text.getLast?_join (fun w hw => (h w hw).1) hb
    exact isPlain_isGraphic ((h w hw).2 b (List.mem_of_getLast? hb))
  exact Text.trim_spaces_of_ends (n := 1) hfirst hlast

/-- What stands behind a label, with a space between them, is the body of the statement if it has no white space at its
ends. -/
theorem ofCode_label {label : Text} (hne : label ≠ []) (hlabel : ∀ b ∈ label, Text.isWordByte b = true) {s : Text}
    (htrim : Text.trim (0x20 :: s) = s) : Statement.ofCode (labelled label s) = ⟨label, s⟩ := by
  have hcode : labelled label s = (label ++ [0x3A]) ++ 0x20 :: s := by
    rw [labelled, if_neg (by simpa using hne), List.append_assoc, List.append_assoc]
    rfl
  have hfirst : ∀ b ∈ label ++ [0x3A], (!Text.isGap b) = true := by
    intro b hb
    rcases List.mem_append.mp hb with hb | hb
    · exact isPlain_not_isGap (isPlain_of_isWordByte (hlabel b hb))
    · rw [List.mem_singleton.mp hb]
      decide
  obtain ⟨htake, hdrop⟩ := takeWhile_append_cons hfirst 0x20 (by decide) s
  have hquote : (label ++ [0x3A]).any isQuoteMark = false := by
    rw [List.any_eq_false]
    intro b hb
    rcases List.mem_append.mp hb with hb | hb
    · simp [isPlain_not_isQuoteMark (isPlain_of_isWordByte (hlabel b hb))]
    · rw [List.mem_singleton.mp hb]
      decide
  have hlabelled : isLabelled (labelled label s) = true := by
    rw [isLabelled, hcode, htake, hquote, (endsWith_colon _).mpr List.getLast?_concat]
    rfl
  rw [ofCode_labelled hlabelled, hcode, htake, hdrop, List.dropLast_concat, htrim]

/-- Plain words behind a label are the body of a statement with that label. -/
theorem ofCode_labelled_join {label : Text} (hlabel : ∀ b ∈ label, Text.isWordByte b = true) {ws : List Text}
    (h : PlainWords ws) : Statement.ofCode (labelled label (Text.join " " ws)) = ⟨label, Text.join " " ws⟩ := by
  by_cases hempty : label = []
  · subst hempty
    refine ofCode_unlabelled (isLabelled_of_noColon fun hcolon => ?_)
    rcases h.bytes _ hcolon with hb | hb
    · exact isPlain_ne_colon hb rfl
    · exact absurd hb (by decide)
  · exact ofCode_label hempty hlabel h.trim_space

/-- The columns of operands, the first of which is `s`. -/
def columnsFrom : (s : Text) → List Text → List Text
  | s, [] => [s]
  | s, t :: ts => (s ++ [0x2C]) :: columnsFrom t ts

theorem join_cons_columns (name s : Text) (ts : List Text) :
    Text.join " " (name :: columnsFrom s ts) = name ++ 0x20 :: (s ++ trailing ts) := by
  induction ts generalizing name s with
  | nil =>
    rw [columnsFrom, Text.join_space_cons]
    simp [Text.join, trailing]
  | cons t ts ih =>
    rw [columnsFrom, Text.join_space_cons, ih]
    simp [trailing]

theorem columnsFrom_forall {P : UInt8 → Prop} (hcomma : P 0x2C) {s : Text} (hs : s ≠ [] ∧ ∀ b ∈ s, P b)
    {ts : List Text} (h : ∀ t ∈ ts, t ≠ [] ∧ ∀ b ∈ t, P b) : ∀ c ∈ columnsFrom s ts, c ≠ [] ∧ ∀ b ∈ c, P b := by
  induction ts generalizing s with
  | nil =>
    intro c hc
    rw [List.mem_singleton.mp hc]
    exact hs
  | cons t ts ih =>
    intro c hc
    rcases List.mem_cons.mp hc with rfl | hc
    · refine ⟨by simp, fun b hb => ?_⟩
      rcases List.mem_append.mp hb with hb | hb
      · exact hs.2 b hb
      · rw [List.mem_singleton.mp hb]
        exact hcomma
    · exact ih (h t List.mem_cons_self) (fun v hv => h v (List.mem_cons_of_mem _ hv)) c hc

/-- A line of words, parted by single spaces, behind a label. -/
def Line.ofLabelled (number : Nat) (label : Text) (ws : List Text) : Line :=
  { number, text := labelled label (Text.join " " ws) }

/-- A line of tokens, parted by single spaces. -/
def Line.ofWords (number : Nat) (ws : List Text) : Line := { number, text := Text.join " " ws }

section Rows

variable {name : Text} {o : Text × List Text} {os : List (Text × List Text)}

theorem columnsFrom_plain (hname : Token name) (ho : ReadAs o.1 o.2) (h : ∀ v ∈ os, ReadAs v.1 v.2) :
    ∀ c ∈ name :: columnsFrom o.1 (os.map Prod.fst), c ≠ [] ∧ ∀ b ∈ c, isPlain b = true ∧ b ≠ 0x23 := by
  intro c hc
  rcases List.mem_cons.mp hc with rfl | hc
  · exact ⟨hname.ne_nil, hname.plain⟩
  · refine columnsFrom_forall (by decide) ⟨ho.ne_nil, ho.bytes⟩ (fun t ht => ?_) c hc
    obtain ⟨v, hv, rfl⟩ := List.mem_map.mp ht
    exact ⟨(h v hv).ne_nil, (h v hv).bytes⟩

theorem instructionWords_operands (hname : Token name) (ho : ReadAs o.1 o.2) (h : ∀ v ∈ os, ReadAs v.1 v.2) :
    Line.instructionWords (name ++ 0x20 :: (o.1 ++ trailing (os.map Prod.fst))) =
      .ok (name :: (o :: os).flatMap Prod.snd) := by
  have htight : tightenCalls (name ++ 0x20 :: (o.1 ++ trailing (os.map Prod.fst))) =
      name ++ 0x20 :: (o.1 ++ trailing (os.map Prod.fst)) := by
    rw [tightenCalls_append (hname.not_mem (by decide)), tightenCalls_cons (by decide), ho.tight, tightenCalls_trailing h]
  have hfirst : ∀ b ∈ name, (b != 0x20) = true := by
    intro b hb
    simpa using isTokenByte_ne (hname.bytes b hb) (c := 0x20) (by decide)
  obtain ⟨htake, hdrop⟩ := takeWhile_append_cons hfirst 0x20 (by decide) (o.1 ++ trailing (os.map Prod.fst))
  have hoperands : Line.allOperandWords (o.1 :: os.map fun v => 0x20 :: v.1) = .ok ((o :: os).flatMap Prod.snd) := by
    have := ho.words 0
    rw [List.replicate_zero, List.nil_append] at this
    simp only [Line.allOperandWords, this, allOperandWords_spaced h, List.flatMap_cons]
  simp only [Line.instructionWords, htight, htake, hdrop, splitOperands_trailing ho h, hoperands]

/-- An instruction written as its name and its operands, behind a label, is read as its words. -/
theorem ofRaw_operands (number : Nat) {label : Text} (hlabel : ∀ b ∈ label, Text.isWordByte b = true)
    (hname : Token name) (ho : ReadAs o.1 o.2) (h : ∀ v ∈ os, ReadAs v.1 v.2) :
    Line.ofRaw number (labelled label (name ++ 0x20 :: (o.1 ++ trailing (os.map Prod.fst)))) =
      .ofLabelled number label (name :: (o :: os).flatMap Prod.snd) := by
  have hcode := columnsFrom_plain hname ho h
  have hwords := instructionWords_operands hname ho h
  rw [← join_cons_columns] at hwords ⊢
  generalize hcs : name :: columnsFrom o.1 (os.map Prod.fst) = cs at hcode hwords ⊢
  have hne : cs ≠ [] := hcs ▸ List.cons_ne_nil _ _
  have hcolumns : ∀ c ∈ labelColumns label ++ cs,
      c ≠ [] ∧ ∀ b ∈ c, isQuoteMark b = false ∧ Text.isColumnBlank b = false ∧ b ≠ 0x23 := by
    intro c hc
    rcases List.mem_append.mp hc with hc | hc
    · exact labelColumns_bytes hlabel c hc
    · refine ⟨(hcode c hc).1, fun b hb => ?_⟩
      obtain ⟨hplain, hhash⟩ := (hcode c hc).2 b hb
      exact ⟨isPlain_not_isQuoteMark hplain, (isPlain_not_blank hplain).1, hhash⟩
  have hcomment : splitComment (labelled label (Text.join " " cs)) = (labelled label (Text.join " " cs), []) := by
    rw [labelled_join label hne]
    refine splitComment_of_noHash fun b hb => ?_
    rcases Text.mem_join hb with hb | ⟨c, hc, hb⟩
    · rw [List.mem_singleton.mp hb]
      decide
    · exact ⟨((hcolumns c hc).2 b hb).1, ((hcolumns c hc).2 b hb).2.2⟩
  have hcollapse : collapse (labelled label (Text.join " " cs)) = labelled label (Text.join " " cs) := by
    rw [labelled_join label hne]
    exact collapse_join (by simp [hne]) fun c hc =>
      ⟨(hcolumns c hc).1, fun b hb => ⟨((hcolumns c hc).2 b hb).1, ((hcolumns c hc).2 b hb).2.1⟩⟩
  have hplain : PlainWords cs := fun c hc => ⟨(hcode c hc).1, fun b hb => ((hcode c hc).2 b hb).1⟩
  have hstatement := ofCode_labelled_join hlabel hplain
  obtain ⟨b, r, hb⟩ := List.exists_cons_of_ne_nil hname.ne_nil
  have hhead : (Text.join " " cs).head? = some b := by
    rw [← hcs, Text.head?_join hname.ne_nil, hb]
    rfl
  have hdot : b ≠ 0x2E := isTokenByte_ne (hname.bytes b (hb ▸ List.mem_cons_self)) (by decide)
  obtain ⟨r', hr'⟩ := List.head?_eq_some_iff.mp hhead
  have hempty : (labelled label (Text.join " " cs)).isEmpty = false := by
    rw [labelled, hr']
    split <;> simp
  simp only [Line.ofRaw, hcomment, hcollapse, hstatement, hwords, hempty]
  simp [hr', hdot, Line.ofLabelled, labelled]

end Rows

/-! ## Operands as they are rendered -/

/-- An operand as it is written: a token, or an offset before a register in parentheses. -/
inductive Written where
  | token (text : Text)
  | indexed (offset : Text) (reg : Reg)

namespace Written

def text : Written → Text
  | .token t => t
  | .indexed offset reg => offset ++ 0x28 :: (reg.name ++ [0x29])

/-- The words that the operand is read as. -/
def words : Written → List Text
  | .token t => [t]
  | .indexed offset reg => [reg.name, offset]

/-- The parts of the operand are names and numbers. -/
def WellFormed : Written → Prop
  | .token t => Token t
  | .indexed offset _ => Token offset

theorem isLineByte {w : Written} (h : w.WellFormed) : ∀ b ∈ w.text, isLineByte b = true := by
  cases w with
  | token t => exact fun b hb => isTokenByte_isLineByte (h.bytes b hb)
  | indexed offset reg =>
    intro b hb
    simp only [text, List.mem_append, List.mem_cons, List.not_mem_nil, or_false] at hb
    rcases hb with hb | rfl | hb | rfl
    · exact isTokenByte_isLineByte (Token.bytes h b hb)
    · decide
    · exact isTokenByte_isLineByte ((name_token reg).bytes b hb)
    · decide

theorem readAs {w : Written} (h : w.WellFormed) : ReadAs w.text w.words := by
  cases w with
  | token t => exact Token.readAs h
  | indexed offset reg => exact readAs_indexed (Token.readAs h) (endsInCallName_token h) reg

end Written

/-- Operands behind the first one, as they are written. -/
def followers (ws : List Written) : Text := ws.flatMap fun w => 0x2C :: 0x20 :: w.text

theorem followers_eq (ws : List Written) : followers ws = trailing ((ws.map fun w => (w.text, w.words)).map Prod.fst) := by
  simp [followers, trailing, List.flatMap_map]

theorem join_text (w : Written) (ws : List Written) :
    Text.join ", " ((w :: ws).map Written.text) = w.text ++ followers ws := by
  rw [List.map_cons, join_comma, followers_eq, List.map_map]
  rfl

theorem isLineByte_instruction {name : Text} (hname : Token name) {w : Written} {ws : List Written}
    (hw : w.WellFormed) (h : ∀ w ∈ ws, w.WellFormed) :
    ∀ b ∈ name ++ 0x20 :: (w.text ++ followers ws), isLineByte b = true := by
  have hfollowers : ∀ b ∈ followers ws, isLineByte b = true := by
    intro b hb
    obtain ⟨v, hv, hb⟩ := List.mem_flatMap.mp hb
    rcases List.mem_cons.mp hb with rfl | hb
    · decide
    · rcases List.mem_cons.mp hb with rfl | hb
      · decide
      · exact Written.isLineByte (h v hv) b hb
  intro b hb
  rcases List.mem_append.mp hb with hb | hb
  · exact isTokenByte_isLineByte (hname.bytes b hb)
  · rcases List.mem_cons.mp hb with rfl | hb
    · decide
    · rcases List.mem_append.mp hb with hb | hb
      · exact Written.isLineByte hw b hb
      · exact hfollowers b hb

/-- An instruction written as its name and its operands is read as its words. -/
theorem ofRaw_instruction (number : Nat) {name : Text} (hname : Token name) {w : Written} {ws : List Written}
    (hw : w.WellFormed) (h : ∀ w ∈ ws, w.WellFormed) :
    Line.ofRaw number (name ++ 0x20 :: (w.text ++ followers ws)) =
      .ofWords number (name :: (w :: ws).flatMap Written.words) := by
  have hoperands : ∀ v ∈ ws.map fun w => (w.text, w.words), ReadAs v.1 v.2 := by
    intro v hv
    obtain ⟨w, hw, rfl⟩ := List.mem_map.mp hv
    exact Written.readAs (h w hw)
  have hlabel : ∀ b ∈ ([] : Text), Text.isWordByte b = true := by simp
  have := ofRaw_operands number hlabel hname (o := (w.text, w.words)) (Written.readAs hw) hoperands
  rw [followers_eq]
  simpa [labelled, Line.ofLabelled, Line.ofWords, List.flatMap_map] using this

/-- A line with nothing but a comment on it is blank. -/
theorem ofRaw_comment (number : Nat) (r : Text) : (Line.ofRaw number (0x20 :: 0x23 :: r)).isBlank = true := by
  have hcode : (splitComment (0x20 :: 0x23 :: r)).1 = [0x20] := rfl
  have hempty : collapse [0x20] = [] := by decide
  simp only [Line.ofRaw, hcode, hempty]
  rfl

/-- A token, or the name of a directive, which has a dot. -/
structure Dotted (s : Text) : Prop where
  ne_nil : s ≠ []
  bytes : ∀ b ∈ s, isTokenByte b = true ∨ b = 0x2E

theorem Token.dotted {t : Text} (h : Token t) : Dotted t := ⟨h.ne_nil, fun b hb => Or.inl (h.bytes b hb)⟩

theorem Dotted.not_blank {t : Text} (h : Dotted t) :
    ∀ b ∈ t, isQuoteMark b = false ∧ Text.isColumnBlank b = false := by
  intro b hb
  rcases h.bytes b hb with hb | rfl
  · exact ⟨isLineByte_noQuote (isTokenByte_isLineByte hb), (isTokenByte_not_blank hb).1⟩
  · decide

theorem join_dotted {ws : List Text} (h : ∀ w ∈ ws, Dotted w) :
    ∀ b ∈ Text.join " " ws, isQuoteMark b = false ∧ b ≠ 0x23 ∧ b ≠ 0x3A := by
  intro b hb
  rcases Text.mem_join hb with hb | ⟨w, hw, hb⟩
  · rw [List.mem_singleton.mp hb]
    decide
  · refine ⟨((h w hw).not_blank b hb).1, ?_⟩
    rcases (h w hw).bytes b hb with hb | rfl
    · exact ⟨isTokenByte_ne hb (by decide), isTokenByte_ne hb (by decide)⟩
    · decide

/-- A directive is read as it is written. -/
theorem ofRaw_directive (number : Nat) {name : Text} {ws : List Text} (hdot : name.head? = some 0x2E)
    (h : ∀ w ∈ name :: ws, Dotted w) : Line.ofRaw number (Text.join " " (name :: ws)) = .ofWords number (name :: ws) := by
  have hbytes := join_dotted h
  have hcomment := splitComment_of_noHash fun b hb => ⟨(hbytes b hb).1, (hbytes b hb).2.1⟩
  have hcollapse := collapse_join (List.cons_ne_nil _ _) fun w hw => ⟨(h w hw).ne_nil, (h w hw).not_blank⟩
  have hstatement := ofCode_unlabelled (isLabelled_of_noColon fun hb => (hbytes _ hb).2.2 rfl)
  have hhead : (Text.join " " (name :: ws)).head? = some 0x2E := by
    cases ws with
    | nil => simpa [Text.join] using hdot
    | cons v ws => rw [Text.join_space_cons, List.head?_append, hdot, Option.some_or]
  have hne : (Text.join " " (name :: ws)).isEmpty = false := by
    cases hj : Text.join " " (name :: ws) with
    | nil =>
      rw [hj] at hhead
      cases hhead
    | cons b r => rfl
  simp only [Line.ofRaw, hcomment, hcollapse, hstatement, hhead, hne]
  rfl

namespace Line

variable (number : Nat) {ws : List Text}

theorem ofWords_bytes (h : ∀ w ∈ ws, Token w) : ∀ b ∈ (ofWords number ws).text, isLineByte b = true := by
  intro b hb
  rcases Text.mem_join hb with hb | ⟨w, hw, hb⟩
  · rw [List.mem_singleton.mp hb]
    decide
  · exact isTokenByte_isLineByte ((h w hw).bytes b hb)

theorem ofWords_statement (h : ∀ w ∈ ws, Dotted w) : (ofWords number ws).statement = ⟨[], (ofWords number ws).text⟩ :=
  ofCode_unlabelled (isLabelled_of_noColon fun hb => (join_dotted h _ hb).2.2 rfl)

theorem ofWords_words (h : ∀ w ∈ ws, Dotted w) : (ofWords number ws).words = ws := by
  refine Text.words_join fun w hw => ⟨(h w hw).ne_nil, fun b hb => ?_⟩
  rcases (h w hw).bytes b hb with hb | rfl
  · exact isTokenByte_isGraphic hb
  · decide

theorem ofWords_head {name : Text} (hname : Token name) (ws : List Text) :
    ∃ b, isTokenByte b = true ∧ (ofWords number (name :: ws)).text.head? = some b := by
  obtain ⟨b, r, hb⟩ := List.exists_cons_of_ne_nil hname.ne_nil
  refine ⟨b, hname.bytes b (hb ▸ List.mem_cons_self), ?_⟩
  cases ws with
  | nil => simp [ofWords, Text.join, hb]
  | cons v ws => simp [ofWords, Text.join_space_cons, hb]

end Line

/-! ## Files -/

theorem unifyEnds_of_not_mem {s : Text} (h : 0x0D ∉ s) : Line.unifyEnds s = s := by
  fun_induction Line.unifyEnds s with
  | case1 => rfl
  | case2 b => rfl
  | case3 b c r hbc ih =>
    have hb : b = 0x0D := by simpa using (Bool.and_eq_true_iff.mp hbc).1
    exact absurd List.mem_cons_self (hb ▸ h)
  | case4 b c r hbc ih => rw [ih fun hc => h (List.mem_cons_of_mem _ hc)]

theorem pieces_unlines {rows : List Text} (h : ∀ row ∈ rows, 0x0A ∉ row) :
    Text.pieces (· == 0x0A) (Text.unlines rows) = rows ++ [[]] := by
  induction rows with
  | nil => rfl
  | cons row rows ih =>
    have hrow : ∀ b ∈ row, (b == 0x0A) = false := by
      intro b hb
      rw [beq_eq_false_iff_ne]
      rintro rfl
      exact h row List.mem_cons_self hb
    have hsplit : Text.unlines (row :: rows) = row ++ 0x0A :: Text.unlines rows := by simp [Text.unlines]
    rw [hsplit, Text.pieces_append_cons hrow (by decide), ih fun r hr => h r (List.mem_cons_of_mem _ hr)]
    rfl

theorem not_mem_unlines {rows : List Text} {b : UInt8} (hb : b ≠ 0x0A) (h : ∀ row ∈ rows, b ∉ row) :
    b ∉ Text.unlines rows := by
  intro hmem
  obtain ⟨row, hrow, hmem⟩ := List.mem_flatMap.mp hmem
  rcases List.mem_append.mp hmem with hmem | hmem
  · exact h row hrow hmem
  · exact hb (List.mem_singleton.mp hmem)

/-- Lines put together to a file are the lines of that file. -/
theorem rawLines_unlines {rows : List Text} (h : ∀ row ∈ rows, 0x0A ∉ row ∧ 0x0D ∉ row) :
    Line.rawLines (Text.unlines rows) = rows := by
  have hreturn : 0x0D ∉ Text.unlines rows := not_mem_unlines (by decide) fun row hrow => (h row hrow).2
  rw [Line.rawLines, unifyEnds_of_not_mem hreturn, pieces_unlines fun row hrow => (h row hrow).1]
  simp

end Source

end Rv32Tools
