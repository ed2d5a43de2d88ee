import Rv32Tools.Proofs.Source.Spans

/-
  Rv32Tools.Proofs.Source.Strings — strings as a source spells them.

  `quoted` writes bytes between double quotes: a backslash, a double quote, a line feed, a carriage return and a tab by
  their escapes, every other byte as it is. What is written so
  - stands for the bytes it was made of (`unquote_escaped`),
  - is one quoted part of a line, whatever bytes it has (`whole_quoted`), and holds no end of line (`quoted_oneLine`).

  So it is one column of a line (`column_quoted`), and a line `label: .string ".."` with blanks around its columns and a
  comment behind them (`StringRow`) is read as its label and its directive with the string untouched (`ofRaw_string`).
-/

namespace Rv32Tools

namespace Source

/-! ## Escapes -/

/-- The byte that stands for `b` behind a backslash, if `b` is not written as it is. -/
def escapeCode? (b : UInt8) : Option UInt8 :=
  match b with
  | 0x5C => some 0x5C
  | 0x22 => some 0x22
  | 0x0A => some 0x6E
  | 0x0D => some 0x72
  | 0x09 => some 0x74
  | _ => none

/-- A byte as it is spelled in a string. -/
def escaped (b : UInt8) : Text :=
  match escapeCode? b with
  | some code => [0x5C, code]
  | none => [b]

/-- Bytes as a string in double quotes. -/
def quoted (bytes : List UInt8) : Text := 0x22 :: (bytes.flatMap escaped ++ [0x22])

/-- A byte is spelled by its escape, or as it is if it is no mark of strings and no end of a line. -/
theorem escaped_cases (b : UInt8) :
    (∃ code, escaped b = [0x5C, code] ∧ escapeValue? code = some b ∧ code ≠ 0x27 ∧ code ≠ 0x0A) ∨
      escaped b = [b] ∧ b ≠ 0x5C ∧ b ≠ 0x22 ∧ b ≠ 0x0A := by
  have codes : ∀ b : UInt8, (escapeCode? b).all
      (fun code => decide (escapeValue? code = some b ∧ code ≠ 0x27 ∧ code ≠ 0x0A)) = true :=
    Text.forall_byte (by decide +kernel)
  have plain : ∀ b : UInt8, escapeCode? b = none → b ≠ 0x5C ∧ b ≠ 0x22 ∧ b ≠ 0x0A :=
    Text.forall_byte (by decide +kernel)
  unfold escaped
  cases h : escapeCode? b with
  | some code =>
    have hcode := codes b
    rw [h, Option.all_some] at hcode
    exact Or.inl ⟨code, rfl, of_decide_eq_true hcode⟩
  | none => exact Or.inr ⟨rfl, plain b h⟩

theorem unquote_cons {b : UInt8} (hb : b ≠ 0x5C) (hb' : b ≠ 0x22) {r s : Text} (h : unquote r = .ok s) :
    unquote (b :: r) = .ok (b :: s) := by
  cases r with
  | nil =>
    cases h
    simp [unquote, hb, hb']
  | cons c r => simp [unquote, hb, hb', h]

/-- What bytes are spelled as stands for these bytes. -/
theorem unquote_escaped (bytes : List UInt8) : unquote (bytes.flatMap escaped) = .ok bytes := by
  induction bytes with
  | nil => rfl
  | cons b bytes ih =>
    rw [List.flatMap_cons]
    rcases escaped_cases b with ⟨code, he, hvalue, hmark, _⟩ | ⟨he, hslash, hquote, _⟩
    · rw [he]
      simp [unquote, hvalue, hmark, ih]
    · rw [he]
      exact unquote_cons hslash hquote ih

/-! ## Quotes -/

/-- What bytes are spelled as can stand between double quotes. -/
theorem body_escaped (bytes : List UInt8) : Body 0x22 (bytes.flatMap escaped) := by
  induction bytes with
  | nil => exact .nil
  | cons b bytes ih =>
    rw [List.flatMap_cons]
    rcases escaped_cases b with ⟨code, he, _⟩ | ⟨he, hslash, hquote, _⟩
    · rw [he]
      exact .escape ih
    · rw [he]
      exact .byte hquote hslash ih

theorem whole_quoted (bytes : List UInt8) : (Span.quoted 0x22 (bytes.flatMap escaped ++ [0x22])).Whole :=
  .quoted (by decide) (body_escaped bytes)

/-- A string is a column, with all its blanks and hashes. -/
theorem column_quoted (bytes : List UInt8) : Column (quoted bytes) := (whole_quoted bytes).column

/-- A string stays on its line, also if its bytes hold ends of lines. -/
theorem quoted_oneLine (bytes : List UInt8) : 0x0A ∉ quoted bytes := by
  have hinner : 0x0A ∉ bytes.flatMap escaped := by
    intro hmem
    obtain ⟨b, _, hb⟩ := List.mem_flatMap.mp hmem
    rcases escaped_cases b with ⟨code, he, _, _, hcode⟩ | ⟨he, _, _, hfeed⟩
    · rw [he] at hb
      simp [hcode.symm] at hb
    · rw [he] at hb
      exact hfeed (List.mem_singleton.mp hb).symm
  simp [quoted, hinner]

theorem quoted_head? (bytes : List UInt8) : (quoted bytes).head? = some 0x22 := rfl

theorem quoted_getLast? (bytes : List UInt8) : (quoted bytes).getLast? = some 0x22 := by
  rw [quoted, ← List.cons_append, List.getLast?_concat]

theorem inner_quoted (bytes : List UInt8) : Text.inner (quoted bytes) = bytes.flatMap escaped := by
  rw [Text.inner, quoted, List.tail_cons, List.dropLast_concat]

theorem enclosedBy_quoted (bytes : List UInt8) : Text.enclosedBy 0x22 (quoted bytes) = true := by
  have hlen : 2 ≤ (quoted bytes).length := by simp [quoted]
  rw [Text.enclosedBy, quoted_head?, quoted_getLast?]
  simp [hlen]

/-! ## A line with a string -/

/-- The columns of the line `label: .string ".."` with the given bytes. -/
def stringColumns (label : Text) (bytes : List UInt8) : List Text := [label ++ [0x3A], ".string", quoted bytes]

/-- Such a line: spaces or tabs stand before it, between its columns and behind it, and perhaps a comment. -/
def StringRow (label : Text) (bytes : List UInt8) (raw : Text) : Prop :=
  ∃ indent s, Gap indent ∧ Spread (stringColumns label bytes) s ∧ raw = indent ++ s

theorem StringRow.ne_nil {label : Text} {bytes : List UInt8} {raw : Text} (h : StringRow label bytes raw) : raw ≠ [] := by
  obtain ⟨indent, s, _, hs, rfl⟩ := h
  cases hs with
  | cons => simp

/-- The directive of such a line in one spelling. -/
def stringBody (bytes : List UInt8) : Text := Text.ofString ".string" ++ 0x20 :: quoted bytes

theorem stringBody_trim (bytes : List UInt8) : Text.trim (0x20 :: stringBody bytes) = stringBody bytes := by
  have hlast : (stringBody bytes).getLast? = some 0x22 := by
    have hne : quoted bytes ≠ [] := List.cons_ne_nil _ _
    rw [stringBody, ← List.singleton_append (x := 0x20), ← List.append_assoc, List.getLast?_append_of_ne_nil _ hne,
      quoted_getLast?]
  exact Text.trim_space (a := 0x2E) (by decide) (by decide) rfl hlast

/-- Such a line is one line. -/
theorem StringRow.oneLine {label : Text} (hlabel : ∀ b ∈ label, Text.isWordByte b = true) {bytes : List UInt8} {raw : Text}
    (h : StringRow label bytes raw) : 0x0A ∉ raw := by
  obtain ⟨indent, s, hindent, hs, rfl⟩ := h
  have hcolumns : ∀ c ∈ stringColumns label bytes, 0x0A ∉ c := by
    intro c hc
    simp only [stringColumns, List.mem_cons, List.not_mem_nil, or_false] at hc
    rcases hc with rfl | rfl | rfl
    · have hfeed : 0x0A ∉ label := fun hmem => absurd (hlabel _ hmem) (by decide)
      simp [hfeed]
    · decide +kernel
    · exact quoted_oneLine bytes
  simp [hindent.oneLine, hs.oneLine hcolumns]

theorem stringColumns_column {label : Text} (hlabel : ∀ b ∈ label, Text.isWordByte b = true) (bytes : List UInt8) :
    ∀ c ∈ stringColumns label bytes, Column c := by
  have word : ∀ b, Text.isWordByte b = true → isQuoteMark b = false ∧ Text.isColumnBlank b = false ∧ b ≠ 0x23 :=
    Text.forall_byte (by decide +kernel)
  have hfirst : Column (label ++ [0x3A]) := by
    refine column_of_noQuote (by simp) fun b hb => ?_
    rcases List.mem_append.mp hb with hb | hb
    · exact word b (hlabel b hb)
    · rw [List.mem_singleton.mp hb]
      decide
  have hname : Column (Text.ofString ".string") := column_of_noQuote (by decide +kernel) (by decide +kernel)
  intro c hc
  simp only [stringColumns, List.mem_cons, List.not_mem_nil, or_false] at hc
  rcases hc with rfl | rfl | rfl
  · exact hfirst
  · exact hname
  · exact column_quoted bytes

/-- A line with a string is read as its label and its directive, with the string as it was written. -/
theorem ofRaw_string {label : Text} (hne : label ≠ []) (hlabel : ∀ b ∈ label, Text.isWordByte b = true)
    {bytes : List UInt8} {raw : Text} (h : StringRow label bytes raw) (number : Nat) :
    (Line.ofRaw number raw).statement = ⟨label, stringBody bytes⟩ ∧ (Line.ofRaw number raw).fault = none := by
  obtain ⟨indent, s, hindent, hs, rfl⟩ := h
  have hcode : collapse (splitComment (indent ++ s)).1 = labelled label (stringBody bytes) := by
    rw [collapse_spread hindent hs (stringColumns_column hlabel bytes), stringColumns, Text.join_space_cons,
      Text.join_space_cons, labelled, if_neg (by simpa using hne), List.append_assoc, List.append_assoc]
    rw [Text.join, List.intercalate_singleton, stringBody]
    rfl
  have hst := ofCode_label hne hlabel (stringBody_trim bytes)
  have hcodene : (labelled label (stringBody bytes)).isEmpty = false := by
    rw [labelled, if_neg (by simpa using hne)]
    simp [hne]
  have hraw : Line.ofRaw number (indent ++ s) =
      { number, comment := (splitComment (indent ++ s)).2, text := labelled label (stringBody bytes) } := by
    rw [Line.ofRaw]
    simp only [hcode, hst, hcodene]
    rfl
  rw [hraw]
  exact ⟨hst, rfl⟩

end Source

end Rv32Tools
