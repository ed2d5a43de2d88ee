import Mathlib.Algebra.Group.Int.Defs
import Rv32Tools.Assembly.Encoding
import Rv32Tools.Proofs.Assembly.SymbolHistory
import Rv32Tools.Proofs.Text.Digits

/-
  Rv32Tools.Proofs.Assembly.Resolution — what an operand stands for.

  A literal is a sign, if any, and a magnitude: one decimal digit or more, or `0x` and one hexadecimal digit or more
  (`Literal`). What is read as a number is the text of a literal whose value is in range, and nothing else
  (`number?_eq_some_iff`). A name starts with a letter, so it is no literal, and in a table that a history leaves each
  token is a literal, the name of a label or invalid, and no two of them (`operands_resolved`).
-/

namespace Rv32Tools

open Text (Digit Sign)

/-! ## Literals -/

/-- A number without a sign: digits of which there is a first. -/
inductive Magnitude where
  | decimal (first : Digit 10) (rest : List (Digit 10))
  | hex (capital : Bool) (first : Digit 16) (rest : List (Digit 16))

namespace Magnitude

def text : Magnitude → Text
  | .decimal first rest => (first :: rest).map Digit.byte
  | .hex capital first rest => Text.hexNumeral capital ((first :: rest).map Digit.byte)

def value : Magnitude → Nat
  | .decimal first rest => Digit.number (first :: rest)
  | .hex _ first rest => Digit.number (first :: rest)

theorem text_head (m : Magnitude) : ∃ b r, m.text = b :: r ∧ Text.isDigitByte b = true := by
  cases m with
  | decimal first rest => exact ⟨_, _, rfl, first.byte_isDigitByte⟩
  | hex capital first rest => exact ⟨_, _, rfl, by decide⟩

end Magnitude

structure Literal where
  sign : Sign
  magnitude : Magnitude

namespace Literal

def text (l : Literal) : Text := l.sign.text ++ l.magnitude.text

def value (l : Literal) : Int := l.sign.apply l.magnitude.value

/-- The token is a literal with a value that fits in 32 bits, with a sign or without. -/
def Denotes (token : Text) (v : Int) : Prop :=
  ∃ l : Literal, l.text = token ∧ l.value = v ∧ -2 ^ 31 ≤ v ∧ v ≤ 2 ^ 32 - 1

end Literal

namespace Source

/-- A magnitude is read as its value, if that fits. -/
theorem magnitude?_text (m : Magnitude) : magnitude? m.text = if m.value ≤ 0xFFFFFFFF then some m.value else none := by
  unfold magnitude?
  cases m with
  | decimal first rest =>
    have hdigits : hexDigits? ((first :: rest).map Digit.byte) = none := Text.hexDigits?_decimal .absent (first :: rest)
    rw [Magnitude.text, Magnitude.value, hdigits]
    simp only [Text.natural_digits (by decide : 10 ≤ 36) (List.cons_ne_nil first rest)]
    split <;> rfl
  | hex capital first rest =>
    rw [Magnitude.text, Magnitude.value, Text.hexDigits?_eq_some_iff.mpr ⟨capital, rfl⟩]
    simp only [Text.natural_digits (by decide : 16 ≤ 36) (List.cons_ne_nil first rest)]
    split <;> rfl

theorem natural_toOption_eq_some {base bound : Nat} (hb : base ≤ 36) {s : Text} {n : Nat}
    (h : (Text.natural base bound s).toOption = some n) :
    ∃ (first : Digit base) (rest : List (Digit base)), (first :: rest).map Digit.byte = s := by
  obtain ⟨ds, hne, hs, _⟩ := (Text.natural_eq_ok_iff hb).mp (toOption_eq_some h)
  obtain ⟨first, rest, rfl⟩ := List.exists_cons_of_ne_nil hne
  exact ⟨first, rest, hs.symm⟩

theorem exists_magnitude {s : Text} {n : Nat} (h : magnitude? s = some n) : ∃ m : Magnitude, m.text = s := by
  unfold magnitude? at h
  split at h
  · rename_i digits hdigits
    obtain ⟨capital, rfl⟩ := Text.hexDigits?_eq_some_iff.mp hdigits
    obtain ⟨first, rest, hs⟩ := natural_toOption_eq_some (by decide) h
    exact ⟨.hex capital first rest, congrArg (Text.hexNumeral capital) hs⟩
  · obtain ⟨first, rest, hs⟩ := natural_toOption_eq_some (by decide) h
    exact ⟨.decimal first rest, hs⟩

/-- A text that starts with a digit has no sign. -/
theorem number?_unsigned {b : UInt8} {r : Text} (h : Text.isDigitByte b = true) :
    number? (b :: r) = (magnitude? (b :: r)).map Int.ofNat := by
  unfold number?
  split
  · rename_i hs
    rw [(List.cons.inj hs).1] at h
    exact absurd h (by decide)
  · rename_i hs
    rw [(List.cons.inj hs).1] at h
    exact absurd h (by decide)
  · rfl

/-- A literal is read as its value, if that is in range. -/
theorem number?_text (l : Literal) :
    number? l.text = if -2 ^ 31 ≤ l.value ∧ l.value ≤ 2 ^ 32 - 1 then some l.value else none := by
  obtain ⟨sign, m⟩ := l
  have hm := magnitude?_text m
  have positive : (magnitude? m.text).map Int.ofNat =
      if -2 ^ 31 ≤ (m.value : Int) ∧ (m.value : Int) ≤ 2 ^ 32 - 1 then some (m.value : Int) else none := by
    rw [hm]
    by_cases hle : m.value ≤ 0xFFFFFFFF
    · rw [if_pos hle, if_pos (by omega)]
      rfl
    · rw [if_neg hle, if_neg (by omega)]
      rfl
  cases sign with
  | absent =>
    obtain ⟨b, r, htext, hb⟩ := m.text_head
    rw [htext] at positive
    show number? m.text = _
    rw [htext, number?_unsigned hb]
    exact positive
  | plus => exact positive
  | minus =>
    show number? (0x2D :: m.text) =
      if -2 ^ 31 ≤ -(m.value : Int) ∧ -(m.value : Int) ≤ 2 ^ 32 - 1 then some (-(m.value : Int)) else none
    simp only [number?, hm]
    by_cases hle : m.value ≤ 0xFFFFFFFF
    · rw [if_pos hle]
      by_cases hhalf : m.value ≤ 0x80000000
      · simp only [hhalf, if_true]
        rw [if_pos (by omega)]
      · simp only [hhalf, if_false]
        rw [if_neg (by omega)]
    · rw [if_neg hle, if_neg (by omega)]

theorem exists_literal {s : Text} {v : Int} (h : number? s = some v) : ∃ l : Literal, l.text = s := by
  unfold number? at h
  split at h
  · split at h
    · rename_i hm
      obtain ⟨m, rfl⟩ := exists_magnitude hm
      exact ⟨⟨.minus, m⟩, rfl⟩
    · cases h
  · obtain ⟨n, hm, _⟩ := Option.map_eq_some_iff.mp h
    obtain ⟨m, rfl⟩ := exists_magnitude hm
    exact ⟨⟨.plus, m⟩, rfl⟩
  · obtain ⟨n, hm, _⟩ := Option.map_eq_some_iff.mp h
    obtain ⟨m, rfl⟩ := exists_magnitude hm
    exact ⟨⟨.absent, m⟩, rfl⟩

/-- Numbers are the literals in range. -/
theorem number?_eq_some_iff {s : Text} {v : Int} : number? s = some v ↔ Literal.Denotes s v := by
  constructor
  · intro h
    obtain ⟨l, rfl⟩ := exists_literal h
    rw [number?_text] at h
    split at h
    · rename_i hrange
      cases h
      exact ⟨l, rfl, rfl, hrange⟩
    · cases h
  · intro h
    obtain ⟨l, rfl, rfl, hrange⟩ := h
    rw [number?_text, if_pos hrange]

theorem number?_eq_none_iff {s : Text} : number? s = none ↔ ∀ v, ¬ Literal.Denotes s v := by
  rw [Option.eq_none_iff_forall_ne_some]
  simp only [ne_eq, number?_eq_some_iff]

end Source

/-! ## Operands -/

namespace Assembly

/-- What tokens stand for among the labels of a table. -/
structure Resolves (t : SymbolTable) : Prop where
  literal : ∀ token v, Operand.resolve t token = .literal v ↔ Literal.Denotes token v
  /-- Each name in the table is its label, with the address of the label. -/
  label : ∀ s ∈ t.entries, Operand.resolve t s.name = .label s ∧ (Operand.resolve t s.name).value? = some s.address.toNat
  invalid : ∀ token, Operand.resolve t token = .invalid ↔
    (∀ v, ¬ Literal.Denotes token v) ∧ ∀ s ∈ t.entries, s.name ≠ token
  /-- Wherever a literal is encoded it is the remainder of its value modulo 2^32. -/
  encoded : ∀ token v, Literal.Denotes token v → ∃ w : Word, (w.toNat : Int) = v % 2 ^ 32 ∧
    (Operand.resolve t token).word? = some w ∧ Context.literal token = .ok w ∧
    ∀ x : Context, x.symbols = t → x.distance token = .ok w ∧
      ∀ rd, x.upper rd token = .ok (Context.upper.halves .lui rd w)

theorem SymbolTable.WellFormed.resolves {t : SymbolTable} (h : t.WellFormed) : Resolves t where
  literal := by
    intro token v
    rw [← Source.number?_eq_some_iff]
    unfold Operand.resolve
    cases Source.number? token with
    | some n => simp
    | none => cases t.find? token <;> simp
  label := by
    intro s hs
    have hnumber := SymbolTable.number?_of_isLabelName ((isLabelName_iff s.name).mpr (h.proper s hs))
    have hlabel : Operand.resolve t s.name = .label s := by
      rw [Operand.resolve, hnumber]
      simp only [h.find?_name hs]
    exact ⟨hlabel, by rw [hlabel]; rfl⟩
  invalid := by
    intro token
    rw [← Source.number?_eq_none_iff, ← SymbolTable.find?_eq_none_iff]
    unfold Operand.resolve
    cases Source.number? token with
    | some n => simp
    | none => cases t.find? token <;> simp
  encoded := by
    intro token v hv
    have hnumber := Source.number?_eq_some_iff.mpr hv
    have hresolve : Operand.resolve t token = .literal v := by rw [Operand.resolve, hnumber]
    refine ⟨BitVec.ofInt 32 v, ?_, ?_, ?_, ?_⟩
    · rw [BitVec.toNat_ofInt]
      omega
    · rw [hresolve]
      rfl
    · rw [Context.literal, hnumber]
    · intro x hx
      constructor
      · rw [Context.distance, hx, hresolve]
      · intro rd
        rw [Context.upper, hx, hresolve]

/-- Numbers are the literals in range, no proper name is one, and after every history a token is a literal, the name of
a label or neither. -/
theorem operands_resolved :
    (∀ token v, Source.number? token = some v ↔ Literal.Denotes token v) ∧
    (∀ name, ProperName name → ∀ v, ¬ Literal.Denotes name v) ∧
    ∀ es, Resolves (SymbolTable.ofHistory es) := by
  refine ⟨fun token v => Source.number?_eq_some_iff, fun name hname => ?_, fun es => ?_⟩
  · exact Source.number?_eq_none_iff.mp (SymbolTable.number?_of_isLabelName ((isLabelName_iff name).mpr hname))
  · exact (SymbolTable.ofHistory_wellFormed es).resolves

/-- The least literal and one below it, and a label with the name of a register. -/
theorem operands_resolved_edges :
    Literal.Denotes "-0X0080000000" (-2147483648) ∧ (∀ v, ¬ Literal.Denotes "-2147483649" v) ∧
      Operand.resolve (SymbolTable.ofHistory [.define ⟨"a0", 0x10, .text, 1⟩]) "a0" = .label ⟨"a0", 0x10, .text, 1⟩ := by
  obtain ⟨numbers, -, resolves⟩ := operands_resolved
  refine ⟨(numbers _ _).mp rfl, fun v hv => ?_, ?_⟩
  · have hnone : Source.number? "-2147483649" = none := rfl
    rw [(numbers _ _).mpr hv] at hnone
    cases hnone
  · have hlabel := (resolves [.define ⟨"a0", 0x10, .text, 1⟩]).label ⟨"a0", 0x10, .text, 1⟩ List.mem_cons_self
    exact hlabel.1

end Assembly

end Rv32Tools
