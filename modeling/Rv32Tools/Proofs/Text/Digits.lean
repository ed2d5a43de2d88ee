import Mathlib.Data.Nat.Digits.Lemmas
import Rv32Tools.Proofs.Source.Bytes

/-
  Rv32Tools.Proofs.Text.Digits — numerals by their digits.

  A `Digit` of a base has a value below it; from ten on it is a letter of either case. The digits of a numeral, the
  highest first, have a value by their places (`Digit.number`). `natural` reads one digit or more as that value, up to
  its bound, and takes nothing else (`natural_digits`, `natural_eq_ok_iff`). `integer` takes a sign before them and keeps
  to the range of its bits (`integer_digits`). A hexadecimal number has `0x` or `0X` before them (`hexDigits?_eq_some_iff`).

  What is written in hexadecimal is the number by its digits (`IsHex`), to a width or without one, in either case.
-/

namespace Rv32Tools.Text

/-- The digit of a value below 36. -/
def digitByte (capital : Bool) (v : Nat) : UInt8 :=
  if v < 10 then UInt8.ofNat (0x30 + v) else UInt8.ofNat ((if capital then 0x37 else 0x57) + v)

structure Digit (base : Nat) where
  value : Fin base
  /-- Whether it is a capital letter, if it is a letter. -/
  capital : Bool := false
  deriving DecidableEq, Repr

namespace Digit

variable {base : Nat}

def byte (d : Digit base) : UInt8 := digitByte d.capital d.value

/-- The value of digits by their places, the highest first. -/
def number (ds : List (Digit base)) : Nat := Nat.ofDigits base (ds.reverse.map (·.value.val))

theorem number_cons (d : Digit base) (ds : List (Digit base)) :
    number (d :: ds) = d.value.val * base ^ ds.length + number ds := by
  rw [number, number, List.reverse_cons, List.map_append, Nat.ofDigits_append, List.length_map, List.length_reverse,
    List.map_singleton, Nat.ofDigits_singleton]
  ring

theorem number_concat (ds : List (Digit base)) (d : Digit base) :
    number (ds ++ [d]) = number ds * base + d.value.val := by
  rw [number, number, List.reverse_append, List.reverse_singleton, List.singleton_append, List.map_cons, Nat.ofDigits_cons]
  ring

theorem number_lt (hb : 1 < base) (ds : List (Digit base)) : number ds < base ^ ds.length := by
  have hlt : ∀ v ∈ ds.reverse.map (·.value.val), v < base := by
    intro v hv
    obtain ⟨d, _, rfl⟩ := List.mem_map.mp hv
    exact d.value.isLt
  have := Nat.ofDigits_lt_base_pow_length hb hlt
  rwa [List.length_map, List.length_reverse] at this

theorem digitIn?_byte (hb : base ≤ 36) (d : Digit base) : digitIn? base d.byte = some d.value.val := by
  have digit : ∀ v : Fin 36, ∀ c, digitValue? (digitByte c v) = some v.val := by decide +kernel
  have hd := digit ⟨d.value, Nat.lt_of_lt_of_le d.value.isLt hb⟩ d.capital
  simp only at hd
  rw [digitIn?, byte, hd]
  simp

theorem exists_of_digitIn? {b : UInt8} {v : Nat} (h : digitIn? base b = some v) : ∃ d : Digit base, d.byte = b := by
  have digit : ∀ b : UInt8, ∀ v ∈ digitValue? b, digitByte false v = b ∨ digitByte true v = b :=
    forall_byte (by decide +kernel)
  unfold digitIn? at h
  split at h
  · rename_i w hw
    split at h
    · rename_i hlt
      rcases digit b w hw with hb | hb
      · exact ⟨⟨⟨w, hlt⟩, false⟩, hb⟩
      · exact ⟨⟨⟨w, hlt⟩, true⟩, hb⟩
    · cases h
  · cases h

theorem byte_isAlnumByte (hb : base ≤ 36) (d : Digit base) : isAlnumByte d.byte = true := by
  have alnum : ∀ v : Fin 36, ∀ c, isAlnumByte (digitByte c v) = true := by decide +kernel
  exact alnum ⟨d.value, Nat.lt_of_lt_of_le d.value.isLt hb⟩ d.capital

theorem byte_isDigitByte (d : Digit 10) : isDigitByte d.byte = true := by
  have digit : ∀ v : Fin 10, ∀ c, isDigitByte (digitByte c v) = true := by decide +kernel
  exact digit d.value d.capital

end Digit

section Reading

variable {base bound : Nat} (hb : base ≤ 36)

include hb

theorem digitsFrom_digits {acc : Nat} (hacc : acc ≤ bound) (ds : List (Digit base)) :
    digitsFrom base bound acc (ds.map Digit.byte) =
      if acc * base ^ ds.length + Digit.number ds ≤ bound then .ok (acc * base ^ ds.length + Digit.number ds)
      else .error .tooLarge := by
  induction ds generalizing acc with
  | nil =>
    have hzero : acc * base ^ 0 + Digit.number ([] : List (Digit base)) = acc := by simp [Digit.number]
    rw [List.length_nil, hzero, if_pos hacc]
    rfl
  | cons d ds ih =>
    have hvalue : acc * base ^ (d :: ds).length + Digit.number (d :: ds) =
        (acc * base + d.value.val) * base ^ ds.length + Digit.number ds := by
      rw [Digit.number_cons, List.length_cons, pow_succ]
      ring
    rw [List.map_cons, digitsFrom, Digit.digitIn?_byte hb, hvalue]
    by_cases hle : acc * base + d.value.val ≤ bound
    · simp only [hle, if_true]
      exact ih hle
    · -- digits that follow do not make it smaller
      have hpow : 1 ≤ base ^ ds.length := Nat.one_le_pow _ _ (Nat.lt_of_le_of_lt (Nat.zero_le _) d.value.isLt)
      have hgrow := Nat.le_mul_of_pos_right (acc * base + d.value.val) hpow
      simp only [hle, if_false]
      rw [if_neg (by omega)]

/-- Digits are read as their value, unless that is over the bound. -/
theorem natural_digits {ds : List (Digit base)} (hne : ds ≠ []) :
    natural base bound (ds.map Digit.byte) =
      if Digit.number ds ≤ bound then .ok (Digit.number ds) else .error .tooLarge := by
  have key := digitsFrom_digits hb (Nat.zero_le bound) ds
  rw [Nat.zero_mul, Nat.zero_add] at key
  rw [natural, if_neg (by simpa using hne), key]

/-- Nothing but digits is read. -/
theorem natural_eq_ok_iff {s : Text} {v : Nat} :
    natural base bound s = .ok v ↔
      ∃ ds : List (Digit base), ds ≠ [] ∧ s = ds.map Digit.byte ∧ Digit.number ds = v ∧ v ≤ bound := by
  constructor
  · intro h
    have hdigits : s ∈ Set.range (List.map fun d : Digit base => d.byte) := by
      rw [Set.range_list_map]
      exact Source.natural_forall (fun b v hv => Digit.exists_of_digitIn? hv) h
    obtain ⟨ds, rfl⟩ := hdigits
    have hne : ds ≠ [] := by
      rintro rfl
      cases h
    rw [natural_digits hb hne] at h
    split at h
    · rename_i hle
      cases h
      exact ⟨ds, hne, rfl, rfl, hle⟩
    · cases h
  · rintro ⟨ds, hne, rfl, rfl, hle⟩
    rw [natural_digits hb hne, if_pos hle]

end Reading

/-! ## Signs -/

inductive Sign where
  | absent
  | plus
  | minus
  deriving DecidableEq, Repr

namespace Sign

def text : Sign → Text
  | .absent => []
  | .plus => [0x2B]
  | .minus => [0x2D]

def apply : Sign → Nat → Int
  | .minus, n => -(n : Int)
  | _, n => n

theorem eq_of_mem_text {sign : Sign} {b : UInt8} (h : b ∈ sign.text) : b = 0x2B ∨ b = 0x2D := by
  cases sign with
  | absent => cases h
  | plus => exact Or.inl (List.mem_singleton.mp h)
  | minus => exact Or.inr (List.mem_singleton.mp h)

end Sign

/-- A decimal with a minus is its magnitude below zero. -/
theorem integer_minus (bits : Nat) (s : Text) :
    integer bits (Sign.minus.text ++ s) =
      match natural 10 (2 ^ bits - 1) s with
      | .error e => .error e
      | .ok n => if n ≤ 2 ^ (bits - 1) then .ok (-(n : Int)) else .error .tooLarge := by
  rw [← Nat.one_shiftLeft, ← Nat.one_shiftLeft]
  rfl

/-- A decimal without a minus is its magnitude. -/
theorem integer_positive (bits : Nat) {sign : Sign} (hsign : sign ≠ .minus) {ds : List (Digit 10)} (hne : ds ≠ []) :
    integer bits (sign.text ++ ds.map Digit.byte) =
      match natural 10 (2 ^ bits - 1) (ds.map Digit.byte) with
      | .error e => .error e
      | .ok n => if n < 2 ^ (bits - 1) then .ok n else .error .tooLarge := by
  obtain ⟨d, ds, rfl⟩ := List.exists_cons_of_ne_nil hne
  have hbyte : d.byte ≠ 0x2D ∧ d.byte ≠ 0x2B := by
    have digit : ∀ b, isDigitByte b = true → b ≠ 0x2D ∧ b ≠ 0x2B := forall_byte (by decide +kernel)
    exact digit _ d.byte_isDigitByte
  rw [← Nat.one_shiftLeft, ← Nat.one_shiftLeft]
  cases sign with
  | minus => exact absurd rfl hsign
  | plus => rfl
  | absent =>
    rw [Sign.text, List.nil_append, List.map_cons]
    refine signed.eq_3 bits (natural 10) _ ?_ ?_
    · intro r h
      exact hbyte.1 (List.cons.inj h).1
    · intro r h
      exact hbyte.2 (List.cons.inj h).1

/-- Digits behind a sign are read as their value, if that has the bits. -/
theorem integer_digits {bits : Nat} (hbits : 0 < bits) (sign : Sign) {ds : List (Digit 10)} (hne : ds ≠ []) {v : Int} :
    integer bits (sign.text ++ ds.map Digit.byte) = .ok v ↔
      v = sign.apply (Digit.number ds) ∧ -(2 ^ (bits - 1) : Int) ≤ v ∧ v < 2 ^ (bits - 1) := by
  have hread : natural 10 (2 ^ bits - 1) (ds.map Digit.byte) = _ := natural_digits (by decide) hne
  have hhalf : ((2 ^ (bits - 1) : Nat) : Int) = 2 ^ (bits - 1) := by push_cast; rfl
  have hpos : 0 < 2 ^ (bits - 1) := Nat.two_pow_pos _
  have hpow : 2 ^ bits = 2 * 2 ^ (bits - 1) := by rw [← pow_succ', Nat.sub_add_cancel hbits]
  rw [← hhalf]
  by_cases hsign : sign = .minus
  · rw [hsign, integer_minus, hread, hpow, Sign.apply]
    by_cases hbound : Digit.number ds ≤ 2 * 2 ^ (bits - 1) - 1
    · rw [if_pos hbound]
      by_cases hle : Digit.number ds ≤ 2 ^ (bits - 1)
      · simp only [if_pos hle, Except.ok.injEq]
        omega
      · simp only [if_neg hle, reduceCtorEq, false_iff]
        omega
    · simp only [if_neg hbound, reduceCtorEq, false_iff]
      omega
  · have happly : sign.apply (Digit.number ds) = Digit.number ds := by
      cases sign with
      | minus => exact absurd rfl hsign
      | plus => rfl
      | absent => rfl
    rw [integer_positive bits hsign hne, hread, happly, hpow]
    by_cases hbound : Digit.number ds ≤ 2 * 2 ^ (bits - 1) - 1
    · rw [if_pos hbound]
      by_cases hlt : Digit.number ds < 2 ^ (bits - 1)
      · simp only [if_pos hlt, Except.ok.injEq]
        omega
      · simp only [if_neg hlt, reduceCtorEq, false_iff]
        omega
    · simp only [if_neg hbound, reduceCtorEq, false_iff]
      omega

/-! ## Hexadecimal numbers -/

/-- Digits behind `0x` or `0X`. -/
def hexNumeral (capital : Bool) (digits : Text) : Text := 0x30 :: (if capital then 0x58 else 0x78) :: digits

theorem hexDigits?_eq_some_iff {s digits : Text} :
    Source.hexDigits? s = some digits ↔ ∃ capital, s = hexNumeral capital digits := by
  constructor
  · intro h
    rw [Source.hexDigits?, Option.or_eq_some_iff] at h
    rcases h with h | ⟨_, h⟩
    · exact ⟨false, Source.after?_eq_some h⟩
    · exact ⟨true, Source.after?_eq_some h⟩
  · rintro ⟨capital, rfl⟩
    cases capital with
    | false => rfl
    | true => rfl

/-- A decimal is no hexadecimal number: `x` is no sign and no digit. -/
theorem hexDigits?_decimal (sign : Sign) (ds : List (Digit 10)) :
    Source.hexDigits? (sign.text ++ ds.map Digit.byte) = none := by
  have digit : ∀ b, isDigitByte b = true → b ≠ 0x58 ∧ b ≠ 0x78 := forall_byte (by decide +kernel)
  have letter : ∀ b ∈ sign.text ++ ds.map Digit.byte, b ≠ 0x58 ∧ b ≠ 0x78 := by
    intro b hb
    rcases List.mem_append.mp hb with hb | hb
    · rcases Sign.eq_of_mem_text hb with rfl | rfl <;> decide
    · obtain ⟨d, _, rfl⟩ := List.mem_map.mp hb
      exact digit _ d.byte_isDigitByte
  rw [Option.eq_none_iff_forall_ne_some]
  intro digits hdigits
  obtain ⟨capital, htext⟩ := hexDigits?_eq_some_iff.mp hdigits
  have hmark := letter (if capital then 0x58 else 0x78) (by rw [htext]; exact List.mem_cons_of_mem _ List.mem_cons_self)
  cases capital with
  | false => exact hmark.2 rfl
  | true => exact hmark.1 rfl

/-! ## Numbers as they are written -/

/-- The text is a number in hexadecimal digits, with all letters in one case. -/
def IsHex (capital : Bool) (n : Nat) (s : Text) : Prop :=
  ∃ ds : List (Digit 16), s = ds.map Digit.byte ∧ (∀ d ∈ ds, d.capital = capital) ∧ Digit.number ds = n

/-- One digit more, at the end. -/
theorem IsHex.concat {capital : Bool} {n : Nat} {s : Text} (h : IsHex capital n s) (d : Fin 16) :
    IsHex capital (n * 16 + d) (s ++ [digitByte capital d]) := by
  obtain ⟨ds, hs, hcapital, hn⟩ := h
  refine ⟨ds ++ [⟨d, capital⟩], ?_, ?_, ?_⟩
  · rw [List.map_append, hs]
    rfl
  · intro e he
    rcases List.mem_append.mp he with he | he
    · exact hcapital e he
    · rw [List.mem_singleton.mp he]
  · rw [Digit.number_concat, hn]

theorem IsHex.upper {n : Nat} {s : Text} (h : IsHex false n s) : IsHex true n (s.map upperByte) := by
  obtain ⟨ds, hs, hcapital, hn⟩ := h
  have digit : ∀ v : Fin 16, upperByte (digitByte false v) = digitByte true v := by decide
  refine ⟨ds.map fun d => ⟨d.value, true⟩, ?_, ?_, ?_⟩
  · rw [hs, List.map_map, List.map_map]
    apply List.map_congr_left
    intro d hd
    have hlower : d.byte = digitByte false d.value := by rw [Digit.byte, hcapital d hd]
    rw [Function.comp_apply, Function.comp_apply, hlower, digit]
    rfl
  · intro d hd
    obtain ⟨e, _, he⟩ := List.mem_map.mp hd
    rw [← he]
  · rw [← hn, Digit.number, Digit.number, ← List.map_reverse, List.map_map]
    rfl

theorem fixedDigits_isHex (width n : Nat) : IsHex false (n % 16 ^ width) (fixedDigits 16 width n) := by
  have digit : ∀ v : Fin 16, hexDigit v = digitByte false v := by decide
  induction width generalizing n with
  | zero => exact ⟨[], rfl, by simp, by rw [pow_zero, Nat.mod_one]; rfl⟩
  | succ width ih =>
    have hvalue : n / 16 % 16 ^ width * 16 + n % 16 = n % 16 ^ (width + 1) := by
      rw [pow_succ', Nat.mod_mul, Nat.mul_comm, Nat.add_comm]
    have h := (ih (n / 16)).concat ⟨n % 16, Nat.mod_lt n (by decide)⟩
    rw [← digit] at h
    rw [← hvalue]
    exact h

theorem hexShort_isHex (n : Nat) : IsHex false n (hexShort n) := by
  have digit : ∀ v : Fin 16, (Nat.digitChar v).toUInt8 = digitByte false v := by decide
  induction n using Nat.strongRecOn with
  | _ n ih =>
    have empty : IsHex false 0 [] := ⟨[], rfl, by simp, rfl⟩
    rw [hexShort, Nat.toDigits_eq_if (by decide)]
    by_cases hlt : n < 16
    · have h := empty.concat ⟨n, hlt⟩
      rw [← digit, Nat.zero_mul, Nat.zero_add] at h
      rw [if_pos hlt]
      exact h
    · have h := (ih (n / 16) (by omega)).concat ⟨n % 16, Nat.mod_lt n (by decide)⟩
      rw [← digit, Nat.div_add_mod' n 16] at h
      rw [if_neg hlt, List.map_append]
      exact h

end Rv32Tools.Text
