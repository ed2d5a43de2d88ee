import Mathlib.Algebra.Group.Nat.Defs
import Rv32Tools.Proofs.Source.Bytes

/-
  Rv32Tools.Proofs.Source.Numerals — a number that was written is read back.

  The digits of a number, of either case, read as the number in their base (`natural_decimal`, `natural_hexShort`,
  `natural_hexShort_upper`). So does a number as source has it: decimal with its sign (`number?_decimalInt`), or
  hexadecimal behind its `0x` (`number?_hex`). A number written to a fixed width comes apart into the digits of its
  quotient and of its rest (`fixedDigits_add`).
-/

namespace Rv32Tools

namespace Text

theorem digitsFrom_append (base bound acc : Nat) (s t : Text) :
    digitsFrom base bound acc (s ++ t) =
      match digitsFrom base bound acc s with
      | .ok n => digitsFrom base bound n t
      | .error e => .error e := by
  induction s generalizing acc with
  | nil => rfl
  | cons b r ih =>
    simp only [List.cons_append, digitsFrom]
    split
    · rfl
    · split
      · exact ih _
      · rfl

/-- The digits of a number, spelled by `f`, are read as that number. -/
theorem digitsFrom_toDigits {base bound n : Nat} {f : Char → UInt8} (hb : 1 < base)
    (hf : ∀ d < base, digitIn? base (f (Nat.digitChar d)) = some d) (hn : n ≤ bound) :
    digitsFrom base bound 0 ((Nat.toDigits base n).map f) = .ok n := by
  induction n using Nat.strongRecOn with
  | _ n ih =>
    rw [Nat.toDigits_eq_if hb]
    by_cases hlt : n < base
    · simp [hlt, digitsFrom, hf n hlt, hn]
    · have hpos : 0 < base := Nat.lt_trans Nat.zero_lt_one hb
      have hless : n / base < n := Nat.div_lt_self (Nat.lt_of_lt_of_le hpos (Nat.le_of_not_lt hlt)) hb
      have hlast : n / base * base + n % base = n := Nat.div_add_mod' n base
      rw [if_neg hlt, List.map_append, digitsFrom_append, ih (n / base) hless (Nat.le_of_lt (Nat.lt_of_lt_of_le hless hn))]
      simp [digitsFrom, hf _ (Nat.mod_lt n hpos), hlast, hn]

theorem natural_toDigits {base bound n : Nat} {f : Char → UInt8} (hb : 1 < base)
    (hf : ∀ d < base, digitIn? base (f (Nat.digitChar d)) = some d) (hn : n ≤ bound) :
    natural base bound ((Nat.toDigits base n).map f) = .ok n := by
  have hne : Nat.toDigits base n ≠ [] := by
    rw [Nat.toDigits_eq_if hb]
    split <;> simp
  rw [natural, if_neg (by simp [hne]), digitsFrom_toDigits hb hf hn]

theorem natural_decimal {bound n : Nat} (h : n ≤ bound) : natural 10 bound (decimal n) = .ok n :=
  natural_toDigits (by decide) (by decide) h

theorem natural_hexShort {bound n : Nat} (h : n ≤ bound) : natural 16 bound (hexShort n) = .ok n :=
  natural_toDigits (by decide) (by decide) h

theorem natural_hexShort_upper {bound n : Nat} (h : n ≤ bound) :
    natural 16 bound ((hexShort n).map upperByte) = .ok n := by
  rw [hexShort, List.map_map]
  exact natural_toDigits (by decide) (by decide) h

theorem natural_ne_nil {base bound n : Nat} {s : Text} (h : natural base bound s = .ok n) : s ≠ [] := by
  rintro rfl
  cases h

/-! ### Digits to a fixed width -/

theorem fixedDigits_length (base width n : Nat) : (fixedDigits base width n).length = width := by
  induction width generalizing n with
  | zero => rfl
  | succ width ih => rw [fixedDigits, List.length_append, ih, List.length_singleton]

theorem fixedDigits_forall {P : UInt8 → Prop} {base : Nat} (hb : 0 < base) (h : ∀ d < base, P (hexDigit d))
    (width n : Nat) : ∀ b ∈ fixedDigits base width n, P b := by
  induction width generalizing n with
  | zero => exact fun b hb => nomatch hb
  | succ width ih =>
    intro b hmem
    rcases List.mem_append.mp hmem with hmem | hmem
    · exact ih _ b hmem
    · rw [List.mem_singleton.mp hmem]
      exact h _ (Nat.mod_lt n hb)

/-- The first digits are those of the quotient. -/
theorem fixedDigits_add (base high low n : Nat) :
    fixedDigits base (high + low) n = fixedDigits base high (n / base ^ low) ++ fixedDigits base low n := by
  induction low generalizing n with
  | zero => simp [fixedDigits]
  | succ low ih =>
    show fixedDigits base (high + low) (n / base) ++ _ = _ ++ (fixedDigits base low (n / base) ++ _)
    rw [ih, Nat.div_div_eq_div_mul, Nat.pow_succ', List.append_assoc]

/-- The digits of a number are those of its rest. -/
theorem fixedDigits_mod (base width n : Nat) : fixedDigits base width (n % base ^ width) = fixedDigits base width n := by
  induction width generalizing n with
  | zero => rfl
  | succ width ih =>
    have hrest : n % base ^ (width + 1) % base = n % base := by
      rw [Nat.pow_succ', Nat.mod_mul_right_mod]
    have hquotient : n % base ^ (width + 1) / base = n / base % base ^ width := by
      rw [Nat.pow_succ', Nat.mod_mul_right_div_self]
    rw [fixedDigits, fixedDigits, hrest, hquotient, ih]

end Text

namespace Source

theorem hexDigits?_hex (digits : Text) : hexDigits? ("0x" ++ digits) = some digits := rfl

theorem number?_hex {digits : Text} {n : Nat} (h : Text.natural 16 0xFFFFFFFF digits = .ok n) :
    number? ("0x" ++ digits) = some n := by
  have hm : magnitude? ("0x" ++ digits) = some n := by
    rw [magnitude?, hexDigits?_hex]
    simp only [h]
    rfl
  show (magnitude? ("0x" ++ digits)).map Int.ofNat = some n
  rw [hm]
  rfl

theorem decimal_digits (n : Nat) : ∀ b ∈ Text.decimal n, Text.isDigitByte b = true := by
  have digit : ∀ b, (Text.digitIn? 10 b).isSome = true → Text.isDigitByte b = true :=
    Text.forall_byte (by decide +kernel)
  exact natural_forall (fun b d hd => digit b (hd ▸ rfl)) (Text.natural_decimal (Nat.le_refl n))

/-- A number in decimal does not start like a hexadecimal one. -/
theorem magnitude?_decimal {n : Nat} (h : n ≤ 0xFFFFFFFF) : magnitude? (Text.decimal n) = some n := by
  have mark : ∀ x : UInt8, Text.isDigitByte x = false → Text.after? [0x30, x] (Text.decimal n) = none := by
    intro x hx
    cases ha : Text.after? [0x30, x] (Text.decimal n) with
    | none => rfl
    | some r =>
      have hmem : x ∈ Text.decimal n := by
        rw [after?_eq_some ha]
        simp
      rw [decimal_digits n x hmem] at hx
      cases hx
  have hnone : hexDigits? (Text.decimal n) = none := by
    show (Text.after? [0x30, 0x78] _).or (Text.after? [0x30, 0x58] _) = none
    rw [mark 0x78 (by decide), mark 0x58 (by decide)]
    rfl
  rw [magnitude?, hnone, Text.natural_decimal h]
  rfl

theorem number?_decimalInt {v : Int} (h : -0x80000000 ≤ v) (h' : v ≤ 0xFFFFFFFF) :
    number? (Text.decimalInt v) = some v := by
  cases v with
  | ofNat n =>
    have hle : n ≤ 0xFFFFFFFF := Int.ofNat_le.mp h'
    have hm : magnitude? (Text.decimal n) = some n := magnitude?_decimal hle
    have hdigits := decimal_digits n
    show number? (Text.decimal n) = some (Int.ofNat n)
    unfold number?
    split
    · rename_i r hr
      exact absurd (hdigits 0x2D (hr ▸ List.mem_cons_self)) (by decide)
    · rename_i r hr
      exact absurd (hdigits 0x2B (hr ▸ List.mem_cons_self)) (by decide)
    · rw [hm]
      rfl
  | negSucc n =>
    have hle : n + 1 ≤ 0x80000000 := by omega
    have hm : magnitude? (Text.decimal (n + 1)) = some (n + 1) := magnitude?_decimal (by omega)
    simp only [Text.decimalInt, number?, hm, hle, if_true]
    rfl

end Source

end Rv32Tools
