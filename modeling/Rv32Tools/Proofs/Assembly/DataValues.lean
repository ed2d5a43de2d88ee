import Rv32Tools.Proofs.Assembly.DataLabels
import Rv32Tools.Proofs.Source.Reading
import Rv32Tools.Proofs.Text.Digits

/-
  Rv32Tools.Proofs.Assembly.DataValues — lists of numbers are stored as they are written, or refused.

  An item of a list is a decimal integer or a hexadecimal number (`Numeral`) with white space around it (`Item`). White
  space at the ends of a list goes (`trim_listing`), commas part the items (`splitOperands_listing`), and white space
  around an item goes too (`Item.trim_text`), so what is read is the numerals. A numeral is taken just if it fits, as its
  two's complement (`Numeral.dataValue_eq_ok_iff`), and its bytes are those of its value (`littleEndian_ofInt`). The bytes
  of a list are those of its values one after the other (`itemBytes_of_fits`). So `values_stored_or_refused` says of a line
  with such a list whether it is taken, and where its values are.
-/

namespace Rv32Tools

/-! ## Lists of operands -/

namespace Source

/-- Outside of quotes and parentheses each comma parts operands. -/
theorem splitOperands_flat {s : Text} (h : ∀ b ∈ s, isQuoteMark b = false ∧ b ≠ 0x28 ∧ b ≠ 0x29) :
    splitOperands s = Text.pieces (· == 0x2C) s := by
  have hcommas : ∀ {s : Text}, (∀ b ∈ s, b ≠ 0x28 ∧ b ≠ 0x29) →
      commas 0 (s.map (⟨·, false⟩)) = s.map fun b => (b, b == 0x2C) := by
    intro s h
    induction s with
    | nil => rfl
    | cons b s ih =>
      obtain ⟨hopen, hclose⟩ := h b List.mem_cons_self
      have hdepth : depthAfter 0 ⟨b, false⟩ = 0 := by simp [depthAfter, hopen, hclose]
      simp [commas, hdepth, ih fun b' hb' => h b' (List.mem_cons_of_mem _ hb')]
  rw [splitOperands, marked_of_noQuote fun b hb => (h b hb).1, hcommas fun b hb => (h b hb).2, Text.pieces_map,
    List.map_map]
  simp [Function.comp_def]

/-- Texts joined by commas are the operands. -/
theorem splitOperands_join {ts : List Text} (hne : ts ≠ [])
    (h : ∀ t ∈ ts, ∀ b ∈ t, isQuoteMark b = false ∧ b ≠ 0x28 ∧ b ≠ 0x29 ∧ b ≠ 0x2C) :
    splitOperands (Text.join [0x2C] ts) = ts := by
  have hbytes : ∀ b ∈ Text.join [0x2C] ts, isQuoteMark b = false ∧ b ≠ 0x28 ∧ b ≠ 0x29 := by
    intro b hb
    rcases Text.mem_join hb with hb | ⟨t, ht, hb⟩
    · rw [List.mem_singleton.mp hb]
      decide
    · obtain ⟨hquote, hopen, hclose, _⟩ := h t ht b hb
      exact ⟨hquote, hopen, hclose⟩
  rw [splitOperands_flat hbytes, Text.pieces_join 0x2C (by decide) hne]
  intro t ht b hb
  exact beq_eq_false_iff_ne.mpr (h t ht b hb).2.2.2

end Source

namespace Assembly

open Source (Line Token)
open Text (Digit Sign)

/-! ## Numerals -/

/-- A number as the item of a list has it: a decimal integer of one digit or more, or hexadecimal digits behind `0x` or
`0X`. -/
inductive Numeral where
  | decimal (sign : Sign) (first : Digit 10) (rest : List (Digit 10))
  | hex (capital : Bool) (digits : List (Digit 16))

namespace Numeral

def text : Numeral → Text
  | .decimal sign first rest => sign.text ++ (first :: rest).map Digit.byte
  | .hex capital digits => Text.hexNumeral capital (digits.map Digit.byte)

def value : Numeral → Int
  | .decimal sign first rest => sign.apply (Digit.number (first :: rest))
  | .hex _ digits => Digit.number digits

/-- An item of `size` bytes has room for the number: a decimal in the signed or the unsigned range, a hexadecimal number
by its digits. -/
def Fits (size : Nat) (n : Numeral) : Prop :=
  match n with
  | .decimal .. => -2 ^ (8 * size - 1) ≤ n.value ∧ n.value ≤ 2 ^ (8 * size) - 1
  | .hex _ digits => 1 ≤ digits.length ∧ digits.length ≤ 2 * size

instance (size : Nat) : (n : Numeral) → Decidable (Fits size n)
  | .decimal .. => inferInstanceAs (Decidable (_ ∧ _))
  | .hex .. => inferInstanceAs (Decidable (_ ∧ _))

theorem digits_token {base : Nat} (hb : base ≤ 36) (ds : List (Digit base)) :
    ∀ b ∈ ds.map Digit.byte, Source.isTokenByte b = true := by
  intro b hmem
  obtain ⟨d, _, rfl⟩ := List.mem_map.mp hmem
  exact Source.isTokenByte_of_isAlnumByte (d.byte_isAlnumByte hb)

theorem token (n : Numeral) : Token n.text := by
  cases n with
  | decimal sign first rest =>
    refine ⟨by simp [text], fun b hb => ?_⟩
    rcases List.mem_append.mp hb with hb | hb
    · rcases Sign.eq_of_mem_text hb with rfl | rfl <;> decide
    · exact digits_token (by decide) _ b hb
  | hex capital ds =>
    refine ⟨List.cons_ne_nil _ _, fun b hb => ?_⟩
    rcases List.mem_cons.mp hb with rfl | hb
    · decide
    · rcases List.mem_cons.mp hb with rfl | hb
      · cases capital <;> decide
      · exact digits_token (by decide) _ b hb

theorem hexDigits?_hex (capital : Bool) (ds : List (Digit 16)) :
    Source.hexDigits? (hex capital ds).text = some (ds.map Digit.byte) :=
  Text.hexDigits?_eq_some_iff.mpr ⟨capital, rfl⟩

theorem head_ne_quote (n : Numeral) : n.text.isEmpty = false ∧ (n.text.head? == some 0x27) = false := by
  obtain ⟨b, r, hb⟩ := List.exists_cons_of_ne_nil n.token.ne_nil
  have hne : b ≠ 0x27 := Source.isTokenByte_ne (n.token.bytes b (hb ▸ List.mem_cons_self)) (by decide)
  rw [hb]
  exact ⟨rfl, by simp [hne]⟩

/-- Two digits are a byte. -/
theorem number_le {size : Nat} {ds : List (Digit 16)} (h : ds.length ≤ 2 * size) :
    Digit.number ds ≤ 2 ^ (size * 8) - 1 := by
  have hlt := Digit.number_lt (by decide) ds
  have hpow : 16 ^ ds.length ≤ 2 ^ (size * 8) := by
    calc 16 ^ ds.length ≤ 16 ^ (2 * size) := Nat.pow_le_pow_right (by decide) h
      _ = 2 ^ (size * 8) := by rw [show 16 = 2 ^ 4 from rfl, ← pow_mul]; congr 1; omega
  omega

theorem dataValue_hex {size : Nat} {capital : Bool} {ds : List (Digit 16)} {w : Word} :
    dataValue size (hex capital ds).text = .ok w ↔
      Fits size (hex capital ds) ∧ w = BitVec.ofInt 32 (hex capital ds).value := by
  obtain ⟨hempty, hquote⟩ := head_ne_quote (hex capital ds)
  have hwide : ((ds.map Digit.byte).isEmpty || decide (2 * size < (ds.map Digit.byte).length)) = true ↔
      ¬ Fits size (hex capital ds) := by
    show _ ↔ ¬ (1 ≤ ds.length ∧ ds.length ≤ 2 * size)
    rw [Bool.or_eq_true, List.isEmpty_iff_length_eq_zero, List.length_map, decide_eq_true_eq]
    omega
  simp only [dataValue, hempty, hquote, hexDigits?_hex, Bool.and_false, Bool.false_eq_true, if_false]
  by_cases hfit : Fits size (hex capital ds)
  · have hne : ds ≠ [] := List.ne_nil_of_length_pos hfit.1
    have hread : Text.natural 16 (1 <<< (size * 8) - 1) (ds.map Digit.byte) = .ok (Digit.number ds) := by
      rw [Nat.one_shiftLeft, Text.natural_digits (by decide) hne, if_pos (number_le hfit.2)]
    rw [if_neg fun h => hwide.mp h hfit, hread, value, BitVec.ofInt_natCast]
    simp [hfit, eq_comm]
  · rw [if_pos (hwide.mpr hfit)]
    simp [hfit]

theorem dataValue_decimal {size : Nat} (hpos : 0 < size) (hsize : size ≤ 4) {sign : Sign} {first : Digit 10}
    {rest : List (Digit 10)} {w : Word} :
    dataValue size (decimal sign first rest).text = .ok w ↔
      Fits size (decimal sign first rest) ∧ w = BitVec.ofInt 32 (decimal sign first rest).value := by
  obtain ⟨hempty, hquote⟩ := head_ne_quote (decimal sign first rest)
  have hdigits : Source.hexDigits? (decimal sign first rest).text = none := Text.hexDigits?_decimal sign (first :: rest)
  have hread : ∀ {v}, Text.integer 64 (decimal sign first rest).text = .ok v ↔
      v = (decimal sign first rest).value ∧ -(2 ^ 63 : Int) ≤ v ∧ v < 2 ^ 63 :=
    Text.integer_digits (by decide) sign (List.cons_ne_nil first rest)
  have hrange : (decide ((decimal sign first rest).value < -((2 ^ (size * 8 - 1) : Nat) : Int)) ||
      decide (((2 ^ (size * 8) : Nat) : Int) ≤ (decimal sign first rest).value)) = true ↔
      ¬ Fits size (decimal sign first rest) := by
    show _ ↔ ¬ (-2 ^ (8 * size - 1) ≤ _ ∧ _ ≤ 2 ^ (8 * size) - 1)
    rw [Bool.or_eq_true, decide_eq_true_eq, decide_eq_true_eq, Nat.mul_comm]
    push_cast
    omega
  have hlow : (2 : Int) ^ (8 * size - 1) ≤ 2 ^ 31 := pow_le_pow_right₀ (by decide) (by omega)
  have hhigh : (2 : Int) ^ (8 * size) ≤ 2 ^ 32 := pow_le_pow_right₀ (by decide) (by omega)
  simp only [dataValue, hempty, hquote, hdigits, Bool.and_false, Bool.false_eq_true, if_false,
    Nat.one_shiftLeft]
  cases hi : Text.integer 64 (decimal sign first rest).text with
  | error e =>
    have hfit : ¬ Fits size (decimal sign first rest) := by
      intro hfit
      obtain ⟨hmin, hmax⟩ := hfit
      rw [hread.mpr ⟨rfl, by omega, by omega⟩] at hi
      cases hi
    simp [hfit]
  | ok v =>
    obtain ⟨rfl, _⟩ := hread.mp hi
    dsimp only
    by_cases hfit : Fits size (decimal sign first rest)
    · rw [if_neg fun h => hrange.mp h hfit]
      simp [hfit, eq_comm]
    · rw [if_pos (hrange.mpr hfit)]
      simp [hfit]

/-- A number is taken just if it fits, as its two's complement in 32 bits. -/
theorem dataValue_eq_ok_iff {size : Nat} (hpos : 0 < size) (hsize : size ≤ 4) {n : Numeral} {w : Word} :
    dataValue size n.text = .ok w ↔ n.Fits size ∧ w = BitVec.ofInt 32 n.value := by
  cases n with
  | decimal sign first rest => exact dataValue_decimal hpos hsize
  | hex capital ds => exact dataValue_hex

end Numeral

/-- The `size` bytes of a number modulo `2 ^ (8 * size)`, lowest first. -/
def lowBytes (size : Nat) (v : Int) : List UInt8 :=
  (List.range size).map fun k => UInt8.ofNat ((v % 2 ^ (8 * size)).toNat / 2 ^ (8 * k))

theorem lowBytes_length (size : Nat) (v : Int) : (lowBytes size v).length = size := by
  rw [lowBytes, List.length_map, List.length_range]

/-- The low bytes of a word are those of the number it stands for. -/
theorem littleEndian_ofInt {size : Nat} (hsize : size ≤ 4) (v : Int) :
    littleEndian size (BitVec.ofInt 32 v) = lowBytes size v := by
  refine List.map_congr_left fun k hk => ?_
  have hlt : k < size := List.mem_range.mp hk
  have hmod : (v % 2 ^ (8 * size)).toNat = (BitVec.ofInt 32 v).toNat % 2 ^ (8 * size) := by
    have hdvd : (2 : Int) ^ (8 * size) ∣ 2 ^ 32 := pow_dvd_pow 2 (by omega)
    have hpow : ((2 : Int) ^ (8 * size)).toNat = 2 ^ (8 * size) := by
      rw [show (2 : Int) ^ (8 * size) = ((2 ^ (8 * size) : Nat) : Int) by push_cast; rfl, Int.toNat_natCast]
    rw [BitVec.toNat_ofInt, ← hpow, ← Int.toNat_emod (Int.emod_nonneg _ (by decide)) (by positivity)]
    exact congrArg Int.toNat (Int.emod_emod_of_dvd v hdvd).symm
  refine UInt8.toNat_inj.mp ?_
  show ((BitVec.ofInt 32 v).extractLsb' (8 * k) 8).toNat = _
  rw [BitVec.extractLsb'_toNat, UInt8.toNat_ofNat', hmod, Nat.shiftRight_eq_div_pow]
  generalize (BitVec.ofInt 32 v).toNat = x
  rw [show 8 * size = 8 * k + (8 * size - 8 * k) by omega, pow_add, Nat.mod_mul_right_div_self,
    Nat.mod_mod_of_dvd _ (pow_dvd_pow 2 (by omega))]

/-! ## Lists -/

/-- A number with white space around it. -/
structure Item where
  before : Text
  numeral : Numeral
  after : Text
  blank : Text.AllBlank before ∧ Text.AllBlank after

namespace Item

def text (i : Item) : Text := i.before ++ (i.numeral.text ++ i.after)

theorem bytes (i : Item) :
    ∀ b ∈ i.text, Source.isQuoteMark b = false ∧ b ≠ 0x28 ∧ b ≠ 0x29 ∧ b ≠ 0x2C := by
  have marks : ∀ b, Text.isGraphic b = false → Source.isQuoteMark b = false ∧ b ≠ 0x28 ∧ b ≠ 0x29 ∧ b ≠ 0x2C :=
    Text.forall_byte (by decide +kernel)
  intro b hb
  rcases List.mem_append.mp hb with hb | hb
  · exact marks b (i.blank.1.not_isGraphic hb)
  · rcases List.mem_append.mp hb with hb | hb
    · exact ⟨Source.isPlain_not_isQuoteMark (i.numeral.token.plain b hb).1, i.numeral.token.flat b hb⟩
    · exact marks b (i.blank.2.not_isGraphic hb)

/-- A number begins and ends with a visible byte. -/
theorem ends (n : Numeral) : ∃ a b, Text.isGraphic a = true ∧ Text.isGraphic b = true ∧ n.text.head? = some a ∧
    n.text.getLast? = some b := by
  have graphic : ∀ b ∈ n.text, Text.isGraphic b = true := fun b hb => Source.isTokenByte_isGraphic (n.token.bytes b hb)
  have hfirst := List.head?_eq_some_head n.token.ne_nil
  have hlast := List.getLast?_eq_some_getLast n.token.ne_nil
  exact ⟨_, _, graphic _ (List.head_mem _), graphic _ (List.getLast_mem _), hfirst, hlast⟩

theorem trim_text (i : Item) : Text.trim i.text = i.numeral.text := by
  obtain ⟨a, b, ha, hb, hfirst, hlast⟩ := ends i.numeral
  exact Text.trim_between i.blank.1 i.blank.2 ha hb hfirst hlast

end Item

/-- Items with commas between them. -/
def listing (is : List Item) : Text := Text.join [0x2C] (is.map Item.text)

theorem listing_singleton (i : Item) : listing [i] = i.text := by
  rw [listing, List.map_singleton, Text.join, List.intercalate_singleton]

theorem listing_cons (i : Item) {is : List Item} (hne : is ≠ []) : listing (i :: is) = i.text ++ 0x2C :: listing is := by
  obtain ⟨j, is, rfl⟩ := List.exists_cons_of_ne_nil hne
  rw [listing, List.map_cons, List.map_cons, Text.join, List.intercalate_cons_cons, List.append_assoc]
  rfl

theorem splitOperands_listing {is : List Item} (hne : is ≠ []) : Source.splitOperands (listing is) = is.map Item.text := by
  refine Source.splitOperands_join (by simpa using hne) fun t ht => ?_
  obtain ⟨i, _, rfl⟩ := List.mem_map.mp ht
  exact i.bytes

/-- White space behind a list does not belong to its numbers. -/
theorem listing_back (i : Item) (is : List Item) :
    ∃ is' w b, Text.AllBlank w ∧ listing (i :: is) = listing is' ++ w ∧
      is'.map Item.numeral = (i :: is).map Item.numeral ∧ Text.isGraphic b = true ∧ (listing is').getLast? = some b := by
  induction is generalizing i with
  | nil =>
    obtain ⟨_, b, _, hb, _, hlast⟩ := Item.ends i.numeral
    refine ⟨[{ i with after := [], blank := ⟨i.blank.1, .nil⟩ }], i.after, b, i.blank.2, ?_, rfl, hb, ?_⟩
    · rw [listing_singleton, listing_singleton, Item.text, Item.text, List.append_nil, List.append_assoc]
    · rw [listing_singleton, Item.text, List.append_nil, List.getLast?_append_of_ne_nil _ i.numeral.token.ne_nil, hlast]
  | cons j is ih =>
    obtain ⟨is', w, b, hw, htext, hnumerals, hb, hlast⟩ := ih j
    have hne : is' ≠ [] := by
      rintro rfl
      cases hnumerals
    refine ⟨i :: is', w, b, hw, ?_, congrArg (i.numeral :: ·) hnumerals, hb, ?_⟩
    · rw [listing_cons i (List.cons_ne_nil j is), listing_cons i hne, htext, List.append_assoc, List.cons_append]
    · have hne' : listing is' ≠ [] := by
        intro hnil
        rw [hnil] at hlast
        cases hlast
      rw [listing_cons i hne, List.getLast?_append_of_ne_nil _ (List.cons_ne_nil _ _), ← List.singleton_append,
        List.getLast?_append_of_ne_nil _ hne', hlast]

theorem listing_front (i : Item) (is : List Item) :
    listing (i :: is) = i.before ++ listing ({ i with before := [], blank := ⟨.nil, i.blank.2⟩ } :: is) ∧
      ∃ r, listing ({ i with before := [], blank := ⟨.nil, i.blank.2⟩ } :: is) = i.numeral.text ++ r := by
  cases is with
  | nil =>
    rw [listing_singleton, listing_singleton]
    exact ⟨rfl, i.after, rfl⟩
  | cons j is =>
    rw [listing_cons _ (List.cons_ne_nil j is), listing_cons _ (List.cons_ne_nil j is), Item.text, List.append_assoc]
    refine ⟨rfl, i.after ++ 0x2C :: listing (j :: is), ?_⟩
    rw [← List.append_assoc]
    rfl

theorem listing_ne_nil {is : List Item} (hne : is ≠ []) : listing is ≠ [] := by
  obtain ⟨i, is, rfl⟩ := List.exists_cons_of_ne_nil hne
  obtain ⟨hfront, r, hr⟩ := listing_front i is
  rw [hfront, hr]
  simp [i.numeral.token.ne_nil]

/-- What is left of a list behind a gap, without the white space at its ends, has the same numbers. -/
theorem trim_listing {gap : UInt8} (hgap : Text.isGap gap = true) {is : List Item} (hne : is ≠ []) :
    ∃ is', is'.map Item.numeral = is.map Item.numeral ∧ Text.trim (gap :: listing is) = listing is' := by
  obtain ⟨i, is, rfl⟩ := List.exists_cons_of_ne_nil hne
  obtain ⟨hfront, r, hr⟩ := listing_front i is
  obtain ⟨is', w, b, hw, htext, hnumerals, hb, hlast⟩ :=
    listing_back { i with before := [], blank := ⟨.nil, i.blank.2⟩ } is
  obtain ⟨a, _, ha, _, hfirst, _⟩ := Item.ends i.numeral
  have hne' : listing is' ≠ [] := by
    intro hnil
    rw [hnil] at hlast
    cases hlast
  have hhead : (listing is').head? = some a := by
    rw [← List.head?_append_of_ne_nil _ hne', ← htext, hr, List.head?_append_of_ne_nil _ i.numeral.token.ne_nil, hfirst]
  refine ⟨is', hnumerals, ?_⟩
  rw [hfront, htext, ← List.cons_append]
  exact Text.trim_between (i.blank.1.cons hgap) hw ha hb hhead hlast

namespace DataSegment

theorem itemBytes_of_fits {size : Nat} (hpos : 0 < size) (hsize : size ≤ 4) {is : List Item}
    (h : ∀ n ∈ is.map Item.numeral, n.Fits size) :
    itemBytes size (is.map Item.text) = ((is.map Item.numeral).flatMap fun n => lowBytes size n.value, none) := by
  induction is with
  | nil => rfl
  | cons i is ih =>
    have hi := (Numeral.dataValue_eq_ok_iff hpos hsize).mpr ⟨h i.numeral List.mem_cons_self, rfl⟩
    have his := ih fun n hn => h n (List.mem_cons_of_mem _ hn)
    simp only [List.map_cons, itemBytes, i.trim_text, hi, his, littleEndian_ofInt hsize, List.flatMap_cons]

theorem itemBytes_of_not_fits {size : Nat} (hpos : 0 < size) (hsize : size ≤ 4) {is : List Item}
    (h : ¬ ∀ n ∈ is.map Item.numeral, n.Fits size) : ∃ e, (itemBytes size (is.map Item.text)).2 = some (.value e) := by
  induction is with
  | nil => exact absurd (fun n hn => nomatch hn) h
  | cons i is ih =>
    simp only [List.map_cons, itemBytes, i.trim_text]
    cases hi : dataValue size i.numeral.text with
    | error e => exact ⟨e, rfl⟩
    | ok w =>
      have hfit := ((Numeral.dataValue_eq_ok_iff hpos hsize).mp hi).1
      refine ih fun his => h fun n hn => ?_
      rcases List.mem_cons.mp hn with rfl | hn
      · exact hfit
      · exact his n hn

/-! ## Lines -/

theorem directive_values (d : DataSegment) {name : Text} {size : Nat} (h : itemSize? name = some size) (argument : Text) :
    d.directive name argument = d.values size argument := by
  rcases itemSize?_cases h with ⟨rfl, rfl⟩ | ⟨rfl, rfl⟩ | ⟨rfl, rfl⟩
  · rfl
  · rfl
  · rfl

/-- A directive for values in letters of any case has the bytes of its name, up to their case. -/
theorem spelled_name {written name : Text} {size : Nat} (hsize : itemSize? name = some size)
    (h : Text.toLower written = name) :
    written.length = name.length ∧ written.head? = some 0x2E ∧
      ∀ b ∈ written, (!Text.isGap b) = true ∧ b ≠ 0x3A := by
  have hname : name.head? = some 0x2E ∧
      ∀ b ∈ name, (b < 0x80 ∧ b ∉ [0, 0x69, 0x6B]) ∧ (!Text.isGap b) = true ∧ b ≠ 0x3A := by
    rcases itemSize?_cases hsize with ⟨rfl, rfl⟩ | ⟨rfl, rfl⟩ | ⟨rfl, rfl⟩ <;> decide +kernel
  have lower : ∀ b : UInt8, (Text.isGap b = true ∨ b = 0x3A → Text.lowerByte b = b) ∧
      (Text.lowerByte b = 0x2E → b = 0x2E) := Text.forall_byte (by decide +kernel)
  have hbytes : written.map Text.lowerByte = name := by
    rw [← h, Text.toLower_ascii (Text.ascii_of_toLower (h ▸ fun b hb => (hname.2 b hb).1))]
  refine ⟨by rw [← hbytes, List.length_map], ?_, fun b hb => ?_⟩
  · rw [← hbytes, List.head?_map, Option.map_eq_some_iff] at hname
    obtain ⟨⟨b, hb, hdot⟩, _⟩ := hname
    rw [hb, (lower b).2 hdot]
  · have hmem : Text.lowerByte b ∈ name := hbytes ▸ List.mem_map_of_mem hb
    obtain ⟨_, hnotgap, hnotcolon⟩ := hname.2 _ hmem
    constructor
    · cases hg : Text.isGap b with
      | false => rfl
      | true => rwa [(lower b).1 (Or.inl hg), hg] at hnotgap
    · intro hcolon
      rw [(lower b).1 (Or.inr hcolon)] at hnotcolon
      exact hnotcolon hcolon

/-- A line with a list runs its directive on the numbers alone. -/
theorem line_values {d : DataSegment} {l : Line} {written name : Text} {size : Nat} {gap : UInt8} {is : List Item}
    (hname : Text.toLower written = name) (hsize : itemSize? name = some size) (hgap : Text.isGap gap = true)
    (hne : is ≠ []) (htext : l.text = written ++ gap :: listing is) :
    ∃ is' : List Item, is'.map Item.numeral = is.map Item.numeral ∧
      d.line l = ({ (d.align size).relabel.append (itemBytes size (is'.map Item.text)).1 with pending := [] },
        (itemBytes size (is'.map Item.text)).2.map .error) := by
  obtain ⟨hlen, hdot, hbytes⟩ := spelled_name hsize hname
  obtain ⟨is', hnumerals, htrim⟩ := trim_listing hgap hne
  refine ⟨is', hnumerals, ?_⟩
  obtain ⟨htake, _⟩ := Source.takeWhile_append_cons (fun b hb => (hbytes b hb).1) gap (by simp [hgap]) (listing is)
  rw [← htext] at htake
  have hstatement : l.statement = ⟨[], l.text⟩ := by
    refine Source.ofCode_unlabelled ?_
    rw [Bool.eq_false_iff]
    intro hlabelled
    rw [Source.isLabelled, htake, Bool.and_eq_true, Source.endsWith_colon] at hlabelled
    exact (hbytes _ (List.mem_of_getLast? hlabelled.1)).2 rfl
  have hdirective : l.directive? = some name := by
    have hhead : (l.text.head? == some 0x2E) = true := by
      rw [htext, List.head?_append, hdot]
      rfl
    rw [Line.directive?, hstatement, Source.directive?, if_pos hhead, htake, hname]
  have hargument : argumentOf l name = listing is' := by
    rw [argumentOf, hstatement, htext, ← hlen, List.drop_left, htrim]
  have hlabelled : d.labelled l = .ok d := by
    rw [labelled, hstatement]
    rfl
  have hfits : name.length ≤ l.statement.body.length := by
    rw [hstatement, htext, ← hlen, List.length_append]
    exact Nat.le_add_right _ _
  have hne' : is' ≠ [] := by
    intro hnil
    rw [hnil, List.map_nil, eq_comm, List.map_eq_nil_iff] at hnumerals
    exact hne hnumerals
  have hrun : d.directive name (argumentOf l name) =
      ((d.align size).relabel.append (itemBytes size (is'.map Item.text)).1, (itemBytes size (is'.map Item.text)).2) := by
    rw [directive_values d hsize, hargument, values, if_neg (by simpa using listing_ne_nil hne'),
      splitOperands_listing hne']
  exact line_directive hlabelled hdirective hfits hrun

theorem take_flatMap {α : Type} {f : α → List UInt8} {size : Nat} (hf : ∀ a, (f a).length = size) {l : List α} {k : Nat}
    {a : α} (h : l[k]? = some a) : ((l.flatMap f).drop (size * k)).take size = f a := by
  induction l generalizing k with
  | nil => cases h
  | cons b l ih =>
    rw [List.flatMap_cons]
    cases k with
    | zero =>
      cases h
      rw [Nat.mul_zero, List.drop_zero, List.take_left' (hf a)]
    | succ k =>
      rw [Nat.mul_succ, Nat.add_comm, ← List.drop_drop, List.drop_left' (hf b)]
      exact ih h

/-- A list of numbers is taken just if each of them fits, and refused for one that does not. If it is taken, zeros fill up
to a multiple of the size of the items, and the numbers are stored from there on, one after the other. Addresses are
counted on past the top. -/
theorem values_stored_or_refused {d : DataSegment} {l : Line} {written name : Text} {size : Nat} {gap : UInt8}
    {is : List Item} (hname : Text.toLower written = name) (hsize : itemSize? name = some size)
    (hgap : Text.isGap gap = true) (hne : is ≠ []) (htext : l.text = written ++ gap :: listing is) :
    ((d.line l).2 = none ↔ ∀ i ∈ is, i.numeral.Fits size) ∧
    ((d.line l).2 ≠ none → ∃ e, (d.line l).2 = some (.error (.value e))) ∧
    ∀ d', d.line l = (d', none) → ∃ address, size ∣ address ∧ d.top ≤ address ∧ address < d.top + size ∧
      d'.base = d.base ∧
      d'.bytes = d.bytes ++ List.replicate (address - d.top) 0 ++ is.flatMap (fun i => lowBytes size i.numeral.value) ∧
      ∀ k i, is[k]? = some i →
        (d'.bytes.drop (address + size * k - d.base.toNat)).take size = lowBytes size i.numeral.value := by
  obtain ⟨is', hnumerals, hline⟩ := line_values (d := d) hname hsize hgap hne htext
  obtain ⟨hpos, hle⟩ : 0 < size ∧ size ≤ 4 := by
    rcases itemSize?_cases hsize with ⟨_, rfl⟩ | ⟨_, rfl⟩ | ⟨_, rfl⟩ <;> decide
  have hfits : (∀ n ∈ is'.map Item.numeral, n.Fits size) ↔ ∀ i ∈ is, i.numeral.Fits size := by
    rw [hnumerals, List.forall_mem_map]
  by_cases hall : ∀ i ∈ is, i.numeral.Fits size
  · rw [itemBytes_of_fits hpos hle (hfits.mpr hall), hnumerals, List.flatMap_map] at hline
    rw [hline]
    refine ⟨⟨fun _ => hall, fun _ => rfl⟩, fun h => absurd rfl h, fun d' hd' => ?_⟩
    obtain rfl := (Prod.mk.inj hd').1
    obtain ⟨hless, hmultiple⟩ := padding_spec hpos d.top
    have hcursor : d.cursor.toNat % size = d.top % size := by
      rw [cursor_toNat, Nat.mod_mod_of_dvd _ (itemSize?_dvd hsize)]
    have hbytes : ((d.align size).relabel.append (is.flatMap fun i => lowBytes size i.numeral.value)).bytes =
        d.bytes ++ List.replicate ((size - d.top % size) % size) 0 ++
          is.flatMap (fun i => lowBytes size i.numeral.value) := by
      rw [← hcursor]
      rfl
    refine ⟨d.top + (size - d.top % size) % size, Nat.dvd_of_mod_eq_zero hmultiple, Nat.le_add_right _ _,
      Nat.add_lt_add_left hless _, rfl, ?_, fun k i hi => ?_⟩
    · rw [Nat.add_sub_cancel_left]
      exact hbytes
    · have hplace : d.top + (size - d.top % size) % size + size * k - d.base.toNat =
          (d.bytes ++ List.replicate ((size - d.top % size) % size) 0).length + size * k := by
        rw [List.length_append, List.length_replicate, top]
        omega
      show (List.drop _ ((d.align size).relabel.append _).bytes).take size = _
      rw [hbytes, hplace, List.drop_length_add_append,
        take_flatMap (fun i : Item => lowBytes_length size i.numeral.value) hi]
  · obtain ⟨e, he⟩ := itemBytes_of_not_fits hpos hle (hfits.not.mpr hall)
    rw [he] at hline
    rw [hline]
    refine ⟨⟨fun h => absurd h (Option.some_ne_none _), fun h => absurd h hall⟩, fun _ => ⟨e, rfl⟩, fun d' hd' => ?_⟩
    cases (Prod.mk.inj hd').2

/-- The numbers -32768, 0xfF and +65535 with tabs, a no-break space and a space around them. -/
def mixedItems : List Item := [
  ⟨[], .decimal .minus ⟨3, false⟩ [⟨2, false⟩, ⟨7, false⟩, ⟨6, false⟩, ⟨8, false⟩], [0x20], by decide +kernel⟩,
  ⟨[0xC2, 0xA0], .hex true [⟨15, false⟩, ⟨15, true⟩], [], by decide +kernel⟩,
  ⟨[0x09], .decimal .plus ⟨6, false⟩ [⟨5, false⟩, ⟨5, false⟩, ⟨3, false⟩, ⟨5, false⟩], [0x09], by decide +kernel⟩]

def mixedLine : Line := { number := 1, text := Text.ofString ".HWord" ++ 0x09 :: listing mixedItems }

/-- They are stored from the next even address on. -/
theorem values_stored_or_refused_mixed :
    ∃ d', (start 0x101 .empty).line mixedLine = (d', none) ∧
      d'.bytes = [0, 0x00, 0x80, 0xFF, 0x00, 0xFF, 0xFF] := by
  have hname : Text.toLower (Text.ofString ".HWord") = Text.ofString ".hword" := by decide +kernel
  have hsize : itemSize? (Text.ofString ".hword") = some 2 := by decide +kernel
  have hne : mixedItems ≠ [] := List.cons_ne_nil _ _
  obtain ⟨taken, _, stored⟩ :=
    values_stored_or_refused (d := start 0x101 .empty) (l := mixedLine) hname hsize (show Text.isGap 0x09 = true by decide)
      hne rfl
  have hline : (start 0x101 .empty).line mixedLine = (((start 0x101 .empty).line mixedLine).1, none) :=
    Prod.ext rfl (taken.mpr (by decide +kernel))
  obtain ⟨address, hdvd, hlow, hhigh, _, hbytes, _⟩ := stored _ hline
  have htop : (start 0x101 .empty).top = 0x101 := rfl
  obtain rfl : address = 0x102 := by omega
  rw [htop] at hbytes
  exact ⟨_, hline, hbytes.trans (by decide +kernel)⟩

end DataSegment

end Assembly

end Rv32Tools
