import Rv32Tools.Proofs.Text.Patch
import Rv32Tools.Source.Literal
import Rv32Tools.Source.Statement

/-
  Rv32Tools.Proofs.Source.Bytes — which bytes numbers and names are made of, and what that leaves alone.

  A plain byte is visible ASCII that is neither a colon nor a quote mark: it ends no label and no word, and it
  opens nothing. Numbers are made of plain bytes (`number?_plain`), both as they are read and as they are written
  (`hexShort_plain`). Hence a statement keeps its words, one by one, when plain runs of it are replaced by plain
  runs (`words_ofCode_patched`).
-/

namespace Rv32Tools.Source

open Text (Patched isGraphic forall_byte)

def isPlain (b : UInt8) : Bool := isGraphic b && b != 0x3A && !isQuoteMark b

theorem isPlain_of_isWordByte {b : UInt8} : Text.isWordByte b = true → isPlain b = true :=
  forall_byte (p := fun b => Text.isWordByte b = true → isPlain b = true) (by decide +kernel) b

theorem isPlain_not_isGap {b : UInt8} : isPlain b = true → (!Text.isGap b) = true :=
  forall_byte (p := fun b => isPlain b = true → (!Text.isGap b) = true) (by decide +kernel) b

theorem isPlain_isGraphic {b : UInt8} (h : isPlain b = true) : isGraphic b = true := by
  simp only [isPlain, Bool.and_eq_true] at h
  exact h.1.1

theorem isPlain_not_isQuoteMark {b : UInt8} (h : isPlain b = true) : isQuoteMark b = false := by
  simp only [isPlain, Bool.and_eq_true, Bool.not_eq_true'] at h
  exact h.2

theorem isPlain_ne_colon {b : UInt8} (h : isPlain b = true) : b ≠ 0x3A := by
  rintro rfl
  exact absurd h (by decide)

/-! ## Numbers as they are read -/

theorem digitsFrom_forall {P : UInt8 → Prop} {base bound acc n : Nat} {s : Text}
    (hP : ∀ b d, Text.digitIn? base b = some d → P b) (h : Text.digitsFrom base bound acc s = .ok n) :
    ∀ b ∈ s, P b := by
  induction s generalizing acc with
  | nil => simp
  | cons a r ih =>
    simp only [Text.digitsFrom] at h
    split at h
    · cases h
    · rename_i d hd
      split at h
      · intro b hb
        rcases List.mem_cons.mp hb with rfl | hb
        · exact hP b d hd
        · exact ih h b hb
      · cases h

/-- What is read as a number is made of digits of its base. -/
theorem natural_forall {P : UInt8 → Prop} {base bound n : Nat} {s : Text}
    (hP : ∀ b d, Text.digitIn? base b = some d → P b) (h : Text.natural base bound s = .ok n) : ∀ b ∈ s, P b := by
  unfold Text.natural at h
  split at h
  · cases h
  · exact digitsFrom_forall hP h

/-- What is read as a number holds letters and digits only. -/
theorem natural_alnum {base bound n : Nat} {s : Text} (h : Text.natural base bound s = .ok n) :
    ∀ b ∈ s, Text.isAlnumByte b = true := by
  have value : ∀ b, (Text.digitValue? b).isSome = true → Text.isAlnumByte b = true := forall_byte (by decide +kernel)
  refine natural_forall (fun b d hd => value b ?_) h
  unfold Text.digitIn? at hd
  split at hd
  · rename_i hsome
    rw [hsome]
    rfl
  · cases hd

theorem toOption_eq_some {ε α : Type} {x : Except ε α} {a : α} (h : x.toOption = some a) : x = .ok a := by
  cases x with
  | ok b => cases h; rfl
  | error e => cases h

theorem after?_eq_some {p s r : Text} (h : Text.after? p s = some r) : s = p ++ r := by
  induction p generalizing s with
  | nil => simpa [Text.after?] using h
  | cons a p ih =>
    cases s with
    | nil => simp [Text.after?] at h
    | cons b s =>
      simp only [Text.after?] at h
      split at h
      · rename_i e; rw [e, ih h]; rfl
      · cases h

theorem magnitude?_alnum {s : Text} {n : Nat} (h : magnitude? s = some n) : ∀ b ∈ s, Text.isAlnumByte b = true := by
  unfold magnitude? at h
  split at h
  · rename_i digits hd
    have hdigits := natural_alnum (toOption_eq_some h)
    have mark : ∀ p : Text, (∀ b ∈ p, Text.isAlnumByte b = true) → s = p ++ digits →
        ∀ b ∈ s, Text.isAlnumByte b = true := by
      rintro p hp rfl b hb
      rcases List.mem_append.mp hb with hb | hb
      · exact hp b hb
      · exact hdigits b hb
    unfold hexDigits? at hd
    rcases Option.or_eq_some_iff.mp hd with hx | ⟨_, hx⟩
    · exact mark _ (by decide +kernel) (after?_eq_some hx)
    · exact mark _ (by decide +kernel) (after?_eq_some hx)
  · exact natural_alnum (toOption_eq_some h)

/-- A number is spelled in letters, digits and a sign. -/
theorem number?_bytes {s : Text} {v : Int} (h : number? s = some v) :
    ∀ b ∈ s, Text.isAlnumByte b = true ∨ b = 0x2B ∨ b = 0x2D := by
  have sign : ∀ {a : UInt8} {r : Text} {n : Nat}, a = 0x2B ∨ a = 0x2D → magnitude? r = some n →
      ∀ b ∈ a :: r, Text.isAlnumByte b = true ∨ b = 0x2B ∨ b = 0x2D := by
    intro a r n ha hr b hb
    rcases List.mem_cons.mp hb with rfl | hb
    · exact Or.inr ha
    · exact Or.inl (magnitude?_alnum hr b hb)
  unfold number? at h
  split at h
  · split at h
    · exact sign (Or.inr rfl) ‹_›
    · cases h
  · obtain ⟨n, hn, _⟩ := Option.map_eq_some_iff.mp h
    exact sign (Or.inl rfl) hn
  · obtain ⟨n, hn, _⟩ := Option.map_eq_some_iff.mp h
    exact fun b hb => Or.inl (magnitude?_alnum hn b hb)

theorem number?_ne_nil {s : Text} {v : Int} (h : number? s = some v) : s ≠ [] := by
  rintro rfl
  cases h

theorem magnitude?_head {b : UInt8} {r : Text} {n : Nat} (h : magnitude? (b :: r) = some n) :
    Text.isDigitByte b = true := by
  have digit : ∀ b, (Text.digitIn? 10 b).isSome = true → Text.isDigitByte b = true := forall_byte (by decide +kernel)
  unfold magnitude? at h
  split at h
  · rename_i digits hd
    have hzero : b = 0x30 := by
      unfold hexDigits? at hd
      rcases Option.or_eq_some_iff.mp hd with hx | ⟨_, hx⟩
      · exact (List.cons.inj (after?_eq_some hx)).1
      · exact (List.cons.inj (after?_eq_some hx)).1
    rw [hzero]
    decide
  · have hn := toOption_eq_some h
    simp only [Text.natural, List.isEmpty_cons, Bool.false_eq_true, if_false, Text.digitsFrom] at hn
    split at hn
    · cases hn
    · rename_i d hd
      exact digit b (by rw [hd]; rfl)

/-- A number starts with a digit or a sign. -/
theorem number?_head {b : UInt8} {r : Text} {v : Int} (h : number? (b :: r) = some v) :
    Text.isDigitByte b = true ∨ b = 0x2B ∨ b = 0x2D := by
  unfold number? at h
  split at h
  · rename_i hs
    exact Or.inr (Or.inr (List.cons.inj hs).1)
  · rename_i hs
    exact Or.inr (Or.inl (List.cons.inj hs).1)
  · obtain ⟨n, hn, _⟩ := Option.map_eq_some_iff.mp h
    exact Or.inl (magnitude?_head hn)

theorem number?_plain {s : Text} {v : Int} (h : number? s = some v) : ∀ b ∈ s, isPlain b = true := by
  have plain : ∀ b, (Text.isAlnumByte b = true ∨ b = 0x2B ∨ b = 0x2D) → isPlain b = true :=
    forall_byte (by decide +kernel)
  exact fun b hb => plain b (number?_bytes h b hb)

/-! ## Numbers as they are written -/

theorem hexShort_plain (n : Nat) : ∀ b ∈ (Text.hexShort n).map Text.upperByte, isPlain b = true := by
  have digit : ∀ d < 16, isPlain (Text.upperByte (Nat.digitChar d).toUInt8) = true := by decide
  have key : ∀ c ∈ Nat.toDigits 16 n, isPlain (Text.upperByte c.toUInt8) = true := by
    induction n using Nat.strongRecOn with
    | _ n ih =>
      intro c hc
      rw [Nat.toDigits_eq_if (by decide)] at hc
      split at hc
      · rw [List.mem_singleton.mp hc]; exact digit n ‹_›
      · rcases List.mem_append.mp hc with hc | hc
        · exact ih (n / 16) (by omega) c hc
        · rw [List.mem_singleton.mp hc]; exact digit (n % 16) (by omega)
  intro b hb
  obtain ⟨a, ha, rfl⟩ := List.mem_map.mp hb
  obtain ⟨c, hc, rfl⟩ := List.mem_map.mp ha
  exact key c hc

/-! ## Statements with plain runs replaced -/

theorem endsWith_colon (s : Text) : Text.endsWith ":" s = true ↔ s.getLast? = some 0x3A := by
  show ([0x3A] : Text).isSuffixOf s = true ↔ _
  rw [List.isSuffixOf_iff_suffix]
  constructor
  · rintro ⟨t, rfl⟩; simp
  · intro h
    obtain ⟨t, rfl⟩ := List.getLast?_eq_some_iff.mp h
    exact ⟨t, rfl⟩

/-- Whether a statement has a label, be it the empty one: its first word ends in a colon and holds no quote mark. -/
def isLabelled (code : Text) : Bool :=
  Text.endsWith ":" (code.takeWhile (!Text.isGap ·)) && !(code.takeWhile (!Text.isGap ·)).any isQuoteMark

theorem ofCode_labelled {code : Text} (h : isLabelled code = true) :
    Statement.ofCode code =
      ⟨(code.takeWhile (!Text.isGap ·)).dropLast, Text.trim (code.dropWhile (!Text.isGap ·))⟩ := if_pos h

theorem ofCode_unlabelled {code : Text} (h : isLabelled code = false) : Statement.ofCode code = ⟨[], code⟩ :=
  if_neg (by rw [← isLabelled, h]; simp)

theorem isLabelled_eq_false {s : Text} (h : Text.words s = []) : isLabelled s = false := by
  rw [Bool.eq_false_iff]
  intro hl
  unfold isLabelled at hl
  rw [Bool.and_eq_true, endsWith_colon] at hl
  have hcolon : 0x3A ∈ s := (List.takeWhile_sublist _).subset (List.mem_of_getLast? hl.1)
  exact Text.words_ne_nil (by decide) hcolon h

/-- A statement with a body that has no word is a line that has none. -/
theorem ofCode_blank {s : Text} (hb : (Statement.ofCode s).body ≠ [])
    (hw : Text.words (Statement.ofCode s).body = []) : Text.words s = [] := by
  cases hl : isLabelled s with
  | true =>
    -- behind a label blanks are trimmed by characters
    rw [ofCode_labelled hl] at hb hw
    rw [Text.words_trim] at hw
    exact absurd (Text.trim_eq_nil_iff.mpr hw) hb
  | false =>
    rwa [ofCode_unlabelled hl] at hw

/-- A visible byte of a line is in its label, or in a word of its body, or it is the colon between them. -/
theorem mem_ofCode {s : Text} {b : UInt8} (hb : isGraphic b = true) (h : b ∈ s) :
    b ∈ (Statement.ofCode s).label ∨ b = 0x3A ∨ ∃ w ∈ Text.words (Statement.ofCode s).body, b ∈ w := by
  cases hl : isLabelled s with
  | false =>
    rw [ofCode_unlabelled hl]
    exact Or.inr (Or.inr (Text.mem_words_of_isGraphic hb h))
  | true =>
    rw [ofCode_labelled hl, Text.words_trim]
    rw [← List.takeWhile_append_dropWhile (p := (!Text.isGap ·)) (l := s)] at h
    rcases List.mem_append.mp h with h | h
    · have hcolon : (s.takeWhile (!Text.isGap ·)).getLast? = some 0x3A := by
        rw [isLabelled, Bool.and_eq_true, endsWith_colon] at hl
        exact hl.1
      obtain ⟨label, hlabel⟩ := List.getLast?_eq_some_iff.mp hcolon
      rw [hlabel] at h ⊢
      rcases List.mem_append.mp h with h | h
      · rw [List.dropLast_concat]
        exact Or.inl h
      · exact Or.inr (Or.inl (List.mem_singleton.mp h))
    · exact Or.inr (Or.inr (Text.mem_words_of_isGraphic hb h))

/-- The words of a statement's body keep their places when plain runs of the statement are replaced. -/
theorem words_ofCode_patched {R : Text → Text → Prop} {s t : Text}
    (hR : ∀ c d, R c d → c ≠ [] ∧ d ≠ [] ∧ (∀ b ∈ c, isPlain b = true) ∧ ∀ b ∈ d, isPlain b = true)
    (h : Patched R s t) :
    List.Forall₂ (Patched R) (Text.words (Statement.ofCode s).body) (Text.words (Statement.ofCode t).body) := by
  have visible : ∀ c d, R c d → c ≠ [] ∧ d ≠ [] ∧ (∀ b ∈ c, isGraphic b = true) ∧ ∀ b ∈ d, isGraphic b = true := by
    intro c d hr
    obtain ⟨hc, hd, hcp, hdp⟩ := hR c d hr
    exact ⟨hc, hd, fun b hb => isPlain_isGraphic (hcp b hb), fun b hb => isPlain_isGraphic (hdp b hb)⟩
  have gapless : ∀ c d, R c d → (∀ b ∈ c, (!Text.isGap b) = true) ∧ ∀ b ∈ d, (!Text.isGap b) = true := fun c d hr =>
    ⟨fun b hb => isPlain_not_isGap ((hR c d hr).2.2.1 b hb), fun b hb => isPlain_not_isGap ((hR c d hr).2.2.2 b hb)⟩
  have first := h.takeWhile gapless
  have colon := first.getLast?_eq_some_iff (b := 0x3A) fun c d hr =>
    ⟨(hR c d hr).1, (hR c d hr).2.1, fun hb => isPlain_ne_colon ((hR c d hr).2.2.1 _ hb) rfl,
      fun hb => isPlain_ne_colon ((hR c d hr).2.2.2 _ hb) rfl⟩
  have quotes := first.any_eq isQuoteMark fun c d hr => by
    rw [List.any_eq_false.mpr fun b hb => by simp [isPlain_not_isQuoteMark ((hR c d hr).2.2.1 b hb)],
      List.any_eq_false.mpr fun b hb => by simp [isPlain_not_isQuoteMark ((hR c d hr).2.2.2 b hb)]]
  have labelled : isLabelled s = isLabelled t := by
    rw [isLabelled, isLabelled, quotes, Bool.eq_iff_iff, Bool.and_eq_true, Bool.and_eq_true, endsWith_colon,
      endsWith_colon, colon]
  cases hl : isLabelled s with
  | true =>
    rw [ofCode_labelled hl, ofCode_labelled (labelled ▸ hl), Text.words_trim, Text.words_trim]
    exact (h.dropWhile gapless).words visible
  | false =>
    rw [ofCode_unlabelled hl, ofCode_unlabelled (labelled ▸ hl)]
    exact h.words visible

end Rv32Tools.Source
