import Mathlib.Data.List.Induction
import Mathlib.Data.List.Nodup
import Rv32Tools.Proofs.Assembly.Symbols

/-
  Rv32Tools.Proofs.Assembly.SymbolHistory — the table of labels by what has been done to it.

  A history is a list of edits: definitions, which may be refused, and moves. It starts from the empty table. Each edit
  puts an entry at the end, or moves one, or does nothing (`edit_cases`); from this follows what every history leaves:
  - names are proper and no name is there twice (`WellFormed`, `ofHistory_wellFormed`);
  - a label is found as the definition that was taken made it, at the address of the last move after it
    (`find?_ofHistory`);
  - there are as many labels as definitions that were taken (`size_ofHistory`).

  Labels are listed by segment, address and name. Names tell labels apart, so the order is strict
  (`WellFormed.sorted_precedes`), and labels that make up the same set have one list, whatever their histories
  (`WellFormed.sorted_eq_of_mem_iff`).
-/

namespace Rv32Tools

theorem Text.before_iff_lt (s t : Text) : Text.before s t = true ↔ s < t := by
  induction s generalizing t with
  | nil =>
    cases t with
    | nil => simp [before]
    | cons b t => simp [before]
  | cons a s ih =>
    cases t with
    | nil => simp [before]
    | cons b t => simp [before, List.cons_lt_cons_iff, ih]

namespace Assembly

/-! ## Names -/

/-- A letter or an underscore. -/
def IsNameStart (b : UInt8) : Prop := 0x41 ≤ b ∧ b ≤ 0x5A ∨ 0x61 ≤ b ∧ b ≤ 0x7A ∨ b = 0x5F

instance (b : UInt8) : Decidable (IsNameStart b) := inferInstanceAs (Decidable (_ ∨ _))

/-- A letter or an underscore, then letters, underscores and digits. -/
def ProperName (name : Text) : Prop :=
  ∃ b r, name = b :: r ∧ IsNameStart b ∧ ∀ c ∈ r, IsNameStart c ∨ 0x30 ≤ c ∧ c ≤ 0x39

theorem isLabelName_iff (name : Text) : isLabelName name = true ↔ ProperName name := by
  have start : ∀ b, Text.isDigitByte b = false ∧ Text.isWordByte b = true ↔ IsNameStart b :=
    Text.forall_byte (by decide +kernel)
  have inner : ∀ b, Text.isWordByte b = true ↔ IsNameStart b ∨ 0x30 ≤ b ∧ b ≤ 0x39 :=
    Text.forall_byte (by decide +kernel)
  cases name with
  | nil => simp [isLabelName, ProperName]
  | cons b r =>
    simp only [isLabelName, Bool.and_eq_true, Bool.not_eq_true', List.all_cons, List.all_eq_true]
    constructor
    · intro h
      obtain ⟨hdigit, hword, hr⟩ := h
      exact ⟨b, r, rfl, (start b).mp ⟨hdigit, hword⟩, fun c hc => (inner c).mp (hr c hc)⟩
    · intro h
      obtain ⟨_, _, he, hb, hr⟩ := h
      cases he
      obtain ⟨hdigit, hword⟩ := (start b).mpr hb
      exact ⟨hdigit, hword, fun c hc => (inner c).mpr (hr c hc)⟩

/-! ## The order of labels -/

namespace Symbol

/-- Higher segments first, then lower addresses, then names by their bytes. -/
def Precedes (a b : Symbol) : Prop :=
  b.segment.tag < a.segment.tag ∨
    a.segment = b.segment ∧ (a.address < b.address ∨ a.address = b.address ∧ a.name < b.name)

theorem before_iff (a b : Symbol) : a.before b = true ↔ a.Precedes b := by
  unfold before Precedes
  by_cases hs : a.segment = b.segment
  · by_cases ha : a.address = b.address
    · simp [hs, ha, Text.before_iff_lt]
    · simp [hs, ha, BitVec.lt_def]
  · simp [hs]

theorem not_precedes_self (a : Symbol) : ¬ a.Precedes a := by
  intro h
  rcases h with h | ⟨_, h | ⟨_, h⟩⟩
  · exact UInt8.lt_irrefl _ h
  · exact BitVec.lt_irrefl _ h
  · exact List.lt_irrefl _ h

theorem Precedes.trans {a b c : Symbol} (h : a.Precedes b) (h' : b.Precedes c) : a.Precedes c := by
  rcases h with h | ⟨hs, h⟩
  · rcases h' with h' | ⟨hs', _⟩
    · exact Or.inl (UInt8.lt_trans h' h)
    · exact Or.inl (hs' ▸ h)
  · rcases h' with h' | ⟨hs', h'⟩
    · exact Or.inl (hs ▸ h')
    · refine Or.inr ⟨hs.trans hs', ?_⟩
      rcases h with h | ⟨ha, h⟩
      · rcases h' with h' | ⟨ha', _⟩
        · exact Or.inl (BitVec.lt_trans h h')
        · exact Or.inl (ha' ▸ h)
      · rcases h' with h' | ⟨ha', h'⟩
        · exact Or.inl (ha ▸ h')
        · exact Or.inr ⟨ha.trans ha', List.lt_trans h h'⟩

/-- Two labels stand in one order or the other, or agree in all that the order looks at. -/
theorem precedes_trichotomy (a b : Symbol) :
    a.Precedes b ∨ (a.segment = b.segment ∧ a.address = b.address ∧ a.name = b.name) ∨ b.Precedes a := by
  by_cases hs : a.segment = b.segment
  · rcases BitVec.lt_trichotomy a.address b.address with ha | ha | ha
    · exact Or.inl (Or.inr ⟨hs, Or.inl ha⟩)
    · have names : a.name < b.name ∨ a.name = b.name ∨ b.name < a.name := Std.Trichotomous.rel_or_eq_or_rel_swap
      rcases names with hn | hn | hn
      · exact Or.inl (Or.inr ⟨hs, Or.inr ⟨ha, hn⟩⟩)
      · exact Or.inr (Or.inl ⟨hs, ha, hn⟩)
      · exact Or.inr (Or.inr (Or.inr ⟨hs.symm, Or.inr ⟨ha.symm, hn⟩⟩))
    · exact Or.inr (Or.inr (Or.inr ⟨hs.symm, Or.inl ha⟩))
  · have tags : a.segment.tag < b.segment.tag ∨ a.segment.tag = b.segment.tag ∨ b.segment.tag < a.segment.tag :=
      Std.Trichotomous.rel_or_eq_or_rel_swap
    rcases tags with ht | ht | ht
    · exact Or.inr (Or.inr (Or.inl ht))
    · exact absurd (congrArg Segment.mk ht) hs
    · exact Or.inl (Or.inl ht)

/-- What is not after a label is not after one behind it: the order that labels are sorted by. -/
theorem not_precedes_trans {a b c : Symbol} (h : ¬ b.Precedes a) (h' : ¬ c.Precedes b) : ¬ c.Precedes a := by
  intro hca
  rcases precedes_trichotomy b c with hbc | ⟨hs, ha, hn⟩ | hcb
  · exact h (hbc.trans hca)
  · unfold Precedes at h hca
    rw [hs, ha, hn] at h
    exact h hca
  · exact h' hcb

end Symbol

/-! ## Histories -/

/-- What is done to a table. -/
inductive Edit where
  | define (s : Symbol)
  | move (name : Text) (address : Word)
  deriving DecidableEq, Repr

namespace SymbolTable

/-- The table after an edit. A definition that is refused leaves it as it is. -/
def edit (t : SymbolTable) : Edit → SymbolTable
  | .define s =>
    match t.define s with
    | .ok t' => t'
    | .error _ => t
  | .move name address => t.moveTo name address

/-- The table that a history leaves. -/
def ofHistory (es : List Edit) : SymbolTable := es.foldl edit empty

theorem ofHistory_concat (es : List Edit) (e : Edit) : ofHistory (es ++ [e]) = (ofHistory es).edit e :=
  List.foldl_concat ..

theorem moveTo_eq (t : SymbolTable) (name : Text) (address : Word) :
    t.moveTo name address = ⟨t.entries.map (movedIn [name] address)⟩ := foldl_moveTo t [name] address

theorem edit_of_ok {t t' : SymbolTable} {s : Symbol} (h : t.define s = .ok t') : t.edit (.define s) = t' := by
  rw [edit, h]

theorem edit_of_error {t : SymbolTable} {s : Symbol} {error : DefineError} (h : t.define s = .error error) :
    t.edit (.define s) = t := by
  rw [edit, h]

/-- What an edit does. -/
theorem edit_cases (t : SymbolTable) (e : Edit) :
    (∃ s, e = .define s ∧ isLabelName s.name = true ∧ t.find? s.name = none ∧ t.edit e = ⟨t.entries ++ [s]⟩) ∨
    (∃ s error, e = .define s ∧ t.define s = .error error ∧ t.edit e = t) ∨
    ∃ name address, e = .move name address ∧ t.edit e = ⟨t.entries.map (movedIn [name] address)⟩ := by
  cases e with
  | define s =>
    cases hd : t.define s with
    | ok t' =>
      obtain ⟨hname, hnew, ht'⟩ := define_eq_ok_iff.mp hd
      exact Or.inl ⟨s, rfl, hname, hnew, (edit_of_ok hd).trans ht'⟩
    | error error => exact Or.inr (Or.inl ⟨s, error, rfl, hd, edit_of_error hd⟩)
  | move name address => exact Or.inr (Or.inr ⟨name, address, rfl, moveTo_eq t name address⟩)

theorem find?_eq_none_iff {t : SymbolTable} {name : Text} : t.find? name = none ↔ ∀ s ∈ t.entries, s.name ≠ name := by
  rw [find?, List.find?_eq_none]
  simp only [beq_iff_eq, ne_eq]

/-- A definition is refused for its name only: it is not proper, or it is taken. -/
theorem define_eq_error_iff {t : SymbolTable} {s : Symbol} :
    (∃ error, t.define s = .error error) ↔ ¬ ProperName s.name ∨ ∃ s' ∈ t.entries, s'.name = s.name := by
  have taken : (∃ s' ∈ t.entries, s'.name = s.name) ↔ t.find? s.name ≠ none := by
    rw [ne_eq, find?_eq_none_iff]
    simp only [ne_eq, not_forall, not_not, exists_prop]
  rw [taken, ← isLabelName_iff]
  unfold define
  by_cases hname : isLabelName s.name = true
  · cases hf : t.find? s.name with
    | none => simp [hname]
    | some e => simp [hname]
  · simp [hname]

/-! ### Names in a table -/

/-- No two labels have the same name, and every name is proper. -/
structure WellFormed (t : SymbolTable) : Prop where
  nodup : (t.entries.map Symbol.name).Nodup
  proper : ∀ s ∈ t.entries, ProperName s.name

theorem map_movedIn_name (names : List Text) (address : Word) (ss : List Symbol) :
    (ss.map (movedIn names address)).map Symbol.name = ss.map Symbol.name := by
  rw [List.map_map]
  exact List.map_congr_left fun s _ => movedIn_name names address s

theorem WellFormed.edit {t : SymbolTable} (h : WellFormed t) (e : Edit) : WellFormed (t.edit e) := by
  rcases edit_cases t e with ⟨s, _, hname, hnew, hedit⟩ | ⟨s, error, _, _, hedit⟩ | ⟨name, address, _, hedit⟩
  · rw [hedit]
    constructor
    · rw [List.map_append, List.nodup_append]
      refine ⟨h.nodup, List.nodup_singleton s.name, ?_⟩
      intro a ha b hb
      obtain ⟨s', hs', rfl⟩ := List.mem_map.mp ha
      rw [List.mem_singleton.mp hb]
      exact find?_eq_none_iff.mp hnew s' hs'
    · intro s' hs'
      rcases List.mem_append.mp hs' with hs' | hs'
      · exact h.proper s' hs'
      · rw [List.mem_singleton.mp hs']
        exact (isLabelName_iff s.name).mp hname
  · rw [hedit]
    exact h
  · rw [hedit]
    constructor
    · rw [map_movedIn_name]
      exact h.nodup
    · intro s' hs'
      obtain ⟨s, hs, rfl⟩ := List.mem_map.mp hs'
      rw [movedIn_name]
      exact h.proper s hs

theorem ofHistory_wellFormed (es : List Edit) : WellFormed (ofHistory es) := by
  induction es using List.reverseRecOn with
  | nil => exact ⟨List.nodup_nil, fun s hs => absurd hs List.not_mem_nil⟩
  | append_singleton es e ih =>
    rw [ofHistory_concat]
    exact ih.edit e

/-- A label is found by its name. -/
theorem WellFormed.find?_name {t : SymbolTable} (h : WellFormed t) {s : Symbol} (hs : s ∈ t.entries) :
    t.find? s.name = some s := by
  cases hf : t.find? s.name with
  | none => exact absurd rfl (find?_eq_none_iff.mp hf s hs)
  | some s' =>
    obtain ⟨hs', hname⟩ := find?_eq_some hf
    rw [List.inj_on_of_nodup_map h.nodup hs' hs hname]

/-! ### What a history leaves -/

/-- The addresses that edits move a label to, in order. -/
def movesOf (name : Text) (es : List Edit) : List Word :=
  es.filterMap fun e =>
    match e with
    | .define _ => none
    | .move n address => if n = name then some address else none

/-- The history takes a definition of `name`, and `s` is what it defines, at the address of the last move after it. -/
def Leaves (es : List Edit) (name : Text) (s : Symbol) : Prop :=
  ∃ earlier d later, es = earlier ++ .define d :: later ∧ (∃ t, (ofHistory earlier).define d = .ok t) ∧ d.name = name ∧
    s = { d with address := (movesOf name later).getLast?.getD d.address }

/-- The last edit of a history is the definition itself, or comes after it. -/
theorem leaves_concat {es : List Edit} {e : Edit} {name : Text} {s : Symbol} :
    Leaves (es ++ [e]) name s ↔
      (e = .define s ∧ (∃ t, (ofHistory es).define s = .ok t) ∧ s.name = name) ∨
      ∃ s', Leaves es name s' ∧ s = { s' with address := (movesOf name [e]).getLast?.getD s'.address } := by
  have last : ∀ (d : Symbol) (later : List Edit), (movesOf name (later ++ [e])).getLast?.getD d.address =
      (movesOf name [e]).getLast?.getD ((movesOf name later).getLast?.getD d.address) := by
    intro d later
    rw [movesOf, List.filterMap_append, List.getLast?_append, Option.getD_or]
    rfl
  constructor
  · intro h
    obtain ⟨earlier, d, later, he, htaken, hname, hs⟩ := h
    rcases List.eq_nil_or_concat later with rfl | ⟨later', y, rfl⟩
    · obtain ⟨rfl, hlast⟩ := List.append_inj' he rfl
      obtain rfl : s = d := hs
      exact Or.inl ⟨(List.cons.inj hlast).1, htaken, hname⟩
    · rw [List.concat_eq_append, ← List.cons_append, ← List.append_assoc] at he
      obtain ⟨rfl, hlast⟩ := List.append_inj' he rfl
      obtain rfl := (List.cons.inj hlast).1
      refine Or.inr ⟨_, ⟨earlier, d, later', rfl, htaken, hname, rfl⟩, ?_⟩
      rw [hs, List.concat_eq_append, last]
  · intro h
    rcases h with ⟨rfl, htaken, hname⟩ | ⟨s', ⟨earlier, d, later, rfl, htaken, hname, rfl⟩, rfl⟩
    · exact ⟨es, s, [], rfl, htaken, hname, rfl⟩
    · refine ⟨earlier, d, later ++ [e], List.append_assoc .., htaken, hname, ?_⟩
      rw [last]

/-- After an edit a label is found if the edit defines it, or as it was found before, moved by the edit. -/
theorem find?_edit {t : SymbolTable} {e : Edit} {name : Text} {s : Symbol} :
    (t.edit e).find? name = some s ↔
      (e = .define s ∧ (∃ t', t.define s = .ok t') ∧ s.name = name) ∨
      ∃ s', t.find? name = some s' ∧ s = { s' with address := (movesOf name [e]).getLast?.getD s'.address } := by
  rcases edit_cases t e with ⟨d, rfl, hname, hnew, hedit⟩ | ⟨d, error, rfl, hd, hedit⟩ | ⟨n, address, rfl, hedit⟩
  · rw [hedit]
    cases hf : t.find? name with
    | some s' =>
      rw [find?_append_of_some hf]
      constructor
      · intro h
        exact Or.inr ⟨s', rfl, (Option.some.inj h).symm⟩
      · intro h
        rcases h with ⟨he, _, hn⟩ | ⟨s'', hs'', hs⟩
        · -- the name is in the table, so its definition is not taken
          cases he
          rw [hn, hf] at hnew
          cases hnew
        · rw [hs'', hs]
          rfl
    | none =>
      have hfind : find? ⟨t.entries ++ [d]⟩ name = if d.name = name then some d else none := by
        unfold find? at hf ⊢
        rw [List.find?_append, hf, Option.none_or, List.find?_singleton]
        simp only [beq_iff_eq]
      rw [hfind]
      constructor
      · intro h
        split at h
        · rename_i hn
          cases h
          exact Or.inl ⟨rfl, ⟨_, define_eq_ok_iff.mpr ⟨hname, hnew, rfl⟩⟩, hn⟩
        · cases h
      · intro h
        rcases h with ⟨he, _, hn⟩ | ⟨s'', hs'', _⟩
        · cases he
          rw [if_pos hn]
        · cases hs''
  · rw [hedit]
    constructor
    · intro h
      exact Or.inr ⟨s, h, rfl⟩
    · intro h
      rcases h with ⟨he, ⟨t', ht'⟩, _⟩ | ⟨s', hs', hs⟩
      · cases he
        rw [hd] at ht'
        cases ht'
      · rw [hs', hs]
        rfl
  · have moved : ∀ s', t.find? name = some s' →
        movedIn [n] address s' = { s' with address := (movesOf name [.move n address]).getLast?.getD s'.address } := by
      intro s' hs'
      obtain ⟨_, rfl⟩ := find?_eq_some hs'
      by_cases he : n = s'.name
      · simp [movedIn, movesOf, he]
      · simp [movedIn, movesOf, he, Ne.symm he]
    rw [hedit, find?_movedIn, Option.map_eq_some_iff]
    constructor
    · intro h
      obtain ⟨s', hs', hs⟩ := h
      exact Or.inr ⟨s', hs', by rw [← hs, moved s' hs']⟩
    · intro h
      rcases h with ⟨he, _⟩ | ⟨s', hs', hs⟩
      · cases he
      · exact ⟨s', hs', by rw [hs, moved s' hs']⟩

/-- A label is found as the definition that was taken made it, at the address of the last move after it. -/
theorem find?_ofHistory {es : List Edit} {name : Text} {s : Symbol} :
    (ofHistory es).find? name = some s ↔ Leaves es name s := by
  induction es using List.reverseRecOn generalizing s with
  | nil =>
    constructor
    · intro h
      cases h
    · intro h
      obtain ⟨earlier, _, _, he, _⟩ := h
      exact absurd he (by simp)
  | append_singleton es e ih =>
    rw [leaves_concat, ofHistory_concat, find?_edit]
    simp only [ih]

/-- The edit is a definition, and the table takes it. -/
def takes (t : SymbolTable) : Edit → Bool
  | .define s => (t.define s).isOk
  | .move .. => false

/-- The edit at place `n` of a history is a definition that is taken. -/
def takesAt (es : List Edit) (n : Nat) : Bool := es[n]?.any (ofHistory (es.take n)).takes

theorem size_edit (t : SymbolTable) (e : Edit) : (t.edit e).size = t.size + if t.takes e then 1 else 0 := by
  rcases edit_cases t e with ⟨d, rfl, hname, hnew, hedit⟩ | ⟨d, error, rfl, hd, hedit⟩ | ⟨n, address, rfl, hedit⟩
  · have htaken : t.define d = .ok ⟨t.entries ++ [d]⟩ := define_eq_ok_iff.mpr ⟨hname, hnew, rfl⟩
    simp [hedit, size, takes, htaken, Except.isOk, Except.toBool]
  · simp [hedit, takes, hd, Except.isOk, Except.toBool]
  · simp [hedit, size, takes]

/-- There are as many labels as definitions that were taken. -/
theorem size_ofHistory (es : List Edit) : (ofHistory es).size = (List.range es.length).countP (takesAt es) := by
  induction es using List.reverseRecOn with
  | nil => rfl
  | append_singleton es e ih =>
    have hbefore : (List.range es.length).countP (takesAt (es ++ [e])) = (List.range es.length).countP (takesAt es) := by
      apply List.countP_congr
      intro n hn
      have hlt : n < es.length := List.mem_range.mp hn
      rw [takesAt, takesAt, List.getElem?_append_left hlt, List.take_append_of_le_length (Nat.le_of_lt hlt)]
    have hlast : takesAt (es ++ [e]) es.length = (ofHistory es).takes e := by
      rw [takesAt, List.getElem?_concat_length, List.take_left, Option.any_some]
    rw [ofHistory_concat, size_edit, ih, List.length_append, List.length_singleton, List.range_succ, List.countP_append,
      hbefore, List.countP_singleton, hlast]

/-! ### Labels in order -/

theorem sorted_perm (t : SymbolTable) : t.sorted.Perm t.entries := List.mergeSort_perm ..

/-- In a sorted list no label comes after one that it precedes; where names differ, each precedes all behind it. -/
theorem WellFormed.sorted_precedes {t : SymbolTable} (h : WellFormed t) : t.sorted.Pairwise Symbol.Precedes := by
  have le_iff : ∀ a b : Symbol, (!b.before a) = true ↔ ¬ b.Precedes a := by
    intro a b
    rw [← Symbol.before_iff, Bool.not_eq_true', Bool.not_eq_true]
  have hweak : t.sorted.Pairwise fun a b => (!b.before a) = true := by
    apply List.pairwise_mergeSort
    · intro a b c hab hbc
      rw [le_iff] at hab hbc ⊢
      exact Symbol.not_precedes_trans hab hbc
    · intro a b
      rw [Bool.or_eq_true, le_iff, le_iff]
      by_cases hba : b.Precedes a
      · exact Or.inr fun hab => b.not_precedes_self (hba.trans hab)
      · exact Or.inl hba
  have hnames : t.sorted.Pairwise fun a b => a.name ≠ b.name :=
    List.pairwise_map.mp ((t.sorted_perm.map Symbol.name).nodup_iff.mpr h.nodup)
  refine (hweak.and hnames).imp ?_
  intro a b hab
  rcases Symbol.precedes_trichotomy a b with hlt | ⟨_, _, hn⟩ | hgt
  · exact hlt
  · exact absurd hn hab.2
  · exact absurd hgt ((le_iff a b).mp hab.1)

/-- Labels that make up one set have one list in order. -/
theorem WellFormed.sorted_eq_of_mem_iff {t t' : SymbolTable} (h : WellFormed t) (h' : WellFormed t')
    (hmem : ∀ s, s ∈ t.entries ↔ s ∈ t'.entries) : t.sorted = t'.sorted := by
  have hperm : t.sorted.Perm t'.sorted :=
    calc
      t.sorted.Perm t.entries := t.sorted_perm
      List.Perm _ t'.entries := (List.perm_ext_iff_of_nodup h.nodup.of_map h'.nodup.of_map).mpr hmem
      List.Perm _ t'.sorted := t'.sorted_perm.symm
  refine List.Perm.eq_of_pairwise ?_ h.sorted_precedes h'.sorted_precedes hperm
  intro a b _ _ hab hba
  exact absurd (hab.trans hba) a.not_precedes_self

/-- What a table is after a history. -/
structure Consistent (es : List Edit) (t : SymbolTable) : Prop where
  /-- A definition is refused exactly if its name is not proper or is there, in whatever segment. -/
  refused : ∀ s, (∃ error, t.define s = .error error) ↔ ¬ ProperName s.name ∨ ∃ s' ∈ t.entries, s'.name = s.name
  /-- A definition that is refused changes nothing. -/
  kept : ∀ s error, t.define s = .error error → ofHistory (es ++ [.define s]) = t
  /-- A move of a name that is not there changes nothing. -/
  absent : ∀ name address, (∀ s ∈ t.entries, s.name ≠ name) → ofHistory (es ++ [.move name address]) = t
  nodup : (t.entries.map Symbol.name).Nodup
  size : t.size = (List.range es.length).countP (takesAt es)
  found : ∀ name s, t.find? name = some s ↔ Leaves es name s
  perm : t.sorted.Perm t.entries
  increasing : t.sorted.Pairwise Symbol.Precedes
  /-- The list in order is that of every history with the same labels. -/
  canonical : ∀ es', (∀ s, s ∈ (ofHistory es').entries ↔ s ∈ t.entries) → (ofHistory es').sorted = t.sorted

/-- Every history leaves a consistent table, and labels in an order of their own. -/
theorem ofHistory_consistent (es : List Edit) : Consistent es (ofHistory es) where
  refused := fun _ => define_eq_error_iff
  kept := by
    intro s error h
    rw [ofHistory_concat, edit_of_error h]
  absent := by
    intro name address h
    have hkeep : ∀ s ∈ (ofHistory es).entries, movedIn [name] address s = s := by
      intro s hs
      exact movedIn_of_not_mem (fun hn => h s hs (List.mem_singleton.mp hn)) address
    rw [ofHistory_concat, edit, moveTo_eq, List.map_congr_left hkeep, List.map_id']
  nodup := (ofHistory_wellFormed es).nodup
  size := size_ofHistory es
  found := fun _ _ => find?_ofHistory
  perm := sorted_perm _
  increasing := (ofHistory_wellFormed es).sorted_precedes
  canonical := by
    intro es' hmem
    exact (ofHistory_wellFormed es').sorted_eq_of_mem_iff (ofHistory_wellFormed es) hmem

/-- The second definition of a name is refused, and the label is moved from where the first one has put it. -/
theorem ofHistory_consistent_moved :
    (ofHistory [.define ⟨"a", 0x10, .text, 1⟩, .define ⟨"a", 0x20, .data, 2⟩, .move "a" 0x30, .move "b" 0x40]).find? "a" =
        some ⟨"a", 0x30, .text, 1⟩ ∧
      (ofHistory [.define ⟨"a", 0x10, .text, 1⟩, .define ⟨"a", 0x20, .data, 2⟩, .move "a" 0x30, .move "b" 0x40]).size = 1 := by
  have h := ofHistory_consistent
    [.define ⟨"a", 0x10, .text, 1⟩, .define ⟨"a", 0x20, .data, 2⟩, .move "a" 0x30, .move "b" 0x40]
  exact ⟨(h.found _ _).mpr ⟨[], ⟨"a", 0x10, .text, 1⟩, _, rfl, ⟨_, rfl⟩, rfl, rfl⟩, h.size.trans (by decide)⟩

end SymbolTable

end Assembly

end Rv32Tools
