import Rv32Tools.Proofs.Source.Bytes
import Rv32Tools.Assembly.Symbol

/-
  Rv32Tools.Proofs.Assembly.Symbols — what defining and moving labels does to the table.

  A definition that succeeds puts one entry at the end (`define_eq_ok_iff`), moving a label changes addresses only
  (`moveTo_shape`). So a table that starts empty holds proper names only (`WellNamed`), and a label is found as it was
  defined (`find?_concat_self`) or moved (`find?_movedIn`).
-/

namespace Rv32Tools.Assembly.SymbolTable

theorem define_eq_ok_iff {t t' : SymbolTable} {s : Symbol} :
    t.define s = .ok t' ↔ isLabelName s.name = true ∧ t.find? s.name = none ∧ t' = ⟨t.entries ++ [s]⟩ := by
  unfold define
  by_cases hn : isLabelName s.name = true
  · cases hf : t.find? s.name with
    | none => simp [hn, eq_comm]
    | some e => simp [hn]
  · simp [hn]

theorem find?_eq_some {t : SymbolTable} {name : Text} {s : Symbol} (h : t.find? name = some s) :
    s ∈ t.entries ∧ s.name = name :=
  ⟨List.mem_of_find?_eq_some h, by simpa using List.find?_some h⟩

/-- All of an entry but its address. -/
def shape (s : Symbol) : Text × Segment × Nat := (s.name, s.segment, s.line)

/-- Moving a label changes nothing but an address. -/
theorem moveTo_shape (t : SymbolTable) (name : Text) (address : Word) :
    (t.moveTo name address).entries.map shape = t.entries.map shape := by
  rw [moveTo, List.map_map]
  apply List.map_congr_left
  intro s _
  simp only [Function.comp_apply]
  split <;> rfl

/-- What does not look at addresses holds of both of two tables that differ in addresses only. -/
theorem forall_of_shape {P : Text × Segment × Nat → Prop} {t t' : SymbolTable}
    (e : t'.entries.map shape = t.entries.map shape) (h : ∀ s ∈ t.entries, P (shape s)) :
    ∀ s ∈ t'.entries, P (shape s) := by
  intro s hs
  have : shape s ∈ t.entries.map shape := e ▸ List.mem_map_of_mem hs
  obtain ⟨s', hs', es⟩ := List.mem_map.mp this
  exact es ▸ h s' hs'

/-! ## What is found -/

theorem find?_append_of_some {t : SymbolTable} {name : Text} {s : Symbol} (h : t.find? name = some s)
    (more : List Symbol) : find? ⟨t.entries ++ more⟩ name = some s := by
  unfold find? at h ⊢
  rw [List.find?_append, h, Option.some_or]

theorem find?_concat_self {t : SymbolTable} {s : Symbol} (h : t.find? s.name = none) :
    find? ⟨t.entries ++ [s]⟩ s.name = some s := by
  unfold find? at h ⊢
  rw [List.find?_append, h, Option.none_or, List.find?_singleton, beq_self_eq_true, if_pos rfl]

/-- A label, moved if its name is one of `names`. -/
def movedIn (names : List Text) (address : Word) (s : Symbol) : Symbol :=
  if s.name ∈ names then { s with address } else s

theorem movedIn_name (names : List Text) (address : Word) (s : Symbol) : (movedIn names address s).name = s.name := by
  unfold movedIn
  split <;> rfl

theorem movedIn_of_not_mem {names : List Text} {s : Symbol} (h : s.name ∉ names) (address : Word) :
    movedIn names address s = s := if_neg h

/-- Labels moved one after the other to the same address are moved at once. -/
theorem foldl_moveTo (t : SymbolTable) (names : List Text) (address : Word) :
    names.foldl (fun t name => t.moveTo name address) t = ⟨t.entries.map (movedIn names address)⟩ := by
  induction names generalizing t with
  | nil =>
    have hkeep : movedIn [] address = id := funext fun s => movedIn_of_not_mem List.not_mem_nil address
    rw [List.foldl_nil, hkeep, List.map_id]
  | cons name names ih =>
    rw [List.foldl_cons, ih, moveTo, List.map_map]
    congr 2
    funext s
    by_cases h : s.name = name
    · by_cases hs : name ∈ names <;> simp [movedIn, h, hs]
    · by_cases hs : s.name ∈ names <;> simp [movedIn, h, hs]

theorem find?_movedIn (t : SymbolTable) (names : List Text) (address : Word) (name : Text) :
    find? ⟨t.entries.map (movedIn names address)⟩ name = (t.find? name).map (movedIn names address) := by
  have hname : ((fun s : Symbol => s.name == name) ∘ movedIn names address) = fun s => s.name == name := by
    funext s
    rw [Function.comp_apply, movedIn_name]
  rw [find?, List.find?_map, hname]
  rfl

/-! ## Proper names -/

/-- Every label in the table has a proper name. -/
def WellNamed (t : SymbolTable) : Prop := ∀ s ∈ t.entries, isLabelName s.name = true

theorem WellNamed.define {t t' : SymbolTable} {s : Symbol} (ht : WellNamed t) (h : t.define s = .ok t') :
    WellNamed t' := by
  obtain ⟨hn, _, rfl⟩ := define_eq_ok_iff.mp h
  intro e he
  rcases List.mem_append.mp he with he | he
  · exact ht e he
  · rw [List.mem_singleton.mp he]; exact hn

theorem isLabelName_word {name : Text} (h : isLabelName name = true) :
    name ≠ [] ∧ ∀ b ∈ name, Text.isWordByte b = true := by
  unfold isLabelName at h
  split at h
  · cases h
  · simp only [Bool.and_eq_true, List.all_eq_true] at h
    exact ⟨List.cons_ne_nil _ _, h.2⟩

theorem isLabelName_plain {name : Text} (h : isLabelName name = true) : ∀ b ∈ name, Source.isPlain b = true :=
  fun b hb => Source.isPlain_of_isWordByte ((isLabelName_word h).2 b hb)

/-- A proper name is not a number. -/
theorem number?_of_isLabelName {name : Text} (h : isLabelName name = true) : Source.number? name = none := by
  cases hn : Source.number? name with
  | none => rfl
  | some v =>
    unfold isLabelName at h
    split at h
    · cases h
    · rename_i b r
      simp only [Bool.and_eq_true, Bool.not_eq_true', List.all_eq_true] at h
      have hword := h.2 b List.mem_cons_self
      rcases Source.number?_head hn with hd | rfl | rfl
      · rw [hd] at h
        exact absurd h.1 (by decide)
      · exact absurd hword (by decide)
      · exact absurd hword (by decide)

end Rv32Tools.Assembly.SymbolTable
