import Mathlib.Algebra.GroupWithZero.Nat
import Rv32Tools.Proofs.Assembly.Symbols
import Rv32Tools.Assembly.Layout

/-
  Rv32Tools.Proofs.Assembly.Layout — what a text segment is laid out as.

  A line takes up `Line.extent` bytes: the width of its instruction, or nothing if it has none. `along` walks over
  lines with the address each of them gets, and a layout that comes to its end (`place_ok`) has put down
  - the instructions along the lines (`placedOn`),
  - the labels along the lines (`labelsOn`), behind the ones it started with,
  and ends at most at the top of the address space.
-/

namespace Rv32Tools

namespace Source.Line

/-- Whether there is an instruction on the line: something that is no label and no directive. -/
def isInstruction (l : Line) : Bool := !l.statement.body.isEmpty && (Source.directive? l.statement.body).isNone

/-- The name of the instruction on the line. -/
def mnemonic (l : Line) : Text := (Text.words l.statement.body).headD []

/-- The bytes that the line takes up in the text segment. -/
def extent (l : Line) : Nat := if l.isInstruction then Mnemonic.width l.mnemonic else 0

theorem directive?_of_isInstruction {l : Line} (h : l.isInstruction = true) : l.directive? = none := by
  simp only [isInstruction, Bool.and_eq_true, Option.isNone_iff_eq_none] at h
  exact h.2

theorem statement_of_isBlank {l : Line} (h : l.isBlank = true) : l.statement = ⟨[], []⟩ := by
  have : l.text = [] := by simpa [isBlank] using h
  rw [statement, this]
  decide

end Source.Line

namespace Assembly.Layout

open Source (Line)

/-- The bytes that lines take up together. -/
def extents (ls : List Line) : Nat := (ls.map Line.extent).sum

@[simp] theorem extents_nil : extents [] = 0 := rfl

@[simp] theorem extents_cons (l : Line) (ls : List Line) : extents (l :: ls) = l.extent + extents ls := rfl

theorem extents_eq (ls : List Line) :
    extents ls = ((ls.filter Line.isInstruction).map fun l => Mnemonic.width l.mnemonic).sum := by
  induction ls with
  | nil => rfl
  | cons l ls ih =>
    rw [extents_cons, ih, Line.extent, List.filter_cons]
    split
    · rw [List.map_cons, List.sum_cons]
    · rw [Nat.zero_add]

/-! ## Lines and their addresses -/

section Along

variable {α : Type} (f : Nat → Line → List α)

/-- What the lines give, each at its address, when the first of them stands at `pc`. -/
def along : (pc : Nat) → List Line → List α
  | _, [] => []
  | pc, l :: r => f pc l ++ along (pc + l.extent) r

theorem along_append (pc : Nat) (ls ls' : List Line) :
    along f pc (ls ++ ls') = along f pc ls ++ along f (pc + extents ls) ls' := by
  induction ls generalizing pc with
  | nil => rfl
  | cons l ls ih => simp only [List.cons_append, along, ih, extents_cons, List.append_assoc, Nat.add_assoc]

theorem mem_along {pc : Nat} {ls : List Line} {a : α} :
    a ∈ along f pc ls ↔ ∃ before l after, ls = before ++ l :: after ∧ a ∈ f (pc + extents before) l := by
  constructor
  · intro h
    induction ls generalizing pc with
    | nil => cases h
    | cons l ls ih =>
      rcases List.mem_append.mp h with h | h
      · exact ⟨[], l, ls, rfl, h⟩
      · obtain ⟨before, l', after, rfl, ha⟩ := ih h
        refine ⟨l :: before, l', after, rfl, ?_⟩
        rwa [extents_cons, ← Nat.add_assoc]
  · rintro ⟨before, l, after, rfl, ha⟩
    rw [along_append]
    exact List.mem_append_right _ (List.mem_append_left _ ha)

end Along

/-- The instruction of a line, at its address. -/
def placedOn (pc : Nat) (l : Line) : List Placement := if l.isInstruction then [⟨l, BitVec.ofNat 32 pc⟩] else []

/-- The label of a line, at its address. -/
def labelsOn (pc : Nat) (l : Line) : List Symbol :=
  if l.statement.label.isEmpty then [] else [⟨l.statement.label, BitVec.ofNat 32 pc, .text, l.number⟩]

theorem along_placedOn_lines (pc : Nat) (ls : List Line) :
    (along placedOn pc ls).map Placement.line = ls.filter Line.isInstruction := by
  induction ls generalizing pc with
  | nil => rfl
  | cons l ls ih =>
    rw [along, List.map_append, ih, List.filter_cons, placedOn]
    split <;> rfl

/-! ## One line -/

/-- What a line that is taken does to a layout. -/
structure Takes (y : Layout) (l : Line) (y' : Layout) : Prop where
  pc : y'.pc = y.pc + l.extent
  placements : y'.placements = y.placements ++ placedOn y.pc l
  labels : y'.symbols.entries = y.symbols.entries ++ labelsOn y.pc l
  fits : y'.pc ≤ addressSpace ∨ y'.pc = y.pc
  names : l.isInstruction = true → Text.words l.statement.body ≠ []
  wellNamed : y.symbols.WellNamed → y'.symbols.WellNamed

theorem body_ok {y y' : Layout} {l : Line} (h : y.body l l.statement.body = .ok y') :
    y'.pc = y.pc + l.extent ∧ y'.placements = y.placements ++ placedOn y.pc l ∧ y'.symbols = y.symbols ∧
      (y'.pc ≤ addressSpace ∨ y'.pc = y.pc) ∧ (l.isInstruction = true → Text.words l.statement.body ≠ []) := by
  unfold body at h
  split at h
  · rename_i he
    have hi : l.isInstruction = false := by simp [Line.isInstruction, he]
    cases h
    simp [Line.extent, placedOn, hi]
  · rename_i he
    split at h
    · rename_i name hd
      have hi : l.isInstruction = false := by simp [Line.isInstruction, hd]
      cases h
      simp [Line.extent, placedOn, hi]
    · rename_i hd
      have hi : l.isInstruction = true := by simp [Line.isInstruction, hd, he]
      split at h
      · cases h
      · rename_i name operands hw
        have hm : l.mnemonic = name := by rw [Line.mnemonic, hw]; rfl
        simp only at h
        split at h
        · rename_i hfit
          cases h
          simp [Line.extent, placedOn, hi, hm, hw, address, hfit]
        · cases h

/-- The labels after the label of a line, if it has one. -/
def labelled (y : Layout) (l : Line) : Except DefineError SymbolTable :=
  if l.statement.label.isEmpty then .ok y.symbols
  else y.symbols.define ⟨l.statement.label, y.address, .text, l.number⟩

theorem step_eq (y : Layout) (l : Line) :
    y.step l =
      match y.labelled l with
      | .error e => .error (.error (.label e))
      | .ok symbols => { y with symbols }.body l l.statement.body := by
  unfold step labelled
  by_cases hb : l.isBlank = true
  · simp [hb, Line.statement_of_isBlank hb, body]
  · by_cases hl : l.statement.label.isEmpty = true
    · simp [hb, hl]
    · cases hd : y.symbols.define ⟨l.statement.label, y.address, .text, l.number⟩ with
      | error e => simp [hb, hl, hd]
      | ok symbols => simp [hb, hl, hd]

theorem body_of_isInstruction (y : Layout) {l : Line} (hi : l.isInstruction = true)
    (hw : Text.words l.statement.body ≠ []) :
    y.body l l.statement.body =
      if y.pc + Mnemonic.width l.mnemonic ≤ addressSpace then
        .ok { y with pc := y.pc + Mnemonic.width l.mnemonic, placements := y.placements ++ [⟨l, y.address⟩] }
      else .error (.error .overflow) := by
  obtain ⟨name, operands, hn⟩ := List.exists_cons_of_ne_nil hw
  have hm : l.mnemonic = name := by rw [Line.mnemonic, hn]; rfl
  simp only [Line.isInstruction, Bool.and_eq_true, Bool.not_eq_true', Option.isNone_iff_eq_none] at hi
  simp only [body, hi.1, hi.2, hn, hm, Bool.false_eq_true, if_false]

theorem step_ok {y y' : Layout} {l : Line} (h : y.step l = .ok y') : Takes y l y' := by
  unfold step at h
  split at h
  · rename_i hb
    have hst := Line.statement_of_isBlank hb
    have hi : l.isInstruction = false := by simp [Line.isInstruction, hst]
    cases h
    exact ⟨by simp [Line.extent, hi], by simp [placedOn, hi], by simp [labelsOn, hst], Or.inr rfl,
      fun h => absurd (hi ▸ h) (by simp), id⟩
  · simp only at h
    split at h
    · rename_i hl
      obtain ⟨hpc, hp, hs, hfit, hn⟩ := body_ok h
      exact ⟨hpc, hp, by simp [labelsOn, hl, hs], hfit, hn, fun hw => hs ▸ hw⟩
    · rename_i hl
      split at h
      · cases h
      · rename_i symbols hd
        obtain ⟨hpc, hp, hs, hfit, hn⟩ := body_ok h
        obtain ⟨_, _, he⟩ := SymbolTable.define_eq_ok_iff.mp hd
        refine ⟨hpc, hp, ?_, hfit, hn, fun hw => by rw [hs]; exact hw.define hd⟩
        rw [hs, he, labelsOn, if_neg hl]
        rfl

/-! ## All lines -/

/-- What lines that are all taken do to a layout. -/
structure TakesAll (y : Layout) (ls : List Line) (y' : Layout) : Prop where
  pc : y'.pc = y.pc + extents ls
  placements : y'.placements = y.placements ++ along placedOn y.pc ls
  labels : y'.symbols.entries = y.symbols.entries ++ along labelsOn y.pc ls
  fits : y.pc ≤ addressSpace → y'.pc ≤ addressSpace
  names : ∀ l ∈ ls, l.isInstruction = true → Text.words l.statement.body ≠ []
  wellNamed : y.symbols.WellNamed → y'.symbols.WellNamed

theorem place_ok {y y' : Layout} {ls : List Line} (h : y.place ls = (y', none)) : TakesAll y ls y' := by
  induction ls generalizing y with
  | nil =>
    simp only [place, Prod.mk.injEq, and_true] at h
    subst h
    exact ⟨rfl, by simp [along], by simp [along], id, by simp, id⟩
  | cons l ls ih =>
    simp only [place] at h
    split at h
    · rename_i y₁ h₁
      have t := step_ok h₁
      have ts := ih h
      refine ⟨?_, ?_, ?_, fun hy => ts.fits ?_, ?_, fun hw => ts.wellNamed (t.wellNamed hw)⟩
      · rw [ts.pc, t.pc, extents_cons, Nat.add_assoc]
      · rw [ts.placements, t.placements, t.pc, along, List.append_assoc]
      · rw [ts.labels, t.labels, t.pc, along, List.append_assoc]
      · rcases t.fits with hf | hf
        · exact hf
        · rw [hf]; exact hy
      · intro l' hl'
        rcases List.mem_cons.mp hl' with rfl | hl'
        · exact t.names
        · exact ts.names l' hl'
    · cases h

theorem place_append (y : Layout) (ls ls' : List Line) :
    y.place (ls ++ ls') =
      match y.place ls with
      | (y', none) => y'.place ls'
      | (y', some fault) => (y', some fault) := by
  induction ls generalizing y with
  | nil => rfl
  | cons l ls ih =>
    simp only [List.cons_append, place]
    cases y.step l with
    | ok y₁ => exact ih y₁
    | error halt => rfl

theorem ofLines_ok {base : Word} {symbols : SymbolTable} {ls : List Line} {y : Layout}
    (h : ofLines base symbols ls = (y, none)) : TakesAll { pc := base.toNat, symbols } ls y := place_ok h

end Assembly.Layout

end Rv32Tools
