import Rv32Tools.Proofs.Assembly.Data
import Rv32Tools.Proofs.Assembly.Renumbering

/-
  Rv32Tools.Proofs.Assembly.LineNumbers — what a run does with the numbers of its lines.

  A run carries the number of a line to the labels, the warnings and the errors that come from it, and does nothing
  else with it. So if every line gets another number by some `f`, each stage gives what it gave, with `f` of every
  number it had recorded:
  - tables of labels (`SymbolTable.define_renumber`, `moveTo_renumber`);
  - the data segment (`DataSegment.line_renumber`, `buildData_renumber`);
  - the layout (`Layout.step_renumber`, `place_renumber`);
  - relocation calls (`Relocation.expandAll_renumber`) and instructions (`attempt_renumber`).

  The one text with a number in it is that of a label defined twice, which ends the run.
-/

namespace Rv32Tools

/-- The line with `f` of its number. -/
def Source.Line.renumber (f : Nat → Nat) (l : Line) : Line := { l with number := f l.number }

namespace Source.Line

variable (f : Nat → Nat)

@[simp] theorem isBlank_renumber (l : Line) : (l.renumber f).isBlank = l.isBlank := rfl

theorem renumber_alike (l : Line) : (l.renumber f).Alike l := ⟨rfl, rfl⟩

theorem ofRaw_renumber (number : Nat) (raw : Text) : (ofRaw number raw).renumber f = ofRaw (f number) raw := by
  unfold ofRaw
  simp only
  repeat' split
  all_goals rfl

end Source.Line

namespace Assembly

open Source (Line)

variable (f : Nat → Nat)

/-! ## Labels -/

def Symbol.renumber (s : Symbol) : Symbol := { s with line := f s.line }

def SymbolTable.renumber (t : SymbolTable) : SymbolTable := ⟨t.entries.map (Symbol.renumber f)⟩

def DefineError.renumber : DefineError → DefineError
  | .invalidName name => .invalidName name
  | .duplicate earlier => .duplicate (earlier.renumber f)

namespace SymbolTable

theorem renumber_alike (t : SymbolTable) : (t.renumber f).Alike t := by
  show (t.entries.map (Symbol.renumber f)).map Symbol.spot = t.entries.map Symbol.spot
  rw [List.map_map]
  rfl

theorem find?_renumber (t : SymbolTable) (name : Text) : (t.renumber f).find? name = (t.find? name).map (Symbol.renumber f) := by
  show (t.entries.map (Symbol.renumber f)).find? _ = _
  rw [List.find?_map]
  rfl

theorem define_renumber (t : SymbolTable) (s : Symbol) :
    (t.renumber f).define (s.renumber f) = ((t.define s).map (renumber f)).mapError (DefineError.renumber f) := by
  have hname : (s.renumber f).name = s.name := rfl
  unfold define
  rw [hname, find?_renumber]
  by_cases hn : (!isLabelName s.name) = true
  · rw [if_pos hn, if_pos hn]
    rfl
  · rw [if_neg hn, if_neg hn]
    cases t.find? s.name with
    | some earlier => rfl
    | none =>
      show Except.ok _ = Except.ok (renumber f ⟨t.entries ++ [s]⟩)
      simp only [renumber, List.map_append, List.map_cons, List.map_nil]

theorem moveTo_renumber (t : SymbolTable) (name : Text) (address : Word) :
    (t.renumber f).moveTo name address = (t.moveTo name address).renumber f := by
  simp only [moveTo, renumber, List.map_map]
  congr 1
  refine List.map_congr_left fun s _ => ?_
  have hname : (s.renumber f).name = s.name := rfl
  simp only [Function.comp_apply, hname]
  by_cases hs : (s.name == name) = true
  · rw [if_pos hs, if_pos hs]
    rfl
  · rw [if_neg hs, if_neg hs]

theorem foldl_moveTo_renumber (t : SymbolTable) (names : List Text) (address : Word) :
    names.foldl (fun t name => t.moveTo name address) (t.renumber f) =
      (names.foldl (fun t name => t.moveTo name address) t).renumber f := by
  induction names generalizing t with
  | nil => rfl
  | cons name names ih =>
    simp only [List.foldl_cons, moveTo_renumber]
    exact ih _

end SymbolTable

/-! ## Two runs side by side -/

/-- Two runs that give results in the relation `P`, or end with a fatal diagnostic at `n` and at `f n`, or both end
without one, for the same cause. -/
inductive SideBySide {α β : Type} (P : α → β → Prop) : Except (Halt Diagnostic) α → Except (Halt Diagnostic) β → Prop
  | ok {a : α} {b : β} (h : P a b) : SideBySide P (.ok a) (.ok b)
  | fatal (n : Nat) (message message' : Text) :
      SideBySide P (.error (.error ⟨.fatal, n, message⟩)) (.error (.error ⟨.fatal, f n, message'⟩))
  | abort (cause : Abort) : SideBySide P (.error (.abort cause)) (.error (.abort cause))

variable {f} in
/-- Runs side by side that go on side by side. -/
theorem SideBySide.bind {α β γ δ : Type} {P : α → β → Prop} {Q : γ → δ → Prop} {x : Except (Halt Diagnostic) α}
    {y : Except (Halt Diagnostic) β} {u : α → Except (Halt Diagnostic) γ} {v : β → Except (Halt Diagnostic) δ}
    (h : SideBySide f P x y) (huv : ∀ a b, P a b → SideBySide f Q (u a) (v b)) :
    SideBySide f Q (x.bind u) (y.bind v) := by
  cases h with
  | ok h => exact huv _ _ h
  | fatal n message message' => exact .fatal n message message'
  | abort cause => exact .abort cause

/-! ## The data segment -/

def DataSegment.renumber (d : DataSegment) : DataSegment := { d with symbols := d.symbols.renumber f }

namespace DataSegment

variable (d : DataSegment)

@[simp] theorem renumber_cursor : (d.renumber f).cursor = d.cursor := rfl

@[simp] theorem renumber_pending : (d.renumber f).pending = d.pending := rfl

@[simp] theorem fits_renumber (n : Nat) : (d.renumber f).fits n = d.fits n := rfl

@[simp] theorem append_renumber (bs : List UInt8) : (d.renumber f).append bs = (d.append bs).renumber f := rfl

@[simp] theorem align_renumber (n : Nat) : (d.renumber f).align n = (d.align n).renumber f := rfl

@[simp] theorem relabel_renumber : (d.renumber f).relabel = d.relabel.renumber f := by
  have h := SymbolTable.foldl_moveTo_renumber f d.symbols d.pending d.cursor
  unfold relabel
  simp only [renumber_pending, renumber_cursor]
  unfold renumber
  simp only [h]

theorem p2align_renumber (argument : Text) :
    (d.renumber f).p2align argument = (d.p2align argument).map (renumber f) id := by
  unfold p2align
  simp only [renumber_pending, align_renumber, relabel_renumber]
  repeat' split
  all_goals rfl

theorem zeros_renumber (argument : Text) : (d.renumber f).zeros argument = (d.zeros argument).map (renumber f) id := by
  unfold zeros
  cases Text.prefixed 0xFFFFFFFF argument with
  | error _ => rfl
  | ok n =>
    simp only [fits_renumber, append_renumber, apply_ite (Prod.map (renumber f) id)]
    rfl

theorem string_renumber (argument : Text) : (d.renumber f).string argument = (d.string argument).map (renumber f) id := by
  unfold string
  rw [apply_ite (Prod.map (renumber f) id)]
  cases Source.unquote (Text.inner argument) with
  | error _ => rfl
  | ok s =>
    simp only [fits_renumber, append_renumber, apply_ite (Prod.map (renumber f) id)]
    rfl

theorem character_renumber (argument : Text) :
    (d.renumber f).character argument = (d.character argument).map (renumber f) id := by
  unfold character
  simp only [append_renumber]
  repeat' split
  all_goals rfl

theorem values_renumber (size : Nat) (argument : Text) :
    (d.renumber f).values size argument = (d.values size argument).map (renumber f) id := by
  unfold values
  simp only [align_renumber, relabel_renumber, append_renumber]
  split
  all_goals rfl

/-- A directive defines no label, so its errors hold no number. -/
theorem directive_renumber (name argument : Text) :
    (d.renumber f).directive name argument = (d.directive name argument).map (renumber f) id := by
  unfold directive
  simp only [p2align_renumber, zeros_renumber, string_renumber, character_renumber, values_renumber]
  repeat' split
  all_goals rfl

theorem body_renumber (code : Text) : (d.renumber f).body code = (d.body code).map (renumber f) id := by
  unfold body
  simp only [directive_renumber]
  repeat' split
  all_goals rfl

theorem labelled_renumber (l : Line) :
    (d.renumber f).labelled (l.renumber f) = ((d.labelled l).map (renumber f)).mapError (DefineError.renumber f) := by
  have hdefine := d.symbols.define_renumber f ⟨l.statement.label, d.cursor, .data, l.number⟩
  have hdefine' : (d.renumber f).symbols.define
      ⟨(l.renumber f).statement.label, (d.renumber f).cursor, .data, (l.renumber f).number⟩ = _ := hdefine
  have hlabel : (l.renumber f).statement.label = l.statement.label := rfl
  unfold labelled
  rw [hdefine']
  by_cases hl : l.statement.label.isEmpty = true
  · rw [if_pos (hlabel ▸ hl), if_pos hl]
    rfl
  · rw [if_neg (hlabel ▸ hl), if_neg hl]
    cases d.symbols.define ⟨l.statement.label, d.cursor, .data, l.number⟩ with
    | error e => rfl
    | ok symbols => rfl

end DataSegment

theorem buildData_renumber (d : DataSegment) (ls : List Line) :
    SideBySide f (fun d d' => d' = d.renumber f) (buildData d ls)
      (buildData (d.renumber f) (ls.map (Line.renumber f))) := by
  induction ls generalizing d with
  | nil => exact .ok rfl
  | cons l ls ih =>
    have hfault : (l.renumber f).fault = l.fault := rfl
    have hbody : (l.renumber f).statement = l.statement := rfl
    simp only [List.map_cons, buildData, hfault, DataSegment.line_eq, DataSegment.labelled_renumber, hbody]
    cases l.fault with
    | some message => exact .fatal _ _ _
    | none =>
      cases d.labelled l with
      | error e => exact .fatal _ _ _
      | ok d₁ =>
        simp only [Except.map, Except.mapError, DataSegment.body_renumber]
        rcases d₁.body l.statement.body with ⟨d', _ | e | a⟩
        · exact ih d'
        · exact .fatal _ _ _
        · exact .abort a

/-! ## The layout -/

def Placement.renumber (p : Placement) : Placement := { p with line := p.line.renumber f }

def IgnoredDirective.renumber (i : IgnoredDirective) : IgnoredDirective := { i with line := f i.line }

def LayoutError.renumber : LayoutError → LayoutError
  | .label e => .label (e.renumber f)
  | .overflow => .overflow

def LayoutFault.renumber : LayoutFault → LayoutFault
  | ⟨line, .error e⟩ => ⟨f line, .error (e.renumber f)⟩
  | ⟨line, .abort a⟩ => ⟨f line, .abort a⟩

theorem LayoutFault.ending_renumber {α β : Type} (P : α → β → Prop) (fault : LayoutFault) :
    SideBySide f P (.error fault.ending) (.error (fault.renumber f).ending) := by
  rcases fault with ⟨line, e | a⟩
  · exact .fatal _ _ _
  · exact .abort a

def Layout.renumber (y : Layout) : Layout where
  pc := y.pc
  symbols := y.symbols.renumber f
  placements := y.placements.map (Placement.renumber f)
  ignored := y.ignored.map (IgnoredDirective.renumber f)

namespace Layout

variable (y : Layout)

/-- What becomes of a line whose layout stops or goes on, under other numbers. -/
def stepRenumbered : Except (Halt LayoutError) Layout → Except (Halt LayoutError) Layout
  | .ok z => .ok (z.renumber f)
  | .error (.error e) => .error (.error (e.renumber f))
  | .error (.abort a) => .error (.abort a)

theorem labelled_renumber (l : Line) :
    (y.renumber f).labelled (l.renumber f) =
      ((y.labelled l).map (SymbolTable.renumber f)).mapError (DefineError.renumber f) := by
  have hdefine := y.symbols.define_renumber f ⟨l.statement.label, y.address, .text, l.number⟩
  unfold labelled
  by_cases hl : l.statement.label.isEmpty = true
  · rw [if_pos hl]
    exact if_pos hl
  · rw [if_neg hl]
    exact (if_neg hl).trans hdefine

theorem body_renumber (l : Line) (code : Text) :
    (y.renumber f).body (l.renumber f) code = stepRenumbered f (y.body l code) := by
  have haddress : (y.renumber f).address = y.address := rfl
  unfold body
  by_cases he : code.isEmpty = true
  · rw [if_pos he, if_pos he]
    rfl
  · rw [if_neg he, if_neg he]
    cases Source.directive? code with
    | some name =>
      simp only [renumber, stepRenumbered, List.map_append, List.map_cons, List.map_nil]
      rfl
    | none =>
      cases Text.words code with
      | nil => rfl
      | cons name operands =>
        simp only [haddress]
        by_cases hfit : y.pc + Mnemonic.width name ≤ addressSpace
        · rw [if_pos hfit]
          refine (if_pos hfit).trans ?_
          simp only [renumber, stepRenumbered, List.map_append, List.map_cons, List.map_nil]
          rfl
        · rw [if_neg hfit]
          exact if_neg hfit

theorem step_renumber (l : Line) : (y.renumber f).step (l.renumber f) = stepRenumbered f (y.step l) := by
  rw [step_eq, step_eq, labelled_renumber]
  cases y.labelled l with
  | error e => rfl
  | ok t => exact body_renumber f { y with symbols := t } l l.statement.body

theorem place_renumber (ls : List Line) :
    (y.renumber f).place (ls.map (Line.renumber f)) =
      ((y.place ls).1.renumber f, (y.place ls).2.map (LayoutFault.renumber f)) := by
  induction ls generalizing y with
  | nil => rfl
  | cons l ls ih =>
    simp only [List.map_cons, place, step_renumber]
    rcases y.step l with (e | a) | z
    · rfl
    · rfl
    · exact ih z

end Layout

/-! ## Relocation calls -/

namespace Relocation

def Memory.renumber (memory : Memory) : Memory := { memory with unanchored := memory.unanchored.map (Prod.map f id) }

theorem value_renumber (memory : Memory) (number : Nat) (pc : Word) (m : Relocation) (argument : Text) (target : Word) :
    value (memory.renumber f) (f number) pc m argument target =
      (value memory number pc m argument target).map id (Memory.renumber f) := by
  cases m with
  | hi => rfl
  | lo => rfl
  | pcrelHi => rfl
  | pcrelLo =>
    simp only [value, Memory.renumber]
    cases memory.anchors.lookup argument with
    | some anchor => rfl
    | none => simp only [Prod.map, Memory.renumber, List.map_append, List.map_cons, List.map_nil, id_eq]

variable (symbols : SymbolTable)

theorem expandFrom_renumber (number : Nat) (pc : Word) (s : Text) : ∀ skip (memory : Memory),
    expandFrom (symbols.renumber f) (f number) pc skip (memory.renumber f) s =
      (expandFrom symbols number pc skip memory s).map id (Memory.renumber f) := by
  induction s with
  | nil =>
    intro skip memory
    unfold expandFrom
    rfl
  | cons b r ih =>
    intro skip memory
    cases skip with
    | succ skip => exact ih skip memory
    | zero =>
      simp only [expandFrom, ih, SymbolTable.word?_alike (symbols.renumber_alike f)]
      by_cases hb : (b == 0x25) = true
      · simp only [hb, if_true]
        rcases call? r with _ | ⟨m, argument, rest⟩
        · rfl
        · simp only
          cases (Operand.resolve symbols argument).word? with
          | none => rfl
          | some target =>
            simp only [value_renumber, Prod.map_fst, Prod.map_snd, ih]
            rfl
      · simp only [hb, Bool.false_eq_true, if_false]
        rfl

theorem expandOne_renumber (memory : Memory) (p : Placement) :
    expandOne (symbols.renumber f) (memory.renumber f) (p.renumber f) =
      (expandOne symbols memory p).map (Placement.renumber f) (Memory.renumber f) := by
  have hexpand := expandFrom_renumber f symbols p.line.number p.pc p.line.text 0 memory
  simp only [expandOne, Placement.renumber, Line.renumber, hexpand]
  by_cases hf : p.line.fault.isSome = true
  · rw [if_pos hf, if_pos hf]
    rfl
  · rw [if_neg hf, if_neg hf]
    rfl

theorem expandAll_renumber (memory : Memory) (ps : List Placement) :
    expandAll (symbols.renumber f) (memory.renumber f) (ps.map (Placement.renumber f)) =
      (expandAll symbols memory ps).map (List.map (Placement.renumber f)) (Memory.renumber f) := by
  induction ps generalizing memory with
  | nil => rfl
  | cons p ps ih =>
    simp only [List.map_cons, expandAll, expandOne_renumber, Prod.map_fst, Prod.map_snd, ih]
    rfl

end Relocation

/-! ## Instructions -/

def Diagnostic.renumber (d : Diagnostic) : Diagnostic := { d with line := f d.line }

def Attempt.renumber (a : Attempt) : Attempt := { a with placement := a.placement.renumber f }

theorem attempt_renumber (o : Options) (symbols : SymbolTable) (p : Placement) :
    attempt o (symbols.renumber f) (p.renumber f) = (attempt o symbols p).renumber f := by
  have hline : Context.line ⟨symbols.renumber f, o.positionIndependent, p.pc⟩ (p.line.renumber f) =
      Context.line ⟨symbols, o.positionIndependent, p.pc⟩ p.line :=
    Context.line_alike (symbols.renumber_alike f) _ _ (p.line.renumber_alike f)
  exact congrArg (Attempt.mk (p.renumber f)) hline

theorem Attempt.error?_renumber (a : Attempt) : (a.renumber f).error? = a.error?.map (Diagnostic.renumber f) := by
  rcases a with ⟨p, (e | cause) | is⟩
  · rfl
  · rfl
  · rfl

end Assembly

end Rv32Tools
