import Rv32Tools.Proofs.Assembly.Stages
import Rv32Tools.Proofs.Assembly.Layout

/-
  Rv32Tools.Proofs.Assembly.Data — what the lines of a data segment do to it.

  A line first defines its label (`labelled`) and then its directive runs (`line_eq`, `line_ok`, `line_directive`). A
  directive adds bytes at the end and moves labels, whether it fails or not (`Extends`, `directive_extends`). So the table
  that a data segment leaves behind holds data labels only, with proper names (`buildData_ofData`).
-/

namespace Rv32Tools.Assembly

open Source (Line)

namespace DataSegment

/-- The bytes go on where they were, and labels change nothing but their addresses. -/
structure Extends (d d' : DataSegment) : Prop where
  base : d'.base = d.base
  bytes : d.bytes <+: d'.bytes
  labels : d'.symbols.entries.map SymbolTable.shape = d.symbols.entries.map SymbolTable.shape

theorem Extends.refl (d : DataSegment) : Extends d d := ⟨rfl, List.prefix_refl _, rfl⟩

theorem Extends.trans {d d' d'' : DataSegment} (h : Extends d d') (h' : Extends d' d'') : Extends d d'' :=
  ⟨h'.base.trans h.base, h.bytes.trans h'.bytes, h'.labels.trans h.labels⟩

theorem append_extends (d : DataSegment) (bs : List UInt8) : Extends d (d.append bs) :=
  ⟨rfl, List.prefix_append _ _, rfl⟩

theorem relabel_extends (d : DataSegment) : Extends d d.relabel := by
  refine ⟨rfl, List.prefix_refl _, ?_⟩
  have key : ∀ (names : List Text) (t : SymbolTable) (a : Word),
      (names.foldl (fun t name => t.moveTo name a) t).entries.map SymbolTable.shape =
        t.entries.map SymbolTable.shape := by
    intro names
    induction names with
    | nil => intro t a; rfl
    | cons name names ih => intro t a; exact (ih _ a).trans (t.moveTo_shape name a)
  exact key d.pending d.symbols d.cursor

theorem p2align_extends (d : DataSegment) (argument : Text) : Extends d (d.p2align argument).1 := by
  unfold p2align
  split
  · exact .refl d
  · split
    · exact .refl d
    · split
      · exact (append_extends d _).trans (relabel_extends _)
      · exact .refl d

theorem zeros_extends (d : DataSegment) (argument : Text) : Extends d (d.zeros argument).1 := by
  unfold zeros
  split
  · exact .refl d
  · split
    · exact .refl d
    · split
      · exact append_extends d _
      · exact .refl d

theorem string_extends (d : DataSegment) (argument : Text) : Extends d (d.string argument).1 := by
  unfold string
  split
  · exact .refl d
  · split
    · exact .refl d
    · split
      · exact append_extends d _
      · exact .refl d

theorem character_extends (d : DataSegment) (argument : Text) : Extends d (d.character argument).1 := by
  unfold character
  split
  · exact .refl d
  · split
    · exact .refl d
    · exact append_extends d _

theorem values_extends (d : DataSegment) (size : Nat) (argument : Text) : Extends d (d.values size argument).1 := by
  unfold values
  split
  · exact .refl d
  · exact ((append_extends d _).trans (relabel_extends _)).trans (append_extends _ _)

theorem directive_extends (d : DataSegment) (name argument : Text) : Extends d (d.directive name argument).1 := by
  unfold directive
  repeat' split
  · exact d.p2align_extends argument
  · exact d.zeros_extends argument
  · exact d.string_extends argument
  · exact d.character_extends argument
  · exact d.values_extends 1 argument
  · exact d.values_extends 2 argument
  · exact d.values_extends 4 argument
  · exact .refl d

theorem body_extends (d : DataSegment) (code : Text) : Extends d (d.body code).1 := by
  unfold body
  split
  · exact .refl d
  · split
    · exact .refl d
    · rename_i name _
      split
      · exact .refl d
      · obtain ⟨hb, hs, hl⟩ := d.directive_extends name (Text.trim (code.drop name.length))
        exact ⟨hb, hs, hl⟩

/-! ## One line -/

/-- The segment when the label of a line, if it has one, is defined. -/
def labelled (d : DataSegment) (l : Line) : Except DefineError DataSegment :=
  if l.statement.label.isEmpty then .ok d
  else
    match d.symbols.define ⟨l.statement.label, d.cursor, .data, l.number⟩ with
    | .error e => .error e
    | .ok symbols => .ok { d with symbols, pending := d.pending ++ [l.statement.label] }

theorem line_eq (d : DataSegment) (l : Line) :
    d.line l =
      match d.labelled l with
      | .error e => (d, some (.error (.label e)))
      | .ok d₁ => d₁.body l.statement.body := by
  unfold line labelled
  by_cases hb : l.isBlank = true
  · rw [if_pos hb, Line.statement_of_isBlank hb]
    rfl
  · rw [if_neg hb]
    by_cases hl : l.statement.label.isEmpty = true
    · simp only [if_pos hl]
    · simp only [if_neg hl]
      cases d.symbols.define ⟨l.statement.label, d.cursor, .data, l.number⟩ with
      | error e => rfl
      | ok symbols => rfl

theorem labelled_ok {d d' : DataSegment} {l : Line} (h : d.labelled l = .ok d') :
    d'.base = d.base ∧ d'.bytes = d.bytes ∧
      ∀ s ∈ d'.symbols.entries, s ∈ d.symbols.entries ∨ (isLabelName s.name = true ∧ s.segment = .data) := by
  unfold labelled at h
  split at h
  · cases h
    exact ⟨rfl, rfl, fun s hs => Or.inl hs⟩
  · split at h
    · cases h
    · rename_i symbols hd
      cases h
      obtain ⟨hn, _, rfl⟩ := SymbolTable.define_eq_ok_iff.mp hd
      refine ⟨rfl, rfl, fun s hs => ?_⟩
      rcases List.mem_append.mp hs with hs | hs
      · exact Or.inl hs
      · rw [List.mem_singleton.mp hs]
        exact Or.inr ⟨hn, rfl⟩

/-- The argument of the directive on a line, given its name. -/
def argumentOf (l : Line) (name : Text) : Text := Text.trim (l.statement.body.drop name.length)

/-- A line that is taken defines its label; then its directive, if it has one, is taken, and no label waits any more. -/
theorem line_ok {d d' : DataSegment} {l : Line} (h : d.line l = (d', none)) :
    ∃ d₁, d.labelled l = .ok d₁ ∧
      (l.directive? = none ∧ d' = d₁ ∨
        ∃ name d₂, l.directive? = some name ∧ d₁.directive name (argumentOf l name) = (d₂, none) ∧
          d' = { d₂ with pending := [] }) := by
  rw [line_eq] at h
  split at h
  · cases h
  · rename_i d₁ h₁
    refine ⟨d₁, h₁, ?_⟩
    unfold body at h
    split at h
    · rename_i he
      cases h
      left
      rw [Line.directive?, List.isEmpty_iff.mp he]
      exact ⟨rfl, rfl⟩
    · split at h
      · cases h
      · rename_i name hname
        split at h
        · cases h
        · rw [Prod.mk.injEq, Option.map_eq_none_iff] at h
          obtain ⟨rfl, hnone⟩ := h
          exact Or.inr ⟨name, _, hname, Prod.ext rfl hnone, rfl⟩

/-- A line runs its directive when its label is defined. -/
theorem line_directive {d d₁ d₂ : DataSegment} {l : Line} {name : Text} {e : Option DataError}
    (h₁ : d.labelled l = .ok d₁) (hname : l.directive? = some name) (hlen : name.length ≤ l.statement.body.length)
    (h₂ : d₁.directive name (argumentOf l name) = (d₂, e)) : d.line l = ({ d₂ with pending := [] }, e.map .error) := by
  have hbody : l.statement.body.isEmpty = false := by
    cases hb : l.statement.body with
    | nil =>
      rw [Line.directive?, hb] at hname
      cases hname
    | cons b r => rfl
  rw [argumentOf] at h₂
  rw [Line.directive?] at hname
  rw [line_eq, h₁]
  simp only [body, hbody, hname, Nat.not_lt_of_le hlen, h₂]
  rfl

/-- A line that is taken adds its bytes at the end. -/
theorem line_bytes {d d' : DataSegment} {l : Line} (h : d.line l = (d', none)) :
    d'.base = d.base ∧ d.bytes <+: d'.bytes := by
  rw [line_eq] at h
  split at h
  · cases h
  · rename_i d₁ h₁
    obtain ⟨hbase, hbytes, _⟩ := labelled_ok h₁
    have he := d₁.body_extends l.statement.body
    rw [h] at he
    exact ⟨he.base.trans hbase, hbytes ▸ he.bytes⟩

end DataSegment

/-- Every label in the table is a data label with a proper name. -/
def SymbolTable.OfData (t : SymbolTable) : Prop := ∀ s ∈ t.entries, isLabelName s.name = true ∧ s.segment = .data

theorem DataSegment.Extends.ofData {d d' : DataSegment} (h : d.Extends d') (hd : d.symbols.OfData) :
    d'.symbols.OfData :=
  SymbolTable.forall_of_shape (P := fun x => isLabelName x.1 = true ∧ x.2.1 = .data) h.labels hd

theorem DataSegment.line_ofData {d d' : DataSegment} {l : Line} (h : d.line l = (d', none)) (hd : d.symbols.OfData) :
    d'.symbols.OfData := by
  rw [line_eq] at h
  split at h
  · cases h
  · rename_i d₁ h₁
    have hd₁ : d₁.symbols.OfData := fun s hs => ((labelled_ok h₁).2.2 s hs).elim (hd s) id
    have he := d₁.body_extends l.statement.body
    rw [h] at he
    exact he.ofData hd₁

theorem buildData_ofData {d d' : DataSegment} {ls : List Line} (h : buildData d ls = .ok d')
    (hd : d.symbols.OfData) : d'.symbols.OfData := by
  induction ls generalizing d with
  | nil => cases h; exact hd
  | cons l ls ih =>
    simp only [buildData] at h
    split at h
    · cases h
    · rename_i d₁ _ hl
      exact ih h (DataSegment.line_ofData hl hd)
    · cases h
    · cases h

/-- What the data stage hands on to the text segment. -/
theorem dataStage_ofData {ls : List Line} {sections : Sections} {data : Option DataSegment}
    (h : dataStage ls sections = .ok data) : (dataLabels data).OfData := by
  have start : SymbolTable.empty.OfData := fun s hs => absurd hs List.not_mem_nil
  unfold dataStage at h
  split at h
  · cases h; exact start
  · split at h
    · cases h
    · rename_i hb
      cases h
      exact buildData_ofData hb start

end Rv32Tools.Assembly
