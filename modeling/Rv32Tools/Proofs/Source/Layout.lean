import Rv32Tools.Proofs.Source.Columns

/-
  Rv32Tools.Proofs.Source.Layout — the parts of a line, however they are laid out.

  A line of code is a list of parts, with blanks between them (`Laid`). Some parts have to be parted from the next one,
  and between others there may be nothing. When the comment is taken off (`splitComment_append`) and the blanks are made
  single, what is left has the same parts in the same order, with at most one space between any two (`Laid.collapse`).
-/

namespace Rv32Tools.Source

/-- A part of a line, and whether blanks have to stand behind it. -/
structure Part where
  text : Text
  parted : Bool

/-- A part that may stand right before the next one. -/
def Part.free (text : Text) : Part := ⟨text, false⟩

/-- Parts one after the other, with a text that satisfies `G` between each two. -/
inductive Laid (G : Text → Prop) : (parts : List Part) → (s : Text) → Prop
  | last {part : Part} : Laid G [part] part.text
  | cons {part : Part} {gap s : Text} {parts : List Part} (hgap : G gap) (hparted : part.parted = true → gap ≠ [])
    (h : Laid G parts s) : Laid G (part :: parts) (part.text ++ (gap ++ s))

/-- At most one space. -/
def Narrow (gap : Text) : Prop := gap = [] ∨ gap = [0x20]

theorem Gap.nil : Gap [] := fun _ h => absurd h List.not_mem_nil

theorem Narrow.gap {gap : Text} (h : Narrow gap) : Gap gap := by
  rcases h with rfl | rfl
  · exact Gap.nil
  · exact List.all_eq_true.mp rfl

/-! ## Blanks -/

namespace Gap

variable {gap : Text} (h : Gap gap)

include h

theorem closed (r : Text) : marked (gap ++ r) = marked gap ++ marked r := by
  rw [marked_append_of_noQuote h.noQuote, marked_of_noQuote h.noQuote]

theorem blank : ∀ m ∈ marked gap, m.isBlank = true ∧ m.isHash = false := by
  obtain ⟨ms, hms, -, hblank⟩ := h.marks []
  have hmarks : marked gap = ms := by simpa [marked, markFrom] using hms
  rwa [hmarks]

end Gap

/-! ## Comments -/

/-- A comment with its mark; a line may have none. -/
def commentText : Option Text → Text
  | none => []
  | some remark => 0x23 :: remark

/-- A comment is taken off code that closes its quotes and has no mark of a comment outside of them. -/
theorem splitComment_append {code : Text} (hclosed : ∀ r, marked (code ++ r) = marked code ++ marked r)
    (hhash : ∀ m ∈ marked code, m.isHash = false) (remark : Option Text) :
    splitComment (code ++ commentText remark) = (code, (remark.map Text.trim).getD []) := by
  have hfront : bytesOf ((marked (code ++ commentText remark)).takeWhile (!·.isHash)) = code := by
    have hstop : (marked (commentText remark)).takeWhile (!·.isHash) = [] := by
      cases remark with
      | none => rfl
      | some r => rfl
    rw [hclosed, takeWhile_noHash hhash, hstop, List.append_nil, bytesOf_marked]
  have hback : Text.trim (bytesOf ((marked (code ++ commentText remark)).dropWhile (!·.isHash)).tail) =
      (remark.map Text.trim).getD [] := by
    rw [hclosed, List.dropWhile_append_of_pos fun m hm => by simp [hhash m hm]]
    cases remark with
    | none => rfl
    | some r =>
      show Text.trim (bytesOf (marked r)) = Text.trim r
      rw [bytesOf_marked]
  rw [splitComment, hfront, hback]

/-! ## Single blanks -/

theorem collapse_eq (s : Text) : collapse s = Text.join " " (markedColumns (marked s)) := rfl

theorem markedColumns_append_blanks (ms : List Marked) {gap : List Marked} (h : ∀ m ∈ gap, m.isBlank = true) :
    markedColumns (ms ++ gap) = markedColumns ms := by
  cases gap with
  | nil => rw [List.append_nil]
  | cons m gap =>
    have hgap : markedColumns (gap ++ []) = [] := by
      rw [markedColumns_blanks fun m' hm' => h m' (List.mem_cons_of_mem m hm')]
      rfl
    rw [List.append_nil] at hgap
    have happend : markedColumns (ms ++ m :: gap) = markedColumns ms ++ markedColumns gap := by
      simp only [markedColumns, Text.pieces_append_sep ms (h m List.mem_cons_self), List.filter_append, List.map_append]
    rw [happend, hgap, List.append_nil]

/-- A line that starts with something other than a blank has a first column, and what stands right before it without
a blank belongs to that column. -/
theorem markedColumns_cons {m : Marked} (hm : m.isBlank = false) (ms : List Marked) :
    ∃ x xs, markedColumns (m :: ms) = x :: xs ∧
      ∀ c : List Marked, (∀ m ∈ c, m.isBlank = false) → markedColumns (c ++ m :: ms) = (bytesOf c ++ x) :: xs := by
  obtain ⟨y, ys, hy, hpieces⟩ := Text.pieces_cons_of_neg hm ms
  refine ⟨bytesOf (m :: y), (ys.filter (!·.isEmpty)).map bytesOf, by simp [markedColumns, hpieces], fun c hc => ?_⟩
  obtain ⟨z, zs, hz, hfront⟩ := Text.pieces_append_of_neg hc (m :: ms)
  rw [hpieces] at hz
  cases hz
  simp [markedColumns, hfront, bytesOf]

/-- The code starts with something other than a blank. -/
def Starts (s : Text) : Prop := ∃ m ms, marked s = m :: ms ∧ m.isBlank = false

theorem Column.starts {c : Text} (hc : Column c) (r : Text) : Starts (c ++ r) := by
  obtain ⟨m, ms, hm⟩ := List.exists_cons_of_ne_nil (marked_ne_nil hc.ne_nil)
  refine ⟨m, ms ++ marked r, by rw [hc.closed, hm, List.cons_append], ?_⟩
  exact (hc.solid m (by rw [hm]; exact List.mem_cons_self)).1

section Collapse

variable {c gap s : Text} (hc : Column c)

include hc

theorem collapse_column : collapse c = c := by
  have hcolumn : markedColumns (marked c ++ []) = [bytesOf (marked c)] :=
    markedColumns_last (marked_ne_nil hc.ne_nil) (fun m hm => (hc.solid m hm).1) (by simp)
  rw [List.append_nil, bytesOf_marked] at hcolumn
  rw [collapse_eq, hcolumn, Text.join, List.intercalate_singleton]

/-- A column grows by what stands right before it. -/
theorem collapse_joined (hs : Starts s) : collapse (c ++ s) = c ++ collapse s := by
  obtain ⟨m, ms, hms, hm⟩ := hs
  obtain ⟨x, xs, hx, hfront⟩ := markedColumns_cons hm ms
  rw [collapse_eq, collapse_eq, hc.closed, hms, hx, hfront _ fun m hm => (hc.solid m hm).1, bytesOf_marked,
    Text.join_append_cons]

/-- Blanks between columns are one space. -/
theorem collapse_parted (hgap : Gap gap) (hne : gap ≠ []) (hs : Starts s) :
    collapse (c ++ (gap ++ s)) = c ++ 0x20 :: collapse s := by
  obtain ⟨m, ms, hms, hm⟩ := hs
  obtain ⟨x, xs, hx, -⟩ := markedColumns_cons hm ms
  have hcolumns := markedColumns_column (marked_ne_nil hc.ne_nil) (fun m hm => (hc.solid m hm).1) (marked_ne_nil hne)
    (fun m hm => (hgap.blank m hm).1) (marked s)
  rw [collapse_eq, collapse_eq, hc.closed, hgap.closed, hcolumns, bytesOf_marked, hms, hx, Text.join_space_cons]

end Collapse

/-! ## Parts that are laid out -/

namespace Laid

variable {G : Text → Prop} {parts : List Part} {s : Text}

theorem mono {H : Text → Prop} (hsub : ∀ gap, G gap → H gap) (h : Laid G parts s) : Laid H parts s := by
  induction h with
  | last => exact .last
  | cons hgap hparted _ ih => exact .cons (hsub _ hgap) hparted ih

/-- Behind a part that is not the last one come blanks and then the other parts. -/
theorem tail {part : Part} (hne : parts ≠ []) (h : Laid G (part :: parts) s) :
    ∃ gap t, s = part.text ++ (gap ++ t) ∧ G gap ∧ (part.parted = true → gap ≠ []) ∧ Laid G parts t := by
  cases h with
  | last => exact absurd rfl hne
  | cons hgap hparted h => exact ⟨_, _, rfl, hgap, hparted, h⟩

/-- Two lists of parts are laid out one after the other. -/
theorem append {front back : List Part} (hfront : front ≠ []) (hback : back ≠ []) (h : Laid G (front ++ back) s) :
    ∃ u gap v, s = u ++ (gap ++ v) ∧ Laid G front u ∧ G gap ∧ Laid G back v := by
  induction front generalizing s with
  | nil => exact absurd rfl hfront
  | cons part front ih =>
    obtain ⟨gap, t, rfl, hgap, hparted, ht⟩ := h.tail (List.append_ne_nil_of_right_ne_nil front hback)
    cases front with
    | nil => exact ⟨part.text, gap, t, rfl, .last, hgap, ht⟩
    | cons part' front =>
      obtain ⟨u, gap', v, rfl, hu, hgap', hv⟩ := ih (List.cons_ne_nil _ _) ht
      exact ⟨_, gap', v, by simp only [List.append_assoc], .cons hgap hparted hu, hgap', hv⟩

theorem starts (h : Laid G parts s) (hparts : ∀ part ∈ parts, Column part.text) : Starts s := by
  cases h with
  | @last part =>
    have := (hparts part List.mem_cons_self).starts []
    rwa [List.append_nil] at this
  | cons _ _ _ => exact (hparts _ List.mem_cons_self).starts _

theorem closed (h : Laid Gap parts s) (hparts : ∀ part ∈ parts, Column part.text) (r : Text) :
    marked (s ++ r) = marked s ++ marked r := by
  induction h with
  | last => exact (hparts _ List.mem_cons_self).closed r
  | cons hgap _ _ ih =>
    have hc := hparts _ List.mem_cons_self
    have hrest := ih fun part hpart => hparts part (List.mem_cons_of_mem _ hpart)
    simp only [List.append_assoc, hc.closed, hgap.closed, hrest]

theorem noHash (h : Laid Gap parts s) (hparts : ∀ part ∈ parts, Column part.text) : ∀ m ∈ marked s, m.isHash = false := by
  induction h with
  | last => exact fun m hm => ((hparts _ List.mem_cons_self).solid m hm).2
  | cons hgap _ _ ih =>
    intro m hm
    have hc := hparts _ List.mem_cons_self
    rw [hc.closed, hgap.closed, List.mem_append, List.mem_append] at hm
    rcases hm with hm | hm | hm
    · exact (hc.solid m hm).2
    · exact (hgap.blank m hm).2
    · exact ih (fun part hpart => hparts part (List.mem_cons_of_mem _ hpart)) m hm

/-- With single blanks the parts are laid out with at most one space between any two. -/
theorem collapse (h : Laid Gap parts s) (hparts : ∀ part ∈ parts, Column part.text) :
    Laid Narrow parts (Source.collapse s) := by
  induction h with
  | last =>
    rw [collapse_column (hparts _ List.mem_cons_self)]
    exact .last
  | @cons part gap s parts hgap hparted h ih =>
    have hc := hparts part List.mem_cons_self
    have hrest : ∀ part ∈ parts, Column part.text := fun part hpart => hparts part (List.mem_cons_of_mem _ hpart)
    by_cases hne : gap = []
    · rw [hne, List.nil_append, collapse_joined hc (h.starts hrest)]
      show Laid Narrow (part :: parts) (part.text ++ ([] ++ Source.collapse s))
      exact .cons (Or.inl rfl) (fun hp => absurd hne (hparted hp)) (ih hrest)
    · rw [collapse_parted hc hgap hne (h.starts hrest)]
      show Laid Narrow (part :: parts) (part.text ++ ([0x20] ++ Source.collapse s))
      exact .cons (Or.inr rfl) (fun _ => List.cons_ne_nil _ _) (ih hrest)

/-- The code of a line has its parts with at most one space between any two, and its comment is without its mark. -/
theorem splitComment_collapse (h : Laid Gap parts s) (hparts : ∀ part ∈ parts, Column part.text) {indent tail : Text}
    (hindent : Gap indent) (htail : Gap tail) (remark : Option Text) :
    ∃ code, splitComment (indent ++ (s ++ (tail ++ commentText remark))) = (code, (remark.map Text.trim).getD []) ∧
      Laid Narrow parts (Source.collapse code) := by
  have hmarks : ∀ r, marked (indent ++ (s ++ tail) ++ r) = marked indent ++ (marked s ++ (marked tail ++ marked r)) := by
    intro r
    simp only [List.append_assoc, hindent.closed, h.closed hparts, htail.closed]
  have hcode : marked (indent ++ (s ++ tail)) = marked indent ++ (marked s ++ marked tail) := by
    rw [hindent.closed, h.closed hparts]
  refine ⟨indent ++ (s ++ tail), ?_, ?_⟩
  · have hhash : ∀ m ∈ marked (indent ++ (s ++ tail)), m.isHash = false := by
      intro m hm
      rw [hcode, List.mem_append, List.mem_append] at hm
      rcases hm with hm | hm | hm
      · exact (hindent.blank m hm).2
      · exact h.noHash hparts m hm
      · exact (htail.blank m hm).2
    have hsplit := splitComment_append (fun r => by rw [hmarks, hcode, List.append_assoc, List.append_assoc]) hhash remark
    simpa only [List.append_assoc] using hsplit
  · have hcollapse : Source.collapse (indent ++ (s ++ tail)) = Source.collapse s := by
      rw [collapse_eq, hcode, markedColumns_blanks fun m hm => (hindent.blank m hm).1,
        markedColumns_append_blanks _ fun m hm => (htail.blank m hm).1]
      rfl
    rw [hcollapse]
    exact h.collapse hparts

end Laid

end Rv32Tools.Source
