import Rv32Tools.Proofs.Source.Operands

/-
  Rv32Tools.Proofs.Source.Cuts — where a list of operands is cut.

  Operands are read off the spans of a text one span after the other, with the depth of parentheses before it
  (`operandsFrom`). A comma outside quotes at depth 0 ends an operand (`operandsFrom_comma`), and every other span belongs
  to the operand it stands in (`operandsFrom_kept`). Hence operands joined by commas are the text they were read off
  (`join_operandsFrom`), and it is cut at these commas and nowhere else (`mem_cuts_operandsFrom`).
-/

namespace Rv32Tools.Source

/-- Opening parentheses outside quotes, less the closing ones. -/
def depth (ps : List Span) : Int := ps.count (.bare 0x28) - ps.count (.bare 0x29)

/-- Where the commas stand in a text that is put together of `vs` with a comma between each two. -/
def cuts : (vs : List Text) → List Nat
  | [] => []
  | [_] => []
  | v :: w :: vs => v.length :: (cuts (w :: vs)).map (v.length + 1 + ·)

theorem cuts_nil_cons {vs : List Text} (h : vs ≠ []) : cuts ([] :: vs) = 0 :: (cuts vs).map (1 + ·) := by
  cases vs with
  | nil => exact absurd rfl h
  | cons v vs => simp [cuts]

theorem cuts_append_cons (u v : Text) (vs : List Text) : cuts ((u ++ v) :: vs) = (cuts (v :: vs)).map (u.length + ·) := by
  cases vs with
  | nil => rfl
  | cons w vs => simp [cuts, Nat.add_assoc, Function.comp_def]

theorem depth_cons (p : Span) (ps : List Span) : depth (p :: ps) = depth [p] + depth ps := by
  simp only [depth, ← List.singleton_append (x := p) (l := ps), List.count_append]
  omega

/-! ## One span after the other -/

/-- The operands of spans that come at some depth. -/
def operandsFrom (d : Int) (ps : List Span) : List Text :=
  (Text.pieces (·.2) (commas d (ps.flatMap Span.marks))).map (·.map (·.1))

theorem splitOperands_eq (s : Text) : splitOperands s = operandsFrom 0 (spans s) := by
  rw [splitOperands, marked_eq, operandsFrom]

theorem operandsFrom_ne_nil (d : Int) (ps : List Span) : operandsFrom d ps ≠ [] := by
  rw [operandsFrom, ne_eq, List.map_eq_nil_iff]
  exact Text.pieces_ne_nil _ _

theorem operandsFrom_comma (ps : List Span) : operandsFrom 0 (.bare 0x2C :: ps) = [] :: operandsFrom 0 ps := rfl

/-- A span that is no comma at depth 0 parts nothing. -/
theorem commas_span {d : Int} {p : Span} (h : ¬ (p = .bare 0x2C ∧ d = 0)) (ms : List Marked) :
    commas d (p.marks ++ ms) = unparted p.text ++ commas (d + depth [p]) ms := by
  cases p with
  | quoted mark rest =>
    have hdepth : depth [.quoted mark rest] = 0 := by simp [depth]
    rw [hdepth, Int.add_zero]
    exact commas_quoted d (mark :: rest) ms
  | bare b =>
    have hcut : (b == 0x2C && !false && d == 0) = false := by simpa using h
    have hdepth : depthAfter d ⟨b, false⟩ = d + depth [.bare b] := by
      by_cases hopen : b = 0x28
      · simp [hopen, depthAfter, depth]
      · by_cases hclose : b = 0x29
        · simp [hclose, depthAfter, depth, Int.sub_eq_add_neg]
        · simp [hopen, hclose, depthAfter, depth]
    show (b, b == 0x2C && !false && d == 0) :: commas (depthAfter d ⟨b, false⟩) ms = _
    rw [hcut, hdepth]
    rfl

theorem operandsFrom_kept {d : Int} {p : Span} (h : ¬ (p = .bare 0x2C ∧ d = 0)) (ps : List Span) :
    ∃ v vs, operandsFrom (d + depth [p]) ps = v :: vs ∧ operandsFrom d (p :: ps) = (p.text ++ v) :: vs := by
  have hparts : ∀ c ∈ unparted p.text, c.2 = false := by
    intro c hc
    obtain ⟨b, -, rfl⟩ := List.mem_map.mp hc
    rfl
  obtain ⟨x, xs, hx, hfront⟩ := Text.pieces_append_of_neg hparts (commas (d + depth [p]) (ps.flatMap Span.marks))
  refine ⟨x.map (·.1), xs.map (·.map (·.1)), by rw [operandsFrom, hx, List.map_cons], ?_⟩
  rw [operandsFrom, List.flatMap_cons, commas_span h, hfront, List.map_cons, List.map_append, map_unparted]

/-! ## Where it is cut -/

theorem join_operandsFrom (d : Int) (ps : List Span) : Text.join [0x2C] (operandsFrom d ps) = textOf ps := by
  induction ps generalizing d with
  | nil => rfl
  | cons p ps ih =>
    by_cases hcut : p = .bare 0x2C ∧ d = 0
    · obtain ⟨rfl, rfl⟩ := hcut
      obtain ⟨v, vs, hv⟩ := List.exists_cons_of_ne_nil (operandsFrom_ne_nil 0 ps)
      rw [operandsFrom_comma, hv, Text.join, List.intercalate_cons_cons, ← Text.join, ← hv, ih]
      rfl
    · obtain ⟨v, vs, hv, hcons⟩ := operandsFrom_kept hcut ps
      rw [hcons, Text.join_append_cons, ← hv, ih, textOf_cons]

/-- A place in a list of spans is its first one or a place behind it. -/
theorem exists_place_cons {p q : Span} {ps : List Span} {P : List Span → Prop} :
    (∃ front back, p :: ps = front ++ q :: back ∧ P front) ↔
      p = q ∧ P [] ∨ ∃ front back, ps = front ++ q :: back ∧ P (p :: front) := by
  constructor
  · rintro ⟨front, back, hps, hfront⟩
    rcases List.cons_eq_append_iff.mp hps with ⟨rfl, hcons⟩ | ⟨front, rfl, hrest⟩
    · cases hcons
      exact Or.inl ⟨rfl, hfront⟩
    · exact Or.inr ⟨front, back, hrest, hfront⟩
  · rintro (⟨rfl, hnil⟩ | ⟨front, back, rfl, hfront⟩)
    · exact ⟨[], ps, rfl, hnil⟩
    · exact ⟨p :: front, back, rfl, hfront⟩

theorem mem_cuts_operandsFrom (d : Int) (ps : List Span) (i : Nat) :
    i ∈ cuts (operandsFrom d ps) ↔
      ∃ front back, ps = front ++ .bare 0x2C :: back ∧ d + depth front = 0 ∧ i = (textOf front).length := by
  induction ps generalizing d i with
  | nil =>
    refine ⟨fun h => absurd h List.not_mem_nil, ?_⟩
    rintro ⟨front, back, hps, -⟩
    simp at hps
  | cons p ps ih =>
    -- the places behind `p` are those of the other spans, at the depth behind it
    have behind : (∃ j ∈ cuts (operandsFrom (d + depth [p]) ps), p.text.length + j = i) ↔
        ∃ front back, ps = front ++ .bare 0x2C :: back ∧ d + depth (p :: front) = 0 ∧ i = (textOf (p :: front)).length := by
      constructor
      · rintro ⟨j, hj, rfl⟩
        obtain ⟨front, back, hps, hdepth, rfl⟩ := (ih _ j).mp hj
        exact ⟨front, back, hps, by rw [depth_cons, ← Int.add_assoc, hdepth], by rw [textOf_cons, List.length_append]⟩
      · rintro ⟨front, back, hps, hdepth, rfl⟩
        rw [depth_cons, ← Int.add_assoc] at hdepth
        exact ⟨_, (ih _ _).mpr ⟨front, back, hps, hdepth, rfl⟩, by rw [textOf_cons, List.length_append]⟩
    rw [exists_place_cons, ← behind]
    by_cases hcut : p = .bare 0x2C ∧ d = 0
    · obtain ⟨rfl, rfl⟩ := hcut
      have hdepth : 0 + depth [.bare 0x2C] = 0 := by decide
      rw [operandsFrom_comma, cuts_nil_cons (operandsFrom_ne_nil 0 ps), List.mem_cons, List.mem_map, hdepth]
      simp [textOf, depth, Span.text]
    · obtain ⟨v, vs, hv, hcons⟩ := operandsFrom_kept hcut ps
      have hfirst : ¬ (p = .bare 0x2C ∧ d + depth [] = 0 ∧ i = (textOf []).length) := by
        rintro ⟨hp, hd, -⟩
        exact hcut ⟨hp, by simpa [depth] using hd⟩
      rw [hcons, cuts_append_cons, ← hv, List.mem_map, or_iff_right hfirst]

/-- There is at least one operand. Joined by commas the operands are the text as it is written, and it is cut just at the
commas that lie outside quotes and parentheses. -/
theorem operands_cut_at_commas (s : Text) :
    splitOperands s ≠ [] ∧ Text.join [0x2C] (splitOperands s) = s ∧
      ∀ i, i ∈ cuts (splitOperands s) ↔
        ∃ front back, spans s = front ++ .bare 0x2C :: back ∧ depth front = 0 ∧ i = (textOf front).length := by
  rw [splitOperands_eq]
  refine ⟨operandsFrom_ne_nil 0 _, by rw [join_operandsFrom, textOf_spans], fun i => ?_⟩
  rw [mem_cuts_operandsFrom]
  simp only [Int.zero_add]

end Rv32Tools.Source
