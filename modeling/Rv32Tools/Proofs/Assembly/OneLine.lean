import Rv32Tools.Proofs.Assembly.Addresses

/-
  Rv32Tools.Proofs.Assembly.OneLine — an instruction line has a part in nothing but its own words.

  Two lines are `Exchangeable` if both hold an instruction, with the same label and of the same width, and neither has
  a relocation call. A source in whose text segment one of them stands and the same source with the other
  (`one_line_local`) end alike, and if they come to a result then
  - sections, labels, data segment, warnings and counts are the same,
  - errors and listing rows are the same but for those of the line itself,
  - the words are the same but for those at the address of the line.

  One stage at a time: the sections do not look at instructions (`Sections.ofLines_exchange`), the layout takes either
  line to the same place (`Layout.place_exchange`), and a line without a call leaves nothing for the calls behind it
  (`Relocation.expandOne_of_not_mem`). What is left of a run without the line is its `Surroundings`.
-/

namespace Rv32Tools.Assembly

open Source (Line)
open Layout (along placedOn)

/-- Two instruction lines that can stand for one another. -/
structure Exchangeable (l l' : Line) : Prop where
  instruction : l.isInstruction = true ∧ l'.isInstruction = true
  named : Text.words l.statement.body ≠ [] ∧ Text.words l'.statement.body ≠ []
  label : l.statement.label = l'.statement.label
  width : Mnemonic.width l.mnemonic = Mnemonic.width l'.mnemonic
  noCall : 0x25 ∉ l.text ∧ 0x25 ∉ l'.text

/-! ## The layout -/

namespace Layout

/-- The layout with other placements before its own. -/
def behind (ps : List Placement) (y : Layout) : Layout := { y with placements := ps ++ y.placements }

theorem body_behind (ps : List Placement) (y : Layout) (l : Line) (code : Text) :
    (y.behind ps).body l code = (y.body l code).map (behind ps) := by
  unfold body
  split
  · rfl
  · split
    · rfl
    · split
      · rfl
      · rename_i name _ _
        by_cases hfit : y.pc + Mnemonic.width name ≤ addressSpace
        · simp [behind, address, Except.map, hfit]
        · simp [behind, Except.map, hfit]

theorem step_behind (ps : List Placement) (y : Layout) (l : Line) :
    (y.behind ps).step l = (y.step l).map (behind ps) := by
  rw [step_eq, step_eq]
  have hl : (y.behind ps).labelled l = y.labelled l := rfl
  rw [hl]
  cases y.labelled l with
  | error e => rfl
  | ok symbols => exact body_behind ps { y with symbols } l l.statement.body

/-- What has been placed has no part in how the layout goes on. -/
theorem place_behind (ps : List Placement) (y : Layout) (ls : List Line) :
    (y.behind ps).place ls = ((y.place ls).1.behind ps, (y.place ls).2) := by
  induction ls generalizing y with
  | nil => rfl
  | cons l ls ih =>
    simp only [place, step_behind]
    cases y.step l with
    | ok y₁ => exact ih y₁
    | error halt => rfl

/-- Either of two exchangeable lines is laid out as the other, or is where the layout stops. -/
theorem step_exchange {l l' : Line} (hx : Exchangeable l l') (hn : l.number = l'.number) (y : Layout) :
    (∃ halt, y.step l = .error halt ∧ y.step l' = .error halt) ∨
      ∃ z : Layout, y.step l = .ok (z.behind (y.placements ++ [⟨l, y.address⟩])) ∧
        y.step l' = .ok (z.behind (y.placements ++ [⟨l', y.address⟩])) := by
  have hlabel : y.labelled l' = y.labelled l := by rw [labelled, labelled, hx.label, hn]
  rw [step_eq, step_eq, hlabel]
  cases y.labelled l with
  | error e => exact Or.inl ⟨_, rfl, rfl⟩
  | ok symbols =>
    simp only [body_of_isInstruction _ hx.instruction.1 hx.named.1, body_of_isInstruction _ hx.instruction.2 hx.named.2,
      hx.width]
    by_cases hfit : y.pc + Mnemonic.width l'.mnemonic ≤ addressSpace
    · refine Or.inr ⟨{ y with symbols, pc := y.pc + Mnemonic.width l'.mnemonic, placements := [] }, ?_, ?_⟩
      · simp [hfit, behind, address]
      · simp [hfit, behind, address]
    · refine Or.inl ⟨.error .overflow, ?_, ?_⟩
      · rw [if_neg hfit]
      · rw [if_neg hfit]

/-- A layout with either of two exchangeable lines stops at the same fault, or differs in that line only. -/
theorem place_exchange {l l' : Line} (hx : Exchangeable l l') (hn : l.number = l'.number) (y : Layout)
    (before after : List Line) :
    (∃ fault, (y.place (before ++ l :: after)).2 = some fault ∧ (y.place (before ++ l' :: after)).2 = some fault) ∨
      ∃ (front : List Placement) (pc : Word) (rest : Layout),
        y.place (before ++ l :: after) = (rest.behind (front ++ [⟨l, pc⟩]), none) ∧
          y.place (before ++ l' :: after) = (rest.behind (front ++ [⟨l', pc⟩]), none) := by
  rw [place_append, place_append]
  rcases y.place before with ⟨y₁, _ | fault⟩
  · simp only [place]
    rcases step_exchange hx hn y₁ with ⟨halt, h, h'⟩ | ⟨z, h, h'⟩
    · rw [h, h', ← hn]
      exact Or.inl ⟨_, rfl, rfl⟩
    · rw [h, h']
      simp only [place_behind]
      rcases z.place after with ⟨rest, _ | fault⟩
      · exact Or.inr ⟨y₁.placements, y₁.address, rest, rfl, rfl⟩
      · exact Or.inl ⟨fault, rfl, rfl⟩
  · exact Or.inl ⟨fault, rfl, rfl⟩

end Layout

/-! ## A run without one of its lines -/

/-- What a run has in hand before it encodes, but for one placed line. -/
structure Surroundings where
  sections : Sections
  data : Option DataSegment
  /-- What is placed before the line. -/
  front : List Placement
  /-- The address of the line. -/
  pc : Word
  /-- The rest of the layout, with what is placed behind the line. -/
  rest : Layout

namespace Surroundings

variable (c : Surroundings) (o : Options) {l : Line}

/-- The stages with a line put in. -/
def fill (l : Line) : Stages := ⟨c.sections, c.data, c.rest.behind (c.front ++ [⟨l, c.pc⟩])⟩

def expandedFront : List Placement × Relocation.Memory := Relocation.expandAll c.rest.symbols {} c.front

def expandedRest : List Placement × Relocation.Memory :=
  Relocation.expandAll c.rest.symbols c.expandedFront.2 c.rest.placements

def attemptsFront : List Attempt := c.expandedFront.1.map (attempt o c.rest.symbols)

def attemptsRest : List Attempt := c.expandedRest.1.map (attempt o c.rest.symbols)

/-- The line put in, encoded. -/
def attemptAt (l : Line) : Attempt := attempt o c.rest.symbols ⟨l, c.pc⟩

theorem fill_placements : (c.fill l).layout.placements = c.front ++ ⟨l, c.pc⟩ :: c.rest.placements := by
  rw [fill, Layout.behind, List.append_assoc]
  rfl

/-- The calls around a line without one do not see it. -/
theorem expandAll_fill (h : 0x25 ∉ l.text) :
    Relocation.expandAll (c.fill l).layout.symbols {} (c.fill l).layout.placements =
      (c.expandedFront.1 ++ ⟨l, c.pc⟩ :: c.expandedRest.1, c.expandedRest.2) := by
  have alone : Relocation.expandOne c.rest.symbols c.expandedFront.2 ⟨l, c.pc⟩ = (⟨l, c.pc⟩, c.expandedFront.2) :=
    Relocation.expandOne_of_not_mem _ _ h
  rw [fill_placements]
  show Relocation.expandAll c.rest.symbols {} (c.front ++ ⟨l, c.pc⟩ :: c.rest.placements) = _
  rw [Relocation.expandAll_append]
  show (c.expandedFront.1 ++ (Relocation.expandAll _ c.expandedFront.2 _).1,
    (Relocation.expandAll _ c.expandedFront.2 _).2) = _
  rw [Relocation.expandAll, alone]
  rfl

theorem attempts_fill (h : 0x25 ∉ l.text) :
    (c.fill l).attempts o = c.attemptsFront o ++ c.attemptAt o l :: c.attemptsRest o := by
  rw [Stages.attempts, Stages.expanded, c.expandAll_fill h, List.map_append, List.map_cons]
  rfl

end Surroundings

/-- With either of two exchangeable lines in the text segment, a source halts in the same way or comes to the same
stages but for the line. -/
theorem Stages.ofSource_exchange {source source' : Text} {before after : List Line} {l l' : Line}
    (h : Line.ofSource source = before ++ l :: after) (h' : Line.ofSource source' = before ++ l' :: after)
    (ht : Sections.EndsInText before) (hx : Exchangeable l l') (hn : l.number = l'.number) :
    (∃ halt, ofSource source = .error halt ∧ ofSource source' = .error halt) ∨
      ∃ c : Surroundings, ofSource source = .ok (c.fill l) ∧ ofSource source' = .ok (c.fill l') := by
  obtain ⟨hnone, hin⟩ := ht
  obtain ⟨scan, hscan⟩ : ∃ scan, Sections.scan {} 0 before = (scan, none) := ⟨_, Prod.ext rfl hnone⟩
  rw [hscan] at hin
  have hsections : Sections.ofLines (before ++ l :: after) = Sections.ofLines (before ++ l' :: after) :=
    Sections.ofLines_exchange hscan hin.stage (Line.directive?_of_isInstruction hx.instruction.1)
      (Line.directive?_of_isInstruction hx.instruction.2)
  simp only [ofSource, h, h', ← hsections]
  cases hs : (Sections.ofLines (before ++ l :: after)).2 with
  | error e => exact Or.inl ⟨_, rfl, rfl⟩
  | ok sections =>
    obtain ⟨hstart, hstop, hdata⟩ := Sections.ofLines_inText hscan hin hs
    -- the data segment ends before the line, and the text segment has it with all that follows
    have text : ∀ l, sections.text.lines (before ++ l :: after) = before.drop sections.text.start ++ l :: after := by
      intro l
      refine Region.lines_of_start_le hstart (hstop.trans ?_)
      simp only [List.length_append, List.length_cons]
    simp only [dataStage_append hdata]
    cases hd : dataStage before sections with
    | error halt => exact Or.inl ⟨_, rfl, rfl⟩
    | ok data =>
      simp only [layoutStage, text, Layout.ofLines]
      rcases Layout.place_exchange hx hn { pc := sections.text.base.toNat, symbols := dataLabels data }
        (before.drop sections.text.start) after with ⟨fault, hf, hf'⟩ | ⟨front, pc, rest, hp, hp'⟩
      · left
        refine ⟨fault.ending, ?_, ?_⟩
        · rw [← Prod.eta (Layout.place _ (_ ++ l :: after)), hf]
        · rw [← Prod.eta (Layout.place _ (_ ++ l' :: after)), hf']
      · right
        refine ⟨⟨sections, data, front, pc, rest⟩, ?_, ?_⟩
        · rw [hp]
          rfl
        · rw [hp']
          rfl

/-! ## What two runs have in common -/

/-- The rows that a listing has for the line numbered `n`. -/
def Stages.rowsOn (s : Stages) (o : Options) (n : Nat) : List Text :=
  if o.listing then ((s.attempts o).filter (·.placement.line.number = n)).flatMap Attempt.rows else []

/-- The encoded lines are the instructions of the text segment, in order. -/
theorem Stages.expanded_numbers {s : Stages} {source : Text} (h : ofSource source = .ok s) :
    s.expanded.map (·.line.number) = ((s.textLines source).filter Line.isInstruction).map Line.number := by
  have same : (along placedOn s.sections.text.base.toNat (s.textLines source)).map (·.line.number) =
      s.expanded.map (·.line.number) := by
    rw [← List.forall₂_eq_eq_eq, List.forall₂_map_left_iff, List.forall₂_map_right_iff]
    exact (placements_expanded h).imp fun p e hpe => hpe.number.symm
  rw [← same, ← Layout.along_placedOn_lines s.sections.text.base.toNat, List.map_map]
  rfl

theorem Stages.expanded_increasing {s : Stages} {source : Text} (h : ofSource source = .ok s) :
    (s.expanded.map (·.line.number)).Pairwise (· < ·) := by
  rw [expanded_numbers h, List.pairwise_map]
  exact (s.textLines_increasing source).filter _

theorem Stages.attempts_increasing {s : Stages} {source : Text} (h : ofSource source = .ok s) (o : Options) :
    (s.attempts o).Pairwise (fun a a' => a.placement.line.number < a'.placement.line.number) := by
  rw [attempts, List.pairwise_map]
  exact List.pairwise_map.mp (expanded_increasing h)

/-- What the runs of two sources have in common, when they differ in the line numbered `n` only: there the one has `l`
and the other `l'`, at the address `pc`. -/
structure SameElsewhere (o : Options) (n : Nat) (l l' : Line) (pc : Word) (s s' : Stages) (r r' : Result) : Prop where
  placed : ⟨l, pc⟩ ∈ s.layout.placements ∧ ⟨l', pc⟩ ∈ s'.layout.placements
  sections : r.sections = r'.sections
  symbols : r.symbols = r'.symbols
  /-- The data segment is the same, whether the runs have errors or not; its image is in a result without errors. -/
  data : s.data = s'.data ∧ (r.errors = [] → r'.errors = [] → r.data = r'.data)
  warnings : r.warnings = r'.warnings
  counts : r.relocations = r'.relocations ∧ r.instructions = r'.instructions ∧ r.lines = r'.lines
  errors : r.errors.filter (·.line ≠ n) = r'.errors.filter (·.line ≠ n)
  /-- The rows of the line stand between the same rows. -/
  listing : ∃ front rest, r.listing = front ++ s.rowsOn o n ++ rest ∧ r'.listing = front ++ s'.rowsOn o n ++ rest
  rows : ∀ m, m ≠ n → s.rowsOn o m = s'.rowsOn o m
  /-- A word that is not at an address of the line is the same. -/
  words : ∀ i i', r.text = some i → r'.text = some i' →
    i.base = i'.base ∧ i.words.length = i'.words.length ∧
      ∀ k, i.base.toNat + 4 * k < pc.toNat ∨ pc.toNat + Mnemonic.width l.mnemonic ≤ i.base.toNat + 4 * k →
        i.words[k]? = i'.words[k]?

namespace Surroundings

variable {c : Surroundings} {o : Options} {source : Text} {l : Line}

/-- The line put in is the only one with its number. -/
theorem number_ne (h : Stages.ofSource source = .ok (c.fill l)) (hc : 0x25 ∉ l.text) :
    ∀ a ∈ c.attemptsFront o ++ c.attemptsRest o, a.placement.line.number ≠ l.number := by
  have increasing := Stages.attempts_increasing h o
  rw [c.attempts_fill o hc, List.pairwise_append, List.pairwise_cons] at increasing
  obtain ⟨_, ⟨above, _⟩, below⟩ := increasing
  intro a ha
  rcases List.mem_append.mp ha with ha | ha
  · exact Nat.ne_of_lt (below a ha _ List.mem_cons_self)
  · exact Nat.ne_of_gt (above a ha)

theorem errors_filter (hc : 0x25 ∉ l.text) :
    ((c.fill l).errors o).filter (·.line ≠ l.number) =
      ((c.attemptsFront o ++ c.attemptsRest o).filterMap Attempt.error?).filter (·.line ≠ l.number) := by
  have own : ∀ d, (c.attemptAt o l).error? = some d → d.line = l.number := by
    intro d hd
    unfold Attempt.error? at hd
    split at hd
    · cases hd
      rfl
    · cases hd
  rw [Stages.errors, c.attempts_fill o hc, List.filterMap_append, List.filterMap_append, List.filterMap_cons]
  cases he : (c.attemptAt o l).error? with
  | none => rfl
  | some d => simp [List.filter_append, own d he]

theorem rowsOn_self (h : Stages.ofSource source = .ok (c.fill l)) (hc : 0x25 ∉ l.text) (hl : o.listing = true) :
    (c.fill l).rowsOn o l.number = (c.attemptAt o l).rows := by
  have none : ∀ as, as ⊆ c.attemptsFront o ++ c.attemptsRest o →
      as.filter (fun a => decide (a.placement.line.number = l.number)) = [] := by
    intro as hsub
    refine List.filter_eq_nil_iff.mpr fun a ha => ?_
    simpa using number_ne h hc a (hsub ha)
  have own : (c.attemptAt o l).placement.line.number = l.number := rfl
  rw [Stages.rowsOn, if_pos hl, c.attempts_fill o hc, List.filter_append, List.filter_cons, own,
    none _ (List.subset_append_left _ _), none _ (List.subset_append_right _ _)]
  simp

theorem rowsOn_of_ne (hc : 0x25 ∉ l.text) {m : Nat} (hm : m ≠ l.number) :
    (c.fill l).rowsOn o m =
      if o.listing then
        ((c.attemptsFront o ++ c.attemptsRest o).filter (·.placement.line.number = m)).flatMap Attempt.rows
      else [] := by
  have other : decide ((c.attemptAt o l).placement.line.number = m) = false := decide_eq_false fun e => hm e.symm
  rw [Stages.rowsOn, c.attempts_fill o hc, List.filter_append, List.filter_cons, other, List.filter_append]
  rfl

theorem listing_fill (h : Stages.ofSource source = .ok (c.fill l)) (hc : 0x25 ∉ l.text) :
    ((c.fill l).result o source).listing =
      (if o.listing then (c.attemptsFront o).flatMap Attempt.rows else []) ++ (c.fill l).rowsOn o l.number ++
        (if o.listing then (c.attemptsRest o).flatMap Attempt.rows else []) := by
  cases hl : o.listing with
  | false => simp [Stages.result, Stages.rowsOn, hl]
  | true =>
    rw [rowsOn_self h hc hl]
    simp [Stages.result, hl, c.attempts_fill o hc]

/-- Without errors, the line put in has its words at its address. -/
theorem words_fill (h : Stages.ofSource source = .ok (c.fill l)) (hc : 0x25 ∉ l.text)
    (hw : Text.words l.statement.body ≠ []) (he : (c.fill l).errors o = []) :
    (c.fill l).words o =
        (c.attemptsFront o).flatMap Attempt.words ++
          ((c.attemptAt o l).words ++ (c.attemptsRest o).flatMap Attempt.words) ∧
      c.pc.toNat = c.sections.text.base.toNat + 4 * ((c.attemptsFront o).flatMap Attempt.words).length ∧
      Mnemonic.width l.mnemonic = 4 * (c.attemptAt o l).words.length := by
  have hlen : (c.attemptsFront o).length = c.front.length := by
    rw [attemptsFront, List.length_map]
    exact (Relocation.expandAll_expanded (Stages.wellNamed h) c.front {}).length_eq.symm
  have hat : (c.fill l).layout.placements[c.front.length]? = some ⟨l, c.pc⟩ := by
    rw [fill_placements, List.getElem?_append_right (Nat.le_refl _), Nat.sub_self]
    rfl
  have hmem : c.attemptAt o l ∈ (c.fill l).attempts o := by
    rw [c.attempts_fill o hc]
    exact List.mem_append_right _ List.mem_cons_self
  have hpc := Stages.placement_pc h he hat
  rw [c.attempts_fill o hc, ← hlen, List.take_left] at hpc
  obtain ⟨is, his⟩ := Attempt.outcome_ok (List.filterMap_eq_nil_iff.mp he _ hmem) (Stages.no_abort h o _ hmem)
  have hsame : Relocation.Expanded ⟨l, c.pc⟩ ⟨l, c.pc⟩ := ⟨rfl, rfl, rfl, .refl _⟩
  refine ⟨?_, hpc, ?_⟩
  · rw [Stages.words, c.attempts_fill o hc, List.flatMap_append, List.flatMap_cons]
  · rw [Attempt.words_of_ok his, List.length_map]
    exact hsame.width hw his

end Surroundings

/-- Two images with the same words around `ws` and `ws'` have the same words outside of them. -/
theorem getElem?_around {front ws ws' rest : List Word} (hlen : ws.length = ws'.length) {k : Nat}
    (hk : k < front.length ∨ front.length + ws.length ≤ k) :
    (front ++ (ws ++ rest))[k]? = (front ++ (ws' ++ rest))[k]? := by
  rcases hk with hk | hk
  · rw [List.getElem?_append_left hk, List.getElem?_append_left hk]
  · rw [List.getElem?_append_right (by omega), List.getElem?_append_right (by omega),
      List.getElem?_append_right (by omega), List.getElem?_append_right (by omega), hlen]

theorem Surroundings.sameElsewhere {c : Surroundings} {source source' : Text} {l l' : Line}
    (h : Stages.ofSource source = .ok (c.fill l)) (h' : Stages.ofSource source' = .ok (c.fill l'))
    (hx : Exchangeable l l') (hn : l.number = l'.number) (hw : orgWarnings source = orgWarnings source')
    (hlines : (Line.ofSource source).length = (Line.ofSource source').length) (o : Options) :
    SameElsewhere o l.number l l' c.pc (c.fill l) (c.fill l') ((c.fill l).result o source)
      ((c.fill l').result o source') where
  placed := by
    rw [c.fill_placements, c.fill_placements]
    exact ⟨List.mem_append_right _ List.mem_cons_self, List.mem_append_right _ List.mem_cons_self⟩
  sections := rfl
  symbols := rfl
  data := by
    refine ⟨rfl, fun he he' => ?_⟩
    rw [Stages.result_data _ _ _ he, Stages.result_data _ _ _ he']
    rfl
  warnings := by
    simp only [Stages.result, Stages.warnings, c.expandAll_fill hx.noCall.1, c.expandAll_fill hx.noCall.2, hw]
    rfl
  counts := by
    refine ⟨?_, ?_, hlines⟩
    · simp only [Stages.result, c.expandAll_fill hx.noCall.1, c.expandAll_fill hx.noCall.2]
    · simp only [Stages.result, c.fill_placements, List.length_append, List.length_cons]
  errors := by
    have e := errors_filter (o := o) (c := c) hx.noCall.2
    rw [← hn] at e
    exact (errors_filter hx.noCall.1).trans e.symm
  listing := by
    refine ⟨_, _, listing_fill h hx.noCall.1, ?_⟩
    rw [hn]
    exact listing_fill h' hx.noCall.2
  rows := by
    intro m hm
    rw [rowsOn_of_ne hx.noCall.1 hm, rowsOn_of_ne hx.noCall.2 (hn ▸ hm)]
  words := by
    intro i i' hi hi'
    simp only [Stages.result, Option.ite_none_right_eq_some, Option.some.injEq, List.isEmpty_iff] at hi hi'
    obtain ⟨he, rfl⟩ := hi
    obtain ⟨he', rfl⟩ := hi'
    obtain ⟨words, hpc, hwidth⟩ := words_fill h hx.noCall.1 hx.named.1 he
    obtain ⟨words', _, hwidth'⟩ := words_fill h' hx.noCall.2 hx.named.2 he'
    have hlen : (c.attemptAt o l).words.length = (c.attemptAt o l').words.length := by
      have := hx.width
      omega
    rw [Image.words_ofText, Image.words_ofText, words, words']
    refine ⟨rfl, ?_, fun k hk => getElem?_around hlen ?_⟩
    · simp only [List.length_append, hlen]
    · have hbase : (Image.ofText (c.fill l).sections.text.base ((c.fill l).words o)).base = c.sections.text.base := rfl
      rw [← words, hbase] at hk
      omega

/-- An instruction line without a call has a part in nothing but its own errors, rows and words. -/
theorem one_line_local (o : Options) (source source' : Text) (before after : List Text) (raw raw' : Text)
    (h : Line.rawLines source = before ++ raw :: after) (h' : Line.rawLines source' = before ++ raw' :: after)
    (ht : Sections.EndsInText (Line.numbered 1 before))
    (hx : Exchangeable (Line.ofRaw (before.length + 1) raw) (Line.ofRaw (before.length + 1) raw')) :
    (∀ halt, (assemble o source).outcome = .error halt ↔ (assemble o source').outcome = .error halt) ∧
      ∀ r r', (assemble o source).outcome = .ok r → (assemble o source').outcome = .ok r' →
        ∃ s s' pc, Stages.ofSource source = .ok s ∧ Stages.ofSource source' = .ok s' ∧
          SameElsewhere o (before.length + 1) (Line.ofRaw (before.length + 1) raw)
            (Line.ofRaw (before.length + 1) raw') pc s s' r r' := by
  have hl := Line.ofSource_of_rawLines h
  have hl' := Line.ofSource_of_rawLines h'
  have hnumber := Line.ofRaw_number (before.length + 1) raw
  have hn := hnumber.trans (Line.ofRaw_number (before.length + 1) raw').symm
  apply assemble_alike
  rcases Stages.ofSource_exchange hl hl' ht hx hn with halts | ⟨c, hs, hs'⟩
  · exact Or.inl halts
  · have hw : orgWarnings source = orgWarnings source' := by
      rw [orgWarnings, orgWarnings, hl, hl', Sections.ofLines_exchange (Prod.ext rfl ht.1) ht.2.stage
        (Line.directive?_of_isInstruction hx.instruction.1) (Line.directive?_of_isInstruction hx.instruction.2)]
    have hlines : (Line.ofSource source).length = (Line.ofSource source').length := by
      rw [hl, hl', List.length_append, List.length_append, List.length_cons, List.length_cons]
    have same := c.sameElsewhere hs hs' hx hn hw hlines o
    rw [hnumber] at same
    exact Or.inr ⟨_, _, hs, hs', _, _, _, hs, hs', same⟩

/-- A loop that reads a byte of the data segment, with one line left open. -/
def loopAround (line : Text) : Text :=
  Text.unlines [".section .data", ".org 0x0", "v: .byte 7", ".section .text", ".org 0x10", "lui a1, %hi(v)", line,
    "lb a1, %lo(v)(a1)", "bne a0, a1, next"]

/-- The line that the loop is filled in with, or one of the same width with a literal that is none. -/
theorem one_line_local_literal :
    ∃ r r' s s' pc, (assemble { listing := true } (loopAround "next: addi a0, a0, 'a'")).outcome = .ok r ∧
      (assemble { listing := true } (loopAround "next: sub a0, 'ab', a1")).outcome = .ok r' ∧
      r.errors = [] ∧ r'.errors.map Diagnostic.line = [7] ∧
      SameElsewhere { listing := true } 7 (Line.ofRaw 7 "next: addi a0, a0, 'a'")
        (Line.ofRaw 7 "next: sub a0, 'ab', a1") pc s s' r r' := by
  have run : ((assemble { listing := true } (loopAround "next: addi a0, a0, 'a'")).outcome.toOption.map
      (·.errors)) = some [] := by decide +kernel
  have run' : ((assemble { listing := true } (loopAround "next: sub a0, 'ab', a1")).outcome.toOption.map
      (·.errors.map Diagnostic.line)) = some [7] := by decide +kernel
  obtain ⟨r, hr, he⟩ := Option.map_eq_some_iff.mp run
  obtain ⟨r', hr', he'⟩ := Option.map_eq_some_iff.mp run'
  have exchangeable : Exchangeable (Line.ofRaw 7 "next: addi a0, a0, 'a'") (Line.ofRaw 7 "next: sub a0, 'ab', a1") :=
    ⟨by decide +kernel, by decide +kernel, by decide +kernel, by decide +kernel, by decide +kernel⟩
  have inText : Sections.EndsInText (Line.numbered 1 [".section .data", ".org 0x0", "v: .byte 7", ".section .text",
      ".org 0x10", "lui a1, %hi(v)"]) :=
    ⟨by decide +kernel, by decide +kernel, by decide +kernel⟩
  obtain ⟨s, s', pc, _, _, same⟩ := (one_line_local { listing := true } (loopAround "next: addi a0, a0, 'a'")
    (loopAround "next: sub a0, 'ab', a1") _ ["lb a1, %lo(v)(a1)", "bne a0, a1, next"] _ _ (by decide +kernel)
    (by decide +kernel) inText exchangeable).2 r r' (Source.toOption_eq_some hr) (Source.toOption_eq_some hr')
  exact ⟨r, r', s, s', pc, Source.toOption_eq_some hr, Source.toOption_eq_some hr', he, he', same⟩

end Rv32Tools.Assembly
