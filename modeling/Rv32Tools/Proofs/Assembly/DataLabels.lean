import Rv32Tools.Proofs.Assembly.DataBounds

/-
  Rv32Tools.Proofs.Assembly.DataLabels — a data label names the first byte of its own datum.

  A label is defined at the cursor and waits there for a directive. A directive that is taken fills up with zeros to a
  multiple of its alignment, stores its bytes, and either moves the labels that wait to the first of them or has no
  alignment (`LaysDown`, `directive_lays`). So
  - a label that waits stands at the cursor, and every label of the segment inside it (`Settled`); a line keeps that
    (`line_settled`), and with it every run of lines (`feed_settled`);
  - the labels that wait for a line with a directive end up at the first byte it stores (`line_places`);
  - a label that waits no longer is not moved again (`line_keeps`, `feed_keeps`).

  All of it is about a segment that ends below the top of the address space (`labels_name_first_byte`).
-/

namespace Rv32Tools.Assembly

open Source (Line)

/-- The zeros up to the next multiple of `n`: fewer than `n` of them, and the address behind them is that multiple. -/
theorem padding_spec {n : Nat} (hn : 0 < n) (a : Nat) :
    (n - a % n) % n < n ∧ (a + (n - a % n) % n) % n = 0 := by
  refine ⟨Nat.mod_lt _ hn, ?_⟩
  have hlt := Nat.mod_lt a hn
  rw [Nat.add_mod, Nat.mod_mod, ← Nat.add_mod_mod]
  by_cases h : a % n = 0
  · simp [h]
  · rw [Nat.mod_mod, Nat.mod_eq_of_lt (show n - a % n < n by omega), show a % n + (n - a % n) = n by omega, Nat.mod_self]

namespace DataSegment

/-! ## What a directive stores -/

/-- The directive stores `bytes` from the next multiple of `n` on. -/
inductive LaysDown : (name argument : Text) → (n : Nat) → (bytes : List UInt8) → Prop
  | alignment {argument : Text} {k : Nat} (h : Text.natural 10 255 argument = .ok k) (hk : k ≤ maxAlignment) :
    LaysDown ".p2align" argument (2 ^ k) []
  | zeros {argument : Text} {k : Nat} (h : Text.prefixed 0xFFFFFFFF argument = .ok k) :
    LaysDown ".zero" argument 1 (List.replicate k 0)
  | string {argument s : Text} (h : Source.unquote (Text.inner argument) = .ok s) :
    LaysDown ".string" argument 1 (s ++ [0])
  | character {argument : Text} {b : UInt8} (h : Source.decodeChar 0x27 (Text.inner argument) = .ok b) :
    LaysDown ".ascii" argument 1 [b]
  | values {name argument : Text} {size : Nat} {bytes : List UInt8} (hsize : itemSize? name = some size)
    (h : itemBytes size (Source.splitOperands argument) = (bytes, none)) : LaysDown name argument size bytes

theorem itemSize?_cases {name : Text} {size : Nat} (h : itemSize? name = some size) :
    name = ".byte" ∧ size = 1 ∨ name = ".hword" ∧ size = 2 ∨ name = ".word" ∧ size = 4 := by
  unfold itemSize? at h
  split at h
  · cases h; exact Or.inl ⟨‹_›, rfl⟩
  · split at h
    · cases h; exact Or.inr (Or.inl ⟨‹_›, rfl⟩)
    · split at h
      · cases h; exact Or.inr (Or.inr ⟨‹_›, rfl⟩)
      · cases h

theorem itemSize?_dvd {name : Text} {size : Nat} (h : itemSize? name = some size) : size ∣ addressSpace := by
  rcases itemSize?_cases h with ⟨_, rfl⟩ | ⟨_, rfl⟩ | ⟨_, rfl⟩ <;> decide

theorem LaysDown.dvd {name argument : Text} {n : Nat} {bytes : List UInt8} (h : LaysDown name argument n bytes) :
    n ∣ addressSpace := by
  cases h with
  | alignment _ hk => exact Nat.pow_dvd_pow 2 (show _ ≤ 32 from Nat.le_trans hk (by decide))
  | zeros => exact Nat.one_dvd _
  | string => exact Nat.one_dvd _
  | character => exact Nat.one_dvd _
  | values hsize => exact itemSize?_dvd hsize

theorem LaysDown.pos {name argument : Text} {n : Nat} {bytes : List UInt8} (h : LaysDown name argument n bytes) : 0 < n :=
  Nat.pos_of_dvd_of_pos h.dvd (by decide)

/-- What a directive that is taken makes of a segment. -/
structure Lays (d : DataSegment) (n : Nat) (bytes : List UInt8) (d' : DataSegment) : Prop where
  base : d'.base = d.base
  bytes : d'.bytes = (d.align n).bytes ++ bytes
  -- a directive without an alignment leaves the labels where they wait
  symbols : d'.symbols = (d.align n).relabel.symbols ∨ n = 1 ∧ d'.symbols = d.symbols

theorem append_lays (d : DataSegment) (bytes : List UInt8) : Lays d 1 bytes (d.append bytes) where
  base := rfl
  bytes := by simp [append, align, Nat.mod_one]
  symbols := Or.inr ⟨rfl, rfl⟩

theorem values_lays {d d' : DataSegment} {name argument : Text} {size : Nat} (hsize : itemSize? name = some size)
    (h : d.values size argument = (d', none)) : ∃ n bytes, LaysDown name argument n bytes ∧ Lays d n bytes d' := by
  unfold values at h
  split at h
  · cases h
  · rw [Prod.mk.injEq] at h
    obtain ⟨rfl, hnone⟩ := h
    exact ⟨size, _, .values hsize (Prod.ext rfl hnone), rfl, rfl, Or.inl rfl⟩

theorem directive_lays {d d' : DataSegment} {name argument : Text} (h : d.directive name argument = (d', none)) :
    ∃ n bytes, LaysDown name argument n bytes ∧ Lays d n bytes d' := by
  unfold directive at h
  split at h
  · rename_i hname
    obtain rfl := eq_of_beq hname
    unfold p2align at h
    split at h
    · cases h
    · split at h
      · cases h
      · split at h
        · rename_i k hk hle
          cases h
          refine ⟨2 ^ k, [], .alignment hk hle, rfl, ?_, Or.inl ?_⟩
          · rw [Nat.one_shiftLeft, List.append_nil]
            rfl
          · rw [Nat.one_shiftLeft]
        · cases h
  split at h
  · rename_i hname
    obtain rfl := eq_of_beq hname
    unfold zeros at h
    split at h
    · cases h
    · rename_i k hk
      split at h
      · cases h
      · split at h
        · cases h
          exact ⟨1, _, .zeros hk, append_lays d _⟩
        · cases h
  split at h
  · rename_i hname
    obtain rfl := eq_of_beq hname
    unfold string at h
    split at h
    · cases h
    · split at h
      · cases h
      · rename_i s hs
        split at h
        · cases h
          exact ⟨1, _, .string hs, append_lays d _⟩
        · cases h
  split at h
  · rename_i hname
    obtain rfl := eq_of_beq hname
    unfold character at h
    split at h
    · cases h
    · split at h
      · cases h
      · rename_i b hb
        cases h
        exact ⟨1, _, .character hb, append_lays d _⟩
  split at h
  · rename_i hname
    exact values_lays (by rw [eq_of_beq hname]; decide) h
  split at h
  · rename_i hname
    exact values_lays (by rw [eq_of_beq hname]; decide) h
  split at h
  · rename_i hname
    exact values_lays (by rw [eq_of_beq hname]; decide) h
  · cases h

/-! ## What a line does -/

/-- The labels that wait when the directive of a line is met: those that waited before, and its own. -/
def waitingFor (d : DataSegment) (l : Line) : List Text :=
  d.pending ++ if l.statement.label.isEmpty then [] else [l.statement.label]

/-- A line without a label changes no label; any other one defines its own at the cursor. -/
theorem labelled_cases {d d₁ : DataSegment} {l : Line} (h : d.labelled l = .ok d₁) :
    d₁.pending = d.waitingFor l ∧
      (d₁.symbols = d.symbols ∧ d₁.pending = d.pending ∨
        d.symbols.find? l.statement.label = none ∧ d₁.pending = d.pending ++ [l.statement.label] ∧
          d₁.symbols = ⟨d.symbols.entries ++ [⟨l.statement.label, d.cursor, .data, l.number⟩]⟩) := by
  unfold labelled at h
  unfold waitingFor
  by_cases hl : l.statement.label.isEmpty = true
  · rw [if_pos hl] at h ⊢
    cases h
    exact ⟨(List.append_nil _).symm, Or.inl ⟨rfl, rfl⟩⟩
  · rw [if_neg hl] at h ⊢
    split at h
    · cases h
    · rename_i symbols hd
      obtain ⟨_, hnew, rfl⟩ := SymbolTable.define_eq_ok_iff.mp hd
      cases h
      exact ⟨rfl, Or.inr ⟨hnew, rfl, rfl⟩⟩

theorem labelled_cursor {d d₁ : DataSegment} {l : Line} (h : d.labelled l = .ok d₁) :
    d₁.cursor = d.cursor ∧ d₁.top = d.top := by
  obtain ⟨hbase, hbytes, _⟩ := labelled_ok h
  rw [cursor, cursor, top, top, hbase, hbytes]
  exact ⟨rfl, rfl⟩

theorem line_top_le {d d' : DataSegment} {l : Line} (h : d.line l = (d', none)) : d.top ≤ d'.top := by
  obtain ⟨hbase, hbytes⟩ := line_bytes h
  rw [top, top, hbase]
  exact Nat.add_le_add_left hbytes.length_le _

theorem cursor_toNat_of_lt {d : DataSegment} (h : d.top < addressSpace) : d.cursor.toNat = d.top := by
  rw [cursor_toNat, Nat.mod_eq_of_lt h]

theorem relabel_find? (d : DataSegment) (name : Text) :
    d.relabel.symbols.find? name = (d.symbols.find? name).map (SymbolTable.movedIn d.pending d.cursor) := by
  rw [relabel, SymbolTable.foldl_moveTo, SymbolTable.find?_movedIn]

section Lays

variable {d d' : DataSegment} {n : Nat} {bytes : List UInt8}

theorem Lays.top (h : Lays d n bytes d') : (d.align n).top ≤ d'.top := by
  rw [DataSegment.top, DataSegment.top, h.base, h.bytes, List.length_append]
  show d.base.toNat + _ ≤ _
  omega

/-- Where the bytes of a directive are, in a segment that has not come to the top. -/
theorem Lays.padded (h : Lays d n bytes d') (hd : d.top < addressSpace) :
    d'.bytes = d.bytes ++ List.replicate ((n - d.top % n) % n) 0 ++ bytes := by
  rw [h.bytes, align, append, cursor_toNat_of_lt hd]

/-- Labels that wait at the cursor are at the first byte of the directive they wait for. -/
theorem Lays.find? (h : Lays d n bytes d') (hdvd : n ∣ addressSpace) (hd : d.top < addressSpace)
    (hd' : d'.top < addressSpace) {name : Text} (hname : name ∈ d.pending) {s : Symbol}
    (hs : d.symbols.find? name = some s) (haddress : s.address = d.cursor) :
    ∃ s', d'.symbols.find? name = some s' ∧ s'.address.toNat = d.top + (n - d.top % n) % n := by
  rcases h.symbols with he | ⟨rfl, he⟩
  · have hsname : s.name ∈ (d.align n).pending := (SymbolTable.find?_eq_some hs).2 ▸ hname
    refine ⟨{ s with address := (d.align n).cursor }, ?_, ?_⟩
    · rw [he, relabel_find?]
      show (d.symbols.find? name).map _ = _
      rw [hs, Option.map_some, SymbolTable.movedIn, if_pos hsname]
    · show (d.align n).cursor.toNat = _
      rw [cursor_toNat_of_lt (Nat.lt_of_le_of_lt h.top hd'), align_top d hdvd]
      rfl
  · refine ⟨s, by rw [he, hs], ?_⟩
    rw [haddress, cursor_toNat_of_lt hd, Nat.mod_one, Nat.add_zero]

end Lays

/-! ## Where labels stand -/

/-- A label that waits stands at the cursor, and the labels that `known` does not have stand inside the segment. -/
structure Settled (known : SymbolTable) (d : DataSegment) : Prop where
  waiting : ∀ name ∈ d.pending, ∃ s, d.symbols.find? name = some s ∧ s.address = d.cursor
  inside : ∀ s ∈ d.symbols.entries, known.find? s.name = none →
    d.base.toNat ≤ s.address.toNat ∧ s.address.toNat ≤ d.top

section Settled

variable {known : SymbolTable} {d d' : DataSegment} {l : Line}

theorem start_settled (base : Word) : Settled known (start base known) where
  waiting := fun _ h => nomatch h
  inside := by
    intro s hs hnone
    exact absurd (beq_self_eq_true s.name) (List.find?_eq_none.mp hnone s hs)

theorem labelled_settled (hd : Settled known d) (htop : d.top < addressSpace) (h : d.labelled l = .ok d') :
    Settled known d' := by
  obtain ⟨hbase, _, _⟩ := labelled_ok h
  obtain ⟨hcursor, htop'⟩ := labelled_cursor h
  rcases (labelled_cases h).2 with ⟨hsymbols, hpending⟩ | ⟨hnew, hpending, hsymbols⟩
  · constructor
    · rw [hpending, hsymbols, hcursor]
      exact hd.waiting
    · rw [hsymbols, hbase, htop']
      exact hd.inside
  · constructor
    · intro name hname
      rw [hpending] at hname
      rw [hsymbols, hcursor]
      rcases List.mem_append.mp hname with hname | hname
      · obtain ⟨s, hs, ha⟩ := hd.waiting name hname
        exact ⟨s, SymbolTable.find?_append_of_some hs _, ha⟩
      · rw [List.mem_singleton.mp hname]
        exact ⟨_, SymbolTable.find?_concat_self (s := ⟨l.statement.label, d.cursor, .data, l.number⟩) hnew, rfl⟩
    · intro s hs hknown
      rw [hsymbols] at hs
      rw [hbase, htop']
      rcases List.mem_append.mp hs with hs | hs
      · exact hd.inside s hs hknown
      · rw [List.mem_singleton.mp hs, cursor_toNat_of_lt htop]
        exact ⟨Nat.le_add_right _ _, Nat.le_refl _⟩

theorem lays_settled {n : Nat} {bytes : List UInt8} (hd : Settled known d) (h : Lays d n bytes d')
    (htop : d'.top < addressSpace) : Settled known { d' with pending := [] } where
  waiting := fun _ h => nomatch h
  inside := by
    have hle : d.top ≤ (d.align n).top := by
      rw [align, append_top]
      exact Nat.le_add_right _ _
    have hkept : ∀ s ∈ d.symbols.entries, known.find? s.name = none →
        d'.base.toNat ≤ s.address.toNat ∧ s.address.toNat ≤ d'.top := by
      intro s hs hknown
      obtain ⟨hlow, hhigh⟩ := hd.inside s hs hknown
      rw [h.base]
      exact ⟨hlow, Nat.le_trans hhigh (Nat.le_trans hle h.top)⟩
    intro s hs hknown
    show d'.base.toNat ≤ _ ∧ _ ≤ d'.top
    rcases h.symbols with he | ⟨_, he⟩
    · have hs' : s ∈ (d.align n).relabel.symbols.entries := he ▸ hs
      rw [relabel, SymbolTable.foldl_moveTo] at hs'
      obtain ⟨s₀, hs₀, rfl⟩ := List.mem_map.mp hs'
      rw [SymbolTable.movedIn_name] at hknown
      by_cases hp : s₀.name ∈ (d.align n).pending
      · rw [SymbolTable.movedIn, if_pos hp]
        show _ ≤ (d.align n).cursor.toNat ∧ (d.align n).cursor.toNat ≤ _
        rw [cursor_toNat_of_lt (Nat.lt_of_le_of_lt h.top htop)]
        refine ⟨?_, h.top⟩
        rw [h.base]
        exact Nat.le_add_right _ _
      · rw [SymbolTable.movedIn_of_not_mem hp]
        exact hkept s₀ hs₀ hknown
    · exact hkept s (he ▸ hs) hknown

/-- A line that is taken leaves the labels settled. -/
theorem line_settled (hd : Settled known d) (h : d.line l = (d', none)) (htop : d'.top < addressSpace) :
    Settled known d' := by
  have hd_top : d.top < addressSpace := Nat.lt_of_le_of_lt (line_top_le h) htop
  obtain ⟨d₁, h₁, ⟨_, rfl⟩ | ⟨name, d₂, _, h₂, rfl⟩⟩ := line_ok h
  · exact labelled_settled hd hd_top h₁
  · obtain ⟨n, bytes, _, hlays⟩ := directive_lays h₂
    exact lays_settled (labelled_settled hd hd_top h₁) hlays htop

theorem feed_settled {ls : List Line} (hd : Settled known d) (h : feed d ls = some d') (htop : d'.top < addressSpace) :
    Settled known d' := by
  induction ls generalizing d with
  | nil => cases h; exact hd
  | cons l ls ih =>
    simp only [feed] at h
    split at h
    · rename_i d₁ hl
      exact ih (line_settled hd hl (Nat.lt_of_le_of_lt (feed_top_le h) htop)) h
    · cases h

/-- The labels that wait for a directive end up at the first byte it stores, behind all padding. -/
theorem line_places (hd : Settled known d) (h : d.line l = (d', none)) (htop : d'.top < addressSpace) {name : Text}
    (hname : l.directive? = some name) :
    ∃ n padding stored, LaysDown name (argumentOf l name) n stored ∧
      d'.bytes = d.bytes ++ List.replicate padding 0 ++ stored ∧ padding < n ∧ (d.top + padding) % n = 0 ∧
      ∀ label ∈ d.waitingFor l, ∃ s, d'.symbols.find? label = some s ∧ s.address.toNat = d.top + padding := by
  have hd_top : d.top < addressSpace := Nat.lt_of_le_of_lt (line_top_le h) htop
  obtain ⟨d₁, h₁, ⟨hnone, _⟩ | ⟨name', d₂, hname', h₂, rfl⟩⟩ := line_ok h
  · rw [hnone] at hname
    cases hname
  · rw [hname', Option.some.injEq] at hname
    subst hname
    obtain ⟨n, stored, hdown, hlays⟩ := directive_lays h₂
    obtain ⟨_, htop₁⟩ := labelled_cursor h₁
    have hbytes₁ := (labelled_ok h₁).2.1
    have hsettled := labelled_settled hd hd_top h₁
    rw [← htop₁] at hd_top ⊢
    refine ⟨n, (n - d₁.top % n) % n, stored, hdown, ?_, (padding_spec hdown.pos _).1, (padding_spec hdown.pos _).2, ?_⟩
    · rw [← hbytes₁]
      exact hlays.padded hd_top
    · intro label hlabel
      rw [← (labelled_cases h₁).1] at hlabel
      obtain ⟨s, hs, haddress⟩ := hsettled.waiting label hlabel
      exact hlays.find? hdown.dvd hd_top htop hlabel hs haddress

/-! ## Labels that wait no longer -/

theorem line_keeps (h : d.line l = (d', none)) {name : Text} {s : Symbol} (hs : d.symbols.find? name = some s)
    (hname : name ∉ d.pending) : d'.symbols.find? name = some s ∧ name ∉ d'.pending := by
  obtain ⟨d₁, h₁, hd'⟩ := line_ok h
  have keep₁ : d₁.symbols.find? name = some s ∧ name ∉ d₁.pending := by
    rcases (labelled_cases h₁).2 with ⟨hsymbols, hpending⟩ | ⟨hnew, hpending, hsymbols⟩
    · rw [hsymbols, hpending]
      exact ⟨hs, hname⟩
    · rw [hsymbols, hpending]
      refine ⟨SymbolTable.find?_append_of_some hs _, fun hmem => ?_⟩
      rcases List.mem_append.mp hmem with hmem | hmem
      · exact hname hmem
      · -- a name that is in the table is not defined again
        rw [← List.mem_singleton.mp hmem, hs] at hnew
        cases hnew
  obtain ⟨hs₁, hname₁⟩ := keep₁
  rcases hd' with ⟨_, rfl⟩ | ⟨directive, d₂, _, h₂, rfl⟩
  · exact ⟨hs₁, hname₁⟩
  · refine ⟨?_, List.not_mem_nil⟩
    obtain ⟨n, bytes, _, hlays⟩ := directive_lays h₂
    show d₂.symbols.find? name = some s
    rcases hlays.symbols with he | ⟨_, he⟩
    · have hsname : s.name ∉ (d₁.align n).pending := (SymbolTable.find?_eq_some hs₁).2.symm ▸ hname₁
      rw [he, relabel_find?]
      show (d₁.symbols.find? name).map _ = _
      rw [hs₁, Option.map_some, SymbolTable.movedIn_of_not_mem hsname]
    · rw [he, hs₁]

theorem feed_keeps {ls : List Line} (h : feed d ls = some d') {name : Text} {s : Symbol}
    (hs : d.symbols.find? name = some s) (hname : name ∉ d.pending) : d'.symbols.find? name = some s := by
  induction ls generalizing d with
  | nil => cases h; exact hs
  | cons l ls ih =>
    simp only [feed] at h
    split at h
    · rename_i d₁ hl
      obtain ⟨hs₁, hname₁⟩ := line_keeps hl hs hname
      exact ih h hs₁ hname₁
    · cases h

end Settled

/-- Lines that are all taken are taken up to any place, and from there on. -/
theorem feed_append {d d' : DataSegment} {before after : List Line} (h : feed d (before ++ after) = some d') :
    ∃ e, feed d before = some e ∧ feed e after = some d' := by
  induction before generalizing d with
  | nil => exact ⟨d, rfl, h⟩
  | cons l before ih =>
    simp only [List.cons_append, feed] at h ⊢
    split at h
    · exact ih h
    · cases h

/-- In lines that are all taken and end below the top, each state has its waiting labels at the cursor and all labels
inside the segment, leaves those that do not wait where they are up to the end, and grows with the next line. A
directive there stores its bytes behind less zeros than its alignment, and the labels that wait for it name the first
of them. -/
theorem labels_name_first_byte {base : Word} {symbols : SymbolTable} {ls : List Line} {d : DataSegment}
    (h : (start base symbols).feed ls = some d) (htop : base.toNat + d.bytes.length < addressSpace)
    (before after : List Line) (hls : ls = before ++ after) :
    ∃ e, (start base symbols).feed before = some e ∧
      (∀ name ∈ e.pending, ∃ s, e.symbols.find? name = some s ∧ s.address = e.cursor) ∧
      (∀ s ∈ e.symbols.entries, symbols.find? s.name = none →
        base.toNat ≤ s.address.toNat ∧ s.address.toNat ≤ base.toNat + e.bytes.length) ∧
      (∀ name s, e.symbols.find? name = some s → name ∉ e.pending → d.symbols.find? name = some s) ∧
      ∀ l rest, after = l :: rest → ∃ e', e.line l = (e', none) ∧ e.bytes <+: e'.bytes ∧
        ∀ name, l.directive? = some name → ∃ n padding stored,
          LaysDown name (argumentOf l name) n stored ∧
          e'.bytes = e.bytes ++ List.replicate padding 0 ++ stored ∧ padding < n ∧
          (base.toNat + e.bytes.length + padding) % n = 0 ∧
          ∀ label ∈ e.waitingFor l, ∃ s, e'.symbols.find? label = some s ∧
            s.address.toNat = base.toNat + e.bytes.length + padding := by
  subst hls
  obtain ⟨e, hbefore, hafter⟩ := feed_append h
  have hbase : e.base = base := (feed_bytes hbefore).1
  have hdtop : d.top < addressSpace := by
    rw [top, (feed_bytes h).1]
    exact htop
  have hetop : e.top < addressSpace := Nat.lt_of_le_of_lt (feed_top_le hafter) hdtop
  have hsettled : Settled symbols e := feed_settled (start_settled base) hbefore hetop
  have htop_eq : e.top = base.toNat + e.bytes.length := by rw [top, hbase]
  refine ⟨e, hbefore, hsettled.waiting, ?_, fun name s hs hname => feed_keeps hafter hs hname, ?_⟩
  · intro s hs hknown
    rw [← htop_eq, ← hbase]
    exact hsettled.inside s hs hknown
  · rintro l rest rfl
    simp only [feed] at hafter
    split at hafter
    · rename_i e' hl
      refine ⟨e', hl, (line_bytes hl).2, fun name hname => ?_⟩
      have hetop' : e'.top < addressSpace := Nat.lt_of_le_of_lt (feed_top_le hafter) hdtop
      rw [← htop_eq]
      exact line_places hsettled hl hetop' hname
    · cases hafter

/-- Two labels, with a blank line between them, before a word that has to be moved up. -/
def stackedLabels : List Line := Line.ofSource "x: .byte 7\ny:\n\nz: .word 5\n.hword 1"

/-- The line of the word. -/
def stackedWord : Line := Line.ofRaw 4 "z: .word 5"

def stackedNames : List Text := ["y", "z"]

theorem stacked_word :
    stackedLabels = stackedLabels.take 3 ++ stackedWord :: stackedLabels.drop 4 ∧
      stackedWord.directive? = some (".word" : Text) ∧ argumentOf stackedWord ".word" = "5" := by
  decide +kernel

theorem stacked_taken :
    (((start 0x101 .empty).feed stackedLabels).map fun d => decide (0x101 + d.bytes.length < addressSpace)) = some true ∧
      (((start 0x101 .empty).feed (stackedLabels.take 3)).map fun e => (e.bytes.length, e.waitingFor stackedWord)) =
        some (1, stackedNames) := by
  decide +kernel

/-- Both labels name the word itself, at a multiple of its alignment behind byte 0x101. -/
theorem labels_name_first_byte_stacked :
    ∃ d e e', (start 0x101 .empty).feed stackedLabels = some d ∧
      (0x101 : Word).toNat + d.bytes.length < addressSpace ∧
      (start 0x101 .empty).feed (stackedLabels.take 3) = some e ∧ e.line stackedWord = (e', none) ∧
      ∃ n padding stored, LaysDown ".word" "5" n stored ∧
        e'.bytes = e.bytes ++ List.replicate padding 0 ++ stored ∧ padding < n ∧ (0x102 + padding) % n = 0 ∧
        ∀ label ∈ stackedNames, ∃ s, e'.symbols.find? label = some s ∧ s.address.toNat = 0x102 + padding := by
  obtain ⟨hcut, hname, hargument⟩ := stacked_word
  obtain ⟨d, hd, hlen⟩ := Option.map_eq_some_iff.mp stacked_taken.1
  have htop : (0x101 : Word).toNat + d.bytes.length < addressSpace := of_decide_eq_true hlen
  obtain ⟨e, he, _, _, _, next⟩ := labels_name_first_byte hd htop _ _ hcut
  obtain ⟨e', hline, _, places⟩ := next _ _ rfl
  have hstate := stacked_taken.2
  rw [he, Option.map_some, Option.some.injEq, Prod.mk.injEq] at hstate
  have key := places _ hname
  rw [hargument, hstate.1, hstate.2] at key
  exact ⟨d, e, e', hd, htop, he, hline, key⟩

end DataSegment

end Rv32Tools.Assembly
