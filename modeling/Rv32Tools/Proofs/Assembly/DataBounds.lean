import Rv32Tools.Proofs.Assembly.Emitted

/-
  Rv32Tools.Proofs.Assembly.DataBounds — when a data segment runs past the address space.

  A write is checked against the cursor, which is itself an address: at the end of the address space it is 0 again. So
  the check stops a block of bytes that does not fit below the top, and it stops nothing once the segment has come to
  the top exactly. Values are written byte by byte, and no single byte is ever stopped.

  `Crosses d l` says in terms of the source when a line leads past the top unnoticed:
  - a list of values that has no room left, from the next multiple of their size on,
  - any other directive that stores something, once the segment is full.
  Lines that are all taken run past the address space exactly if one of them does that (`past_top_iff`). The one
  below is taken as a whole, though it ends four bytes behind the top (`word_list_past_top`).
-/

namespace Rv32Tools.Assembly

open Source (Line)

/-- The next multiple of `n` from `a` on. -/
def roundUp (a n : Nat) : Nat := a + (n - a % n) % n

/-- Rounding up to a divisor of the size of the address space does not lead past its end. -/
theorem roundUp_le {a n : Nat} (hn : n ∣ addressSpace) (ha : a ≤ addressSpace) : roundUp a n ≤ addressSpace := by
  obtain ⟨q, hq⟩ := hn
  have hpos : 0 < n := Nat.pos_of_ne_zero fun h0 => by
    rw [h0, Nat.zero_mul] at hq
    exact absurd hq (by decide)
  unfold roundUp
  by_cases hm : a % n = 0
  · rw [hm, Nat.sub_zero, Nat.mod_self]
    exact ha
  · have hlt := Nat.mod_lt a hpos
    have hdiv := Nat.div_add_mod a n
    rw [Nat.mod_eq_of_lt (show n - a % n < n by omega)]
    have hq' : a / n < q := by
      rw [Nat.div_lt_iff_lt_mul hpos, Nat.mul_comm, ← hq]
      refine Nat.lt_of_le_of_ne ha fun e => hm ?_
      rw [e, hq, Nat.mul_mod_right]
    have hle : n * (a / n + 1) ≤ n * q := Nat.mul_le_mul_left n hq'
    rw [hq]
    rw [Nat.mul_add, Nat.mul_one] at hle
    omega

namespace DataSegment

/-- The end of the segment, as a number that does not wrap around. -/
def top (d : DataSegment) : Nat := d.base.toNat + d.bytes.length

theorem cursor_toNat (d : DataSegment) : d.cursor.toNat = d.top % addressSpace := by
  unfold cursor top addressSpace
  rw [BitVec.toNat_add, BitVec.toNat_ofNat]
  omega

theorem append_top (d : DataSegment) (bs : List UInt8) : (d.append bs).top = d.top + bs.length := by
  simp only [append, top, List.length_append]
  omega

theorem relabel_top (d : DataSegment) : d.relabel.top = d.top := rfl

theorem align_top (d : DataSegment) {n : Nat} (hn : n ∣ addressSpace) : (d.align n).top = roundUp d.top n := by
  rw [align, append_top, List.length_replicate, cursor_toNat, Nat.mod_mod_of_dvd _ hn, roundUp]

/-- What the check lets through below the top ends below the top; at the top it lets everything through. -/
theorem fits_top {d : DataSegment} {n : Nat} (hd : d.top ≤ addressSpace) (hf : d.fits n = true) :
    addressSpace < d.top + n ↔ d.top = addressSpace ∧ 0 < n := by
  have hc := d.cursor_toNat
  have hf' : d.cursor.toNat + n ≤ addressSpace := by simpa [fits] using hf
  rcases Nat.lt_or_eq_of_le hd with hlt | heq
  · rw [Nat.mod_eq_of_lt hlt] at hc
    omega
  · omega

theorem itemBytes_length {size : Nat} {tokens : List Text} {bytes : List UInt8}
    (h : itemBytes size tokens = (bytes, none)) : bytes.length = size * tokens.length := by
  induction tokens generalizing bytes with
  | nil => cases h; rfl
  | cons token tokens ih =>
    simp only [itemBytes] at h
    split at h
    · cases h
    · rename_i w _
      rw [Prod.mk.injEq] at h
      obtain ⟨rfl, hnone⟩ := h
      rw [List.length_append, ih (Prod.ext rfl hnone), littleEndian, List.length_map, List.length_range,
        List.length_cons, Nat.mul_succ, Nat.add_comm]

/-! ## One directive -/

/-- The size of the values that a directive lists. -/
def itemSize? (name : Text) : Option Nat :=
  if name = ".byte" then some 1
  else if name = ".hword" then some 2
  else if name = ".word" then some 4
  else none

/-- The directive stores at least one byte, and not as a value of a list. -/
def Stores (name argument : Text) : Prop :=
  name = ".string" ∨ name = ".ascii" ∨ name = ".zero" ∧ ∃ n, Text.prefixed 0xFFFFFFFF argument = .ok n ∧ 0 < n

theorem Stores.mem {name argument : Text} (h : Stores name argument) :
    name ∈ ([".string", ".ascii", ".zero"] : List Text) := by
  rcases h with rfl | rfl | ⟨rfl, _⟩ <;> decide

/-- The directive leads past the top unnoticed, in a segment that ends at `top`. -/
def DirectiveCrosses (top : Nat) (name argument : Text) : Prop :=
  (∃ size, itemSize? name = some size ∧
    addressSpace < roundUp top size + size * (Source.splitOperands argument).length) ∨
  (Stores name argument ∧ top = addressSpace)

theorem p2align_top {d d' : DataSegment} {argument : Text} (h : d.p2align argument = (d', none))
    (hd : d.top ≤ addressSpace) : d'.top ≤ addressSpace := by
  unfold p2align at h
  split at h
  · cases h
  · split at h
    · cases h
    · split at h
      · rename_i n _ hn
        cases h
        have hdvd : 1 <<< n ∣ addressSpace := by
          rw [Nat.one_shiftLeft]
          exact Nat.pow_dvd_pow 2 (show n ≤ 32 from Nat.le_trans hn (by decide))
        rw [relabel_top, align_top d hdvd]
        exact roundUp_le hdvd hd
      · cases h

theorem zeros_top {d d' : DataSegment} {argument : Text} (h : d.zeros argument = (d', none)) :
    ∃ n, Text.prefixed 0xFFFFFFFF argument = .ok n ∧ d.fits n = true ∧ d'.top = d.top + n := by
  unfold zeros at h
  split at h
  · cases h
  · rename_i n hn
    split at h
    · cases h
    · split at h
      · rename_i hf
        cases h
        exact ⟨n, hn, hf, by rw [append_top, List.length_replicate]⟩
      · cases h

theorem string_top {d d' : DataSegment} {argument : Text} (h : d.string argument = (d', none)) :
    ∃ n, 0 < n ∧ d.fits n = true ∧ d'.top = d.top + n := by
  unfold string at h
  split at h
  · cases h
  · split at h
    · cases h
    · rename_i s _
      split at h
      · rename_i hf
        cases h
        exact ⟨s.length + 1, Nat.succ_pos _, hf, by rw [append_top, List.length_append, List.length_singleton]⟩
      · cases h

theorem character_top {d d' : DataSegment} {argument : Text} (h : d.character argument = (d', none)) :
    d'.top = d.top + 1 := by
  unfold character at h
  split at h
  · cases h
  · split at h
    · cases h
    · cases h
      rw [append_top, List.length_singleton]

theorem values_top {d d' : DataSegment} {size : Nat} {argument : Text} (h : d.values size argument = (d', none))
    (hs : size ∣ addressSpace) : d'.top = roundUp d.top size + size * (Source.splitOperands argument).length := by
  unfold values at h
  split at h
  · cases h
  · rw [Prod.mk.injEq] at h
    obtain ⟨rfl, hnone⟩ := h
    rw [append_top, relabel_top, align_top d hs, itemBytes_length (Prod.ext rfl hnone)]

theorem values_past {d d' : DataSegment} {name argument : Text} {size : Nat} (hsize : itemSize? name = some size)
    (hdvd : size ∣ addressSpace) (hst : ¬ Stores name argument) (h : d.values size argument = (d', none)) :
    addressSpace < d'.top ↔ DirectiveCrosses d.top name argument := by
  rw [values_top h hdvd]
  constructor
  · exact fun hlt => Or.inl ⟨size, hsize, hlt⟩
  · rintro (⟨size', hsize', hlt⟩ | ⟨hs, _⟩)
    · rw [hsize, Option.some.injEq] at hsize'
      rwa [hsize']
    · exact absurd hs hst

theorem stores_past {d d' : DataSegment} {name argument : Text} {n : Nat} (hsize : itemSize? name = none)
    (hst : Stores name argument ↔ 0 < n) (hd : d.top ≤ addressSpace) (hf : d.fits n = true)
    (h : d'.top = d.top + n) : addressSpace < d'.top ↔ DirectiveCrosses d.top name argument := by
  rw [h, fits_top hd hf]
  constructor
  · exact fun ⟨hfull, hn⟩ => Or.inr ⟨hst.mpr hn, hfull⟩
  · rintro (⟨size, hs, _⟩ | ⟨hs, hfull⟩)
    · rw [hsize] at hs
      cases hs
    · exact ⟨hfull, hst.mp hs⟩

theorem fits_one (d : DataSegment) : d.fits 1 = true := decide_eq_true d.cursor.isLt

/-- A directive that is taken leads past the top just when it crosses it unnoticed. -/
theorem directive_past {d d' : DataSegment} {name argument : Text} (h : d.directive name argument = (d', none))
    (hd : d.top ≤ addressSpace) : addressSpace < d'.top ↔ DirectiveCrosses d.top name argument := by
  unfold directive at h
  split at h
  · rename_i hname
    obtain rfl := eq_of_beq hname
    have hle := p2align_top h hd
    refine ⟨fun hlt => absurd hle (Nat.not_le_of_lt hlt), ?_⟩
    rintro (⟨size, hs, _⟩ | ⟨hs, _⟩)
    · exact absurd ((by decide : itemSize? ".p2align" = none) ▸ hs) (by simp)
    · exact absurd hs.mem (by decide)
  split at h
  · rename_i hname
    obtain rfl := eq_of_beq hname
    obtain ⟨n, hn, hf, htop⟩ := zeros_top h
    refine stores_past (by decide) ?_ hd hf htop
    constructor
    · rintro (hs | hs | ⟨_, n', hn', hpos⟩)
      · exact absurd hs (by decide)
      · exact absurd hs (by decide)
      · rw [hn] at hn'
        cases hn'
        exact hpos
    · exact fun hpos => Or.inr (Or.inr ⟨rfl, n, hn, hpos⟩)
  split at h
  · rename_i hname
    obtain rfl := eq_of_beq hname
    obtain ⟨n, hpos, hf, htop⟩ := string_top h
    exact stores_past (by decide) ⟨fun _ => hpos, fun _ => Or.inl rfl⟩ hd hf htop
  split at h
  · rename_i hname
    obtain rfl := eq_of_beq hname
    exact stores_past (by decide) ⟨fun _ => Nat.one_pos, fun _ => Or.inr (Or.inl rfl)⟩ hd d.fits_one (character_top h)
  split at h
  · rename_i hname
    obtain rfl := eq_of_beq hname
    exact values_past (by decide) (by decide) (fun hs => absurd hs.mem (by decide)) h
  split at h
  · rename_i hname
    obtain rfl := eq_of_beq hname
    exact values_past (by decide) (by decide) (fun hs => absurd hs.mem (by decide)) h
  split at h
  · rename_i hname
    obtain rfl := eq_of_beq hname
    exact values_past (by decide) (by decide) (fun hs => absurd hs.mem (by decide)) h
  · cases h

/-! ## Lines -/

/-- The line leads past the top unnoticed. -/
def Crosses (d : DataSegment) (l : Line) : Prop :=
  ∃ name, Source.directive? l.statement.body = some name ∧
    DirectiveCrosses d.top name (Text.trim (l.statement.body.drop name.length))

theorem line_past {d d' : DataSegment} {l : Line} (h : d.line l = (d', none)) (hd : d.top ≤ addressSpace) :
    addressSpace < d'.top ↔ Crosses d l := by
  obtain ⟨d₁, h₁, hd'⟩ := line_ok h
  obtain ⟨hbase, hbytes, _⟩ := labelled_ok h₁
  have htop : d₁.top = d.top := by rw [top, top, hbase, hbytes]
  unfold Crosses
  rw [← htop] at hd ⊢
  rcases hd' with ⟨hnone, rfl⟩ | ⟨name, d₂, hname, h₂, rfl⟩
  · refine ⟨fun hlt => absurd hd (Nat.not_le_of_lt hlt), ?_⟩
    rintro ⟨name, hname, _⟩
    cases hnone.symm.trans hname
  · have key := directive_past h₂ hd
    constructor
    · exact fun hlt => ⟨name, hname, key.mp hlt⟩
    · rintro ⟨name', hname', hc⟩
      cases hname.symm.trans hname'
      exact key.mpr hc

/-- The segment after lines that are all taken. -/
def feed : DataSegment → List Line → Option DataSegment
  | d, [] => some d
  | d, l :: r =>
    match d.line l with
    | (d', none) => feed d' r
    | (_, some _) => none

theorem feed_bytes {d d' : DataSegment} {ls : List Line} (h : feed d ls = some d') :
    d'.base = d.base ∧ d.bytes <+: d'.bytes := by
  induction ls generalizing d with
  | nil => cases h; exact ⟨rfl, List.prefix_refl _⟩
  | cons l ls ih =>
    simp only [feed] at h
    split at h
    · rename_i d₁ hl
      obtain ⟨hbase, hbytes⟩ := line_bytes hl
      obtain ⟨hbase', hbytes'⟩ := ih h
      exact ⟨hbase'.trans hbase, hbytes.trans hbytes'⟩
    · cases h

theorem feed_top_le {d d' : DataSegment} {ls : List Line} (h : feed d ls = some d') : d.top ≤ d'.top := by
  obtain ⟨hbase, hbytes⟩ := feed_bytes h
  rw [top, top, hbase]
  exact Nat.add_le_add_left hbytes.length_le _

/-- Lines that are all taken run past the top just when one of them crosses it. -/
theorem feed_past {d d' : DataSegment} {ls : List Line} (h : feed d ls = some d') (hd : d.top ≤ addressSpace) :
    addressSpace < d'.top ↔
      ∃ before l after e, ls = before ++ l :: after ∧ feed d before = some e ∧ Crosses e l := by
  induction ls generalizing d with
  | nil =>
    cases h
    refine ⟨fun hlt => absurd hd (Nat.not_le_of_lt hlt), ?_⟩
    rintro ⟨before, l, after, e, hls, _⟩
    simp at hls
  | cons l ls ih =>
    simp only [feed] at h
    split at h
    · rename_i d₁ hl
      by_cases hc : Crosses d l
      · have hpast := (line_past hl hd).mpr hc
        exact ⟨fun _ => ⟨[], l, ls, d, rfl, rfl, hc⟩, fun _ => Nat.lt_of_lt_of_le hpast (feed_top_le h)⟩
      · have hd₁ : d₁.top ≤ addressSpace := Nat.le_of_not_lt (mt (line_past hl hd).mp hc)
        rw [ih h hd₁]
        constructor
        · rintro ⟨before, l', after, e, rfl, hfeed, hc'⟩
          refine ⟨l :: before, l', after, e, rfl, ?_, hc'⟩
          simp only [feed, hl, hfeed]
        · rintro ⟨before, l', after, e, hls, hfeed, hc'⟩
          cases before with
          | nil =>
            cases hls
            cases hfeed
            exact absurd hc' hc
          | cons l₀ before =>
            cases hls
            simp only [feed, hl] at hfeed
            exact ⟨before, l', after, e, rfl, hfeed, hc'⟩
    · cases h

theorem start_top_le (base : Word) (symbols : SymbolTable) : (start base symbols).top ≤ addressSpace :=
  Nat.le_of_lt base.isLt

end DataSegment

theorem feed_of_buildData {d d' : DataSegment} {ls : List Line} (h : buildData d ls = .ok d') :
    d.feed ls = some d' := by
  induction ls generalizing d with
  | nil => cases h; rfl
  | cons l ls ih =>
    simp only [buildData] at h
    split at h
    · cases h
    · rename_i hl
      simp only [DataSegment.feed, hl]
      exact ih h
    · cases h
    · cases h

theorem feed_start_past {base : Word} {symbols : SymbolTable} {ls : List Line} {d : DataSegment}
    (h : (DataSegment.start base symbols).feed ls = some d) :
    addressSpace < base.toNat + d.bytes.length ↔ ∃ before l after e, ls = before ++ l :: after ∧
      (DataSegment.start base symbols).feed before = some e ∧ e.Crosses l := by
  have hbase : d.base = base := (DataSegment.feed_bytes h).1
  have key := DataSegment.feed_past h (DataSegment.start_top_le base symbols)
  rwa [DataSegment.top, hbase] at key

/-- A data segment runs past the address space just when one of its lines crosses the end unnoticed: as lines that are
taken one by one, and in a run. -/
theorem past_top_iff (base : Word) (symbols : SymbolTable) (ls : List Line) (o : Options) (source : Text) :
    (∀ d, (DataSegment.start base symbols).feed ls = some d →
      (addressSpace < base.toNat + d.bytes.length ↔ ∃ before l after e, ls = before ++ l :: after ∧
        (DataSegment.start base symbols).feed before = some e ∧ e.Crosses l)) ∧
    ∀ r region, (assemble o source).outcome = .ok r → r.sections.data = some region →
      ∃ d, buildData (.start region.base .empty) (region.lines (Line.ofSource source)) = .ok d ∧
        .dataLaidOut d.bytes.length ∈ (assemble o source).journal ∧
        (addressSpace < region.base.toNat + d.bytes.length ↔
          ∃ before l after e, region.lines (Line.ofSource source) = before ++ l :: after ∧
            (DataSegment.start region.base .empty).feed before = some e ∧ e.Crosses l) := by
  refine ⟨fun d h => feed_start_past h, fun r region hr hregion => ?_⟩
  rw [assemble_eq] at hr
  cases hs : Stages.ofSource source with
  | error halt => rw [hs] at hr; cases hr
  | ok s =>
    rw [hs] at hr
    cases hr
    obtain ⟨hsections, hdata, _⟩ := Stages.ofSource_ok hs
    obtain ⟨d, hsome, hd⟩ := buildData_of_dataStage hdata hregion
    rw [hsome] at hdata
    exact ⟨d, hd, dataLaidOut_mem hsections hregion hdata, feed_start_past (feed_of_buildData hd)⟩

/-- Two words, one of them behind the last address. -/
def overrunSource : Text := ".section .data\n.org 0xFFFFFFFC\n.word 1, 2\n.section .text\n.org 0x0\nnop"

theorem overrun_sections :
    ((assemble {} overrunSource).outcome.toOption.map fun r => (r.failed, r.sections.data)) =
      some (0, some ⟨0xFFFFFFFC, 2, 3⟩) := by
  decide +kernel

theorem overrun_length :
    ((DataSegment.start 0xFFFFFFFC .empty).feed
      (Region.lines ⟨0xFFFFFFFC, 2, 3⟩ (Line.ofSource overrunSource))).map (·.bytes.length) = some 8 := by
  decide +kernel

/-- The one line of that data segment, from the base it has there: it is taken, and it crosses. -/
theorem past_top_iff_overrun :
    ∃ r d, (assemble {} overrunSource).outcome = .ok r ∧ r.sections.data = some ⟨0xFFFFFFFC, 2, 3⟩ ∧
      (DataSegment.start 0xFFFFFFFC .empty).feed (Region.lines ⟨0xFFFFFFFC, 2, 3⟩ (Line.ofSource overrunSource)) = some d ∧
      addressSpace < (0xFFFFFFFC : Word).toNat + d.bytes.length ∧
      ∃ before l after e, Region.lines ⟨0xFFFFFFFC, 2, 3⟩ (Line.ofSource overrunSource) = before ++ l :: after ∧
        (DataSegment.start 0xFFFFFFFC .empty).feed before = some e ∧ e.Crosses l := by
  obtain ⟨r, hr, hd⟩ := Option.map_eq_some_iff.mp overrun_sections
  have hok := Source.toOption_eq_some hr
  rw [Prod.mk.injEq] at hd
  have both := past_top_iff 0xFFFFFFFC .empty (Region.lines ⟨0xFFFFFFFC, 2, 3⟩ (Line.ofSource overrunSource)) {}
    overrunSource
  obtain ⟨d, hbuild, _, _⟩ := both.2 _ _ hok hd.2
  have hfeed := feed_of_buildData hbuild
  have hpast : addressSpace < (0xFFFFFFFC : Word).toNat + d.bytes.length := by
    have hlen := overrun_length
    rw [hfeed, Option.map_some, Option.some.injEq] at hlen
    rw [hlen]
    decide
  exact ⟨r, d, hok, hd.2, hfeed, hpast, (both.1 d hfeed).mp hpast⟩

/-- A run without errors whose data segment ends four bytes behind the address space. -/
theorem word_list_past_top :
    ∃ r region d, (assemble {} overrunSource).outcome = .ok r ∧ r.failed = 0 ∧ r.sections.data = some region ∧
      (DataSegment.start region.base .empty).feed (region.lines (Line.ofSource overrunSource)) = some d ∧
      addressSpace + 4 = region.base.toNat + d.bytes.length := by
  obtain ⟨r, hr, hd⟩ := Option.map_eq_some_iff.mp overrun_sections
  rw [Prod.mk.injEq] at hd
  obtain ⟨d, hd', hlen⟩ := Option.map_eq_some_iff.mp overrun_length
  refine ⟨r, _, d, Source.toOption_eq_some hr, hd.1, hd.2, hd', ?_⟩
  rw [hlen]
  decide

end Rv32Tools.Assembly
