import Rv32Tools.Proofs.Assembly.Emitted
import Rv32Tools.Proofs.Assembly.Image
import Rv32Tools.Proofs.Assembly.Sections

/-
  Rv32Tools.Proofs.Assembly.Addresses — layout and encoding agree on every address.

  The layout gives out addresses by the names of instructions, before relocation calls are replaced; the encoder
  gives out words by what is left on the lines afterwards. In a run without errors the two come to the same
  (`addresses_agree`): `Agreement` says so of the size of the image, of the place of every instruction, of every text
  label, and of the rows of the listing.
-/

namespace Rv32Tools.Assembly

open Source (Line)
open Layout (along placedOn labelsOn extents)

/-! ## The listing -/

/-- The rows show the words from `pc` on, one each. -/
structure Listed (pc : Word) (ws : List Word) (rows : List Text) : Prop where
  length : rows.length = ws.length
  row : ∀ i w, ws[i]? = some w → ∃ rest, rows[i]? =
    some (Text.hexUpper 8 (pc + BitVec.ofNat 32 (4 * i)).toNat ++ "  " ++ Text.hexLower 8 w.toNat ++ rest)

theorem Listed.append {pc : Word} {ws ws' : List Word} {rows rows' : List Text} (h : Listed pc ws rows)
    (h' : Listed (pc + BitVec.ofNat 32 (4 * ws.length)) ws' rows') : Listed pc (ws ++ ws') (rows ++ rows') := by
  refine ⟨by rw [List.length_append, List.length_append, h.length, h'.length], fun i w hw => ?_⟩
  by_cases hi : i < ws.length
  · rw [List.getElem?_append_left hi] at hw
    rw [List.getElem?_append_left (h.length ▸ hi)]
    exact h.row i w hw
  · have hle : ws.length ≤ i := Nat.le_of_not_lt hi
    rw [List.getElem?_append_right hle] at hw
    rw [List.getElem?_append_right (h.length ▸ hle), h.length]
    obtain ⟨rest, hrow⟩ := h'.row _ w hw
    refine ⟨rest, ?_⟩
    rw [hrow, BitVec.add_assoc, ← BitVec.ofNat_add, show 4 * ws.length + 4 * (i - ws.length) = 4 * i by omega]

theorem listingRows_listed (pc : Word) (source : Text) (ws : List Word) : Listed pc ws (listingRows pc source ws) := by
  induction ws generalizing pc source with
  | nil => exact ⟨rfl, fun i w hw => by cases hw⟩
  | cons w ws ih =>
    have first : Listed pc [w] [listingRow pc w source] := by
      refine ⟨by rw [List.length_singleton, List.length_singleton], fun i w' hw => ?_⟩
      cases i with
      | zero =>
        cases hw
        refine ⟨"  " ++ Text.padRight 28 (w.render pc) ++ " " ++ source, ?_⟩
        simp [listingRow, List.append_assoc]
      | succ i => cases hw
    exact first.append (ih (pc + 4) [])

theorem Emitted.listed {pc : Nat} {ls : List Line} {as : List Attempt} (h : Emitted pc ls as) :
    Listed (BitVec.ofNat 32 pc) (as.flatMap Attempt.words) (as.flatMap Attempt.rows) := by
  induction h with
  | nil pc => exact ⟨rfl, fun i w hw => by cases hw⟩
  | pass _ _ ih => exact ih
  | @emit pc l ls a as is _ hp ho hw _ ih =>
    rw [BitVec.ofNat_add, hw, ← List.length_map (f := Instruction.toWord), ← Attempt.words_of_ok ho] at ih
    have hrows : Listed (BitVec.ofNat 32 pc) a.words a.rows := by
      rw [Attempt.rows, hp.pc]
      exact listingRows_listed _ _ _
    exact hrows.append ih

/-! ## Addresses as numbers of words -/

/-- The words that the lines numbered below `n` came to. -/
def wordsBefore (n : Nat) (as : List Attempt) : List Word :=
  (as.filter (·.placement.line.number < n)).flatMap Attempt.words

theorem Emitted.wordsBefore_length {pc : Nat} {before : List Line} {l : Line} {after : List Line} {as : List Attempt}
    (h : Emitted pc (before ++ l :: after) as)
    (hn : (before ++ l :: after).Pairwise (fun l l' => l.number < l'.number)) :
    4 * (wordsBefore l.number as).length = extents before := by
  obtain ⟨as₁, as₂, rfl, h₁, h₂⟩ := h.split
  obtain ⟨_, hafter, hbefore⟩ := List.pairwise_append.mp hn
  have low : as₁.filter (·.placement.line.number < l.number) = as₁ := by
    refine List.filter_eq_self.mpr fun a ha => ?_
    obtain ⟨l', hl', e⟩ := h₁.number ha
    rw [e]
    exact decide_eq_true (hbefore l' hl' l List.mem_cons_self)
  have high : as₂.filter (·.placement.line.number < l.number) = [] := by
    refine List.filter_eq_nil_iff.mpr fun a ha => ?_
    obtain ⟨l', hl', e⟩ := h₂.number ha
    rw [e, decide_eq_true_eq]
    rcases List.mem_cons.mp hl' with rfl | hl'
    · exact Nat.lt_irrefl _
    · exact Nat.lt_asymm ((List.pairwise_cons.mp hafter).1 l' hl')
  rw [wordsBefore, List.filter_append, low, high, List.append_nil, h₁.length]

/-- The words of an attempt stand behind the words of the attempts before it. -/
theorem words_split {as : List Attempt} {k : Nat} {a : Attempt} (hk : as[k]? = some a) :
    ∃ rest, as.flatMap Attempt.words = (as.take k).flatMap Attempt.words ++ (a.words ++ rest) := by
  obtain ⟨hlt, rfl⟩ := List.getElem?_eq_some_iff.mp hk
  refine ⟨(as.drop (k + 1)).flatMap Attempt.words, ?_⟩
  rw [← List.flatMap_cons, List.getElem_cons_drop, ← List.flatMap_append, List.take_append_drop]

/-! ## The two passes -/

/-- What layout and encoding agree on, in a run with the given stages and the image `i`. -/
structure Agreement (o : Options) (source : Text) (r : Result) (s : Stages) (i : Image) : Prop where
  base : i.base = r.sections.text.base
  symbols : r.symbols = s.layout.symbols
  /-- The layout has placed the instructions of the text segment, in order. -/
  placed : s.layout.placements.map Placement.line = (s.textLines source).filter Line.isInstruction
  /-- The image is as large as the names of the instructions say. -/
  size : 4 * i.words.length = (((s.textLines source).filter Line.isInstruction).map fun l => Mnemonic.width l.mnemonic).sum
  /-- An instruction stands at the address it was placed at, encoded for that address. -/
  placement : ∀ (k : Nat) (p : Placement), s.layout.placements[k]? = some p →
    p.pc.toNat % 4 = 0 ∧ i.base.toNat ≤ p.pc.toNat ∧
      ∃ (e : Placement) (is : List Instruction), s.expanded[k]? = some e ∧ e.line.number = p.line.number ∧ is ≠ [] ∧
        Context.line ⟨r.symbols, o.positionIndependent, p.pc⟩ e.line = .ok is ∧
        (i.words.drop ((p.pc.toNat - i.base.toNat) / 4)).take is.length = is.map Instruction.toWord
  /-- The text labels are those on the lines, each behind the words of the lines above its own. -/
  labels : ∀ symbol : Symbol, symbol ∈ r.symbols.entries ∧ symbol.segment = .text ↔
    ∃ l ∈ s.textLines source, l.statement.label ≠ [] ∧ symbol = ⟨l.statement.label,
      BitVec.ofNat 32 (i.base.toNat + 4 * (wordsBefore l.number (s.attempts o)).length), .text, l.number⟩
  fits : i.base.toNat + 4 * i.words.length ≤ addressSpace
  /-- A listing has a row for each word, with its address. -/
  listing : o.listing = true → r.listing.length = i.words.length ∧ ∀ n w, i.words[n]? = some w →
    ∃ rest, r.listing[n]? =
      some (Text.hexUpper 8 (i.base.toNat + 4 * n) ++ "  " ++ Text.hexLower 8 w.toNat ++ rest)

namespace Stages

theorem textLines_increasing (s : Stages) (source : Text) :
    (s.textLines source).Pairwise (fun l l' => l.number < l'.number) :=
  (Line.ofSource_increasing source).sublist (Region.lines_sublist _ _)

variable {s : Stages} {source : Text} {o : Options} (h : ofSource source = .ok s) (he : s.errors o = [])

include h

theorem base_aligned : s.sections.text.base.toNat % 4 = 0 := (Sections.ofLines_ok (ofSource_ok h).1).1.base

theorem end_le : s.sections.text.base.toNat + extents (s.textLines source) ≤ addressSpace := by
  have hy := laidOut h
  have hfit := hy.fits (Nat.le_of_lt s.sections.text.base.isLt)
  rwa [hy.pc] at hfit

/-- The text labels are those along the lines of the text segment. -/
theorem mem_labels (symbol : Symbol) : symbol ∈ s.layout.symbols.entries ∧ symbol.segment = .text ↔
    symbol ∈ along labelsOn s.sections.text.base.toNat (s.textLines source) := by
  have hdata := dataStage_ofData (ofSource_ok h).2.1
  rw [(laidOut h).labels, List.mem_append]
  constructor
  · rintro ⟨hs | hs, ht⟩
    · rw [(hdata symbol hs).2] at ht
      exact absurd ht (by decide)
    · exact hs
  · intro hs
    refine ⟨Or.inr hs, ?_⟩
    obtain ⟨before, l, after, _, hl⟩ := (Layout.mem_along _).mp hs
    unfold labelsOn at hl
    split at hl
    · cases hl
    · rw [List.mem_singleton.mp hl]

include he

theorem emitted : Emitted s.sections.text.base.toNat (s.textLines source) (s.attempts o) := by
  refine emitted_of_expanded (placements_expanded h) (laidOut h).names fun e hmem => ?_
  have ha : attempt o s.layout.symbols e ∈ s.attempts o := List.mem_map_of_mem hmem
  exact Attempt.outcome_ok (List.filterMap_eq_nil_iff.mp he _ ha) (no_abort h o _ ha)

theorem words_length : 4 * (s.words o).length = extents (s.textLines source) := (emitted h he).length

theorem label_address {symbol : Symbol} : symbol ∈ along labelsOn s.sections.text.base.toNat (s.textLines source) ↔
    ∃ l ∈ s.textLines source, l.statement.label ≠ [] ∧ symbol = ⟨l.statement.label,
      BitVec.ofNat 32 (s.sections.text.base.toNat + 4 * (wordsBefore l.number (s.attempts o)).length), .text,
      l.number⟩ := by
  have hem := emitted h he
  have hinc := s.textLines_increasing source
  rw [Layout.mem_along]
  constructor
  · rintro ⟨before, l, after, hls, hl⟩
    unfold labelsOn at hl
    split at hl
    · cases hl
    · rename_i hne
      rw [hls] at hem hinc
      refine ⟨l, hls ▸ List.mem_append_right _ List.mem_cons_self, by simpa using hne, ?_⟩
      rw [List.mem_singleton.mp hl, hem.wordsBefore_length hinc]
  · rintro ⟨l, hmem, hne, rfl⟩
    obtain ⟨before, after, hls⟩ := List.append_of_mem hmem
    refine ⟨before, l, after, hls, ?_⟩
    rw [hls] at hem hinc
    rw [hem.wordsBefore_length hinc, labelsOn, if_neg (by simpa using hne)]
    exact List.mem_singleton.mpr rfl

/-- An instruction was placed behind the words of the ones before it. -/
theorem placement_pc {k : Nat} {p : Placement} (hk : s.layout.placements[k]? = some p) :
    p.pc.toNat = s.sections.text.base.toNat + 4 * (((s.attempts o).take k).flatMap Attempt.words).length := by
  have hplaced := (laidOut h).placements
  rw [List.nil_append] at hplaced
  rw [hplaced] at hk
  obtain ⟨a, is, ha, _, ho, hne, hpc⟩ := (emitted h he).placed hk
  obtain ⟨rest, hsplit⟩ := words_split ha
  have hpos : 0 < a.words.length := by
    rw [Attempt.words_of_ok ho, List.length_map]
    exact List.length_pos_iff.mpr hne
  have htotal := words_length h he
  have hend := end_le h
  rw [Stages.words, hsplit, List.length_append, List.length_append] at htotal
  -- the address lies below the end of the segment, so it is not cut off
  rw [hpc, BitVec.toNat_ofNat]
  refine Nat.mod_eq_of_lt ?_
  unfold addressSpace at hend
  omega

/-- An instruction is as many words behind the base as its address says. -/
theorem placement_words {k : Nat} {p : Placement} (hk : s.layout.placements[k]? = some p) :
    p.pc.toNat % 4 = 0 ∧ s.sections.text.base.toNat ≤ p.pc.toNat ∧
      ∃ (e : Placement) (is : List Instruction), s.expanded[k]? = some e ∧ e.line.number = p.line.number ∧ is ≠ [] ∧
        Context.line ⟨s.layout.symbols, o.positionIndependent, p.pc⟩ e.line = .ok is ∧
        ((s.words o).drop ((p.pc.toNat - s.sections.text.base.toNat) / 4)).take is.length =
          is.map Instruction.toWord := by
  have hpc := placement_pc h he hk
  have hplaced := (laidOut h).placements
  rw [List.nil_append] at hplaced
  rw [hplaced] at hk
  obtain ⟨a, is, ha, hx, ho, hne, _⟩ := (emitted h he).placed hk
  obtain ⟨rest, hsplit⟩ := words_split ha
  have hlen : is.length = a.words.length := by rw [Attempt.words_of_ok ho, List.length_map]
  have hbase := base_aligned h
  rw [Stages.attempts, List.getElem?_map] at ha
  obtain ⟨e, hek, rfl⟩ := Option.map_eq_some_iff.mp ha
  have hline : Context.line ⟨s.layout.symbols, o.positionIndependent, p.pc⟩ e.line = .ok is := by
    rw [← hx.pc]
    exact ho
  refine ⟨by omega, by omega, e, is, hek, hx.number, hne, hline, ?_⟩
  rw [hpc, Nat.add_sub_cancel_left, Nat.mul_div_cancel_left _ (by decide), Stages.words, hsplit, List.drop_left, hlen,
    List.take_left, Attempt.words_of_ok ho]

theorem listing_row {n : Nat} {w : Word} (hw : (s.words o)[n]? = some w) :
    ∃ rest, ((s.attempts o).flatMap Attempt.rows)[n]? = some (Text.hexUpper 8 (s.sections.text.base.toNat + 4 * n) ++
      "  " ++ Text.hexLower 8 w.toNat ++ rest) := by
  obtain ⟨rest, hrow⟩ := (emitted h he).listed.row n w hw
  have hn : n < (s.words o).length := (List.getElem?_eq_some_iff.mp hw).1
  have htotal := words_length h he
  have hend := end_le h
  have hpc : (BitVec.ofNat 32 s.sections.text.base.toNat + BitVec.ofNat 32 (4 * n)).toNat =
      s.sections.text.base.toNat + 4 * n := by
    rw [← BitVec.ofNat_add, BitVec.toNat_ofNat]
    refine Nat.mod_eq_of_lt ?_
    unfold addressSpace at hend
    omega
  exact ⟨rest, hpc ▸ hrow⟩

end Stages

/-- In a run without errors, layout and encoding agree on every address. -/
theorem addresses_agree (o : Options) (source : Text) (r : Result) (hr : (assemble o source).outcome = .ok r)
    (hf : r.failed = 0) : ∃ s i, Stages.ofSource source = .ok s ∧ r.text = some i ∧ Agreement o source r s i := by
  rw [assemble_eq] at hr
  cases h : Stages.ofSource source with
  | error halt => rw [h] at hr; cases hr
  | ok s =>
    rw [h] at hr
    cases hr
    have he : s.errors o = [] := List.length_eq_zero_iff.mp hf
    refine ⟨s, .ofText s.sections.text.base (s.words o), rfl, by simp [Stages.result, he], ?_⟩
    have hwords : (Image.ofText s.sections.text.base (s.words o)).words = s.words o := Image.words_ofText _ _
    constructor
    · rfl
    · rfl
    · rw [(Stages.laidOut h).placements, List.nil_append, Layout.along_placedOn_lines]
    · rw [hwords, Stages.words_length h he, Layout.extents_eq]
    · rw [hwords]
      exact fun k p => Stages.placement_words h he
    · exact fun symbol => (Stages.mem_labels h symbol).trans (Stages.label_address h he)
    · rw [hwords, Stages.words_length h he]
      exact Stages.end_le h
    · intro hl
      rw [hwords]
      have hlisting : (s.result o source).listing = (s.attempts o).flatMap Attempt.rows := if_pos hl
      rw [hlisting]
      exact ⟨(Stages.emitted h he).listed.length, fun n w => Stages.listing_row h he⟩

/-- A label before an instruction of two words, and a jump back to it. -/
def loopSource : Text := ".section .text\n.org 0x10\nstart: li a0, 0x12345fff\nj start"

theorem addresses_agree_loop :
    ∃ r s i, (assemble { listing := true } loopSource).outcome = .ok r ∧ r.failed = 0 ∧ r.text = some i ∧
      i.words = [0x12346537, 0xFFF50513, 0xFF9FF06F] ∧ Agreement { listing := true } loopSource r s i := by
  have run : ((assemble { listing := true } loopSource).outcome.toOption.map
      fun r => (r.failed, r.text.map Image.words)) = some (0, some [0x12346537, 0xFFF50513, 0xFF9FF06F]) := by
    decide +kernel
  obtain ⟨r, hr, hw⟩ := Option.map_eq_some_iff.mp run
  have hok := Source.toOption_eq_some hr
  rw [Prod.mk.injEq] at hw
  obtain ⟨s, i, _, hi, hagree⟩ := addresses_agree _ _ r hok hw.1
  refine ⟨r, s, i, hok, hw.1, hi, ?_, hagree⟩
  simpa [hi] using hw.2

end Rv32Tools.Assembly
