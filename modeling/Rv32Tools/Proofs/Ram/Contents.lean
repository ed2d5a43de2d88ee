import Mathlib.Data.List.Nodup
import Mathlib.Order.Bounds.Basic
import Rv32Tools.Ram.Generate

/-
  Rv32Tools.Proofs.Ram.Contents — which words of a dump a RAM starts with, and at which addresses.

  The words that have a place are those from the first address up to the end of the RAM (`placed`). The rows of a bank
  give one address after the other its part of one word after the other (`contentsFrom_eq_ok_iff`), so that all modules
  come out exactly if the profile is valid, the first address is in the RAM and the words with a place are as wide as
  the RAM (`generate_eq_ok_iff`). These rows are the initial block that stands for each end of a module in the template
  (`Spliced`).

  The offset is rounded up by a sum of 64-bit integers. Where that sum wraps around the first address is below zero, and
  otherwise it is that of the least multiple of a word that is not below the offset (`isLeast_start_iff`).
-/

namespace Rv32Tools.Ram

/-! ## Initial blocks -/

/-- One row of an initial block: the digits that an address starts with. -/
structure Assignment where
  address : Int
  bits : Int
  mark : Text
  digits : Text

def Assignment.row (a : Assignment) : Text :=
  "   ram[" ++ Text.decimalInt a.address ++ "] = " ++ Text.decimalInt a.bits ++ a.mark ++ a.digits ++ " ;"

/-- The rows that a template becomes: `block` stands for each row that ends a module, and each other row stays one row, the
same one if it is neither the head of a module nor a parameter. -/
inductive Spliced (block : List Text) : (template rows : List Text) → Prop
  | nil : Spliced block [] []
  | ending {row : Text} {template rows : List Text} (hend : Text.startsWith "endmodule" row = true)
    (h : Spliced block template rows) : Spliced block (row :: template) (block ++ rows)
  | other {row row' : Text} {template rows : List Text} (hend : Text.startsWith "endmodule" row = false)
    (hrow : row' = row ∨ Text.startsWith "module" row = true ∨ (parameter? row).isSome = true)
    (h : Spliced block template rows) : Spliced block (row :: template) (row' :: rows)

/-- A row that ends a module becomes the initial block. -/
theorem Substitution.row_ending {s : Substitution} {contents : List Text} (hs : s.contents = some contents) {row : Text}
    (hend : Text.startsWith "endmodule" row = true) : s.row row = initialBlock contents := by
  obtain ⟨rest, rfl⟩ := List.isPrefixOf_iff_prefix.mp hend
  have hmodule : Text.startsWith "module" ("endmodule" ++ rest) = false := rfl
  rw [Substitution.row, hmodule, hs, hend]
  rfl

theorem Substitution.row_other (s : Substitution) {row : Text} (hend : Text.startsWith "endmodule" row = false) :
    ∃ row', s.row row = [row'] ∧
      (row' = row ∨ Text.startsWith "module" row = true ∨ (parameter? row).isSome = true) := by
  unfold Substitution.row
  by_cases hmodule : Text.startsWith "module" row = true
  · exact ⟨_, if_pos hmodule, Or.inr (Or.inl hmodule)⟩
  · rw [if_neg hmodule, hend]
    split
    · contradiction
    · split
      · rename_i hdepth
        exact ⟨_, rfl, Or.inr (Or.inr (by rw [beq_iff_eq.mp hdepth]; rfl))⟩
      · split
        · rename_i hwidth
          rw [Bool.and_eq_true, beq_iff_eq] at hwidth
          exact ⟨_, rfl, Or.inr (Or.inr (by rw [hwidth.1]; rfl))⟩
        · exact ⟨row, rfl, Or.inl rfl⟩

theorem Substitution.apply_spliced {s : Substitution} {contents : List Text} (hs : s.contents = some contents)
    (template : List Text) : Spliced (initialBlock contents) template (s.apply template) := by
  induction template with
  | nil => exact .nil
  | cons row template ih =>
    rw [Substitution.apply, List.flatMap_cons]
    by_cases hend : Text.startsWith "endmodule" row = true
    · rw [Substitution.row_ending hs hend]
      exact .ending hend ih
    · rw [Bool.not_eq_true] at hend
      obtain ⟨row', hrow, hkept⟩ := s.row_other hend
      rw [hrow]
      exact .other hend hkept ih

namespace Profile

variable {p : Profile} {dump template wrapper : List Text} {bank : Nat}

/-- The words of a dump that have a place in the RAM. -/
def placed (p : Profile) (dump : List Text) : List Text := dump.take (p.depth - p.startWord).toNat

theorem getElem?_placed {i : Nat} {word : Text} (h : (p.placed dump)[i]? = some word) : dump[i]? = some word := by
  rw [placed, List.getElem?_take] at h
  split at h
  · exact h
  · cases h

/-- The digits of a word are as many bits as the RAM is wide. -/
def AsWide (p : Profile) (word : Text) : Prop := ((word.length * p.digitBits : Nat) : Int) = p.width

instance (p : Profile) (word : Text) : Decidable (p.AsWide word) := inferInstanceAs (Decidable (_ = _))

/-- The words that have a place are as wide as the RAM. -/
def Fits (p : Profile) (dump : List Text) : Prop := ∀ word ∈ p.placed dump, p.AsWide word

instance (p : Profile) (dump : List Text) : Decidable (p.Fits dump) :=
  inferInstanceAs (Decidable (∀ word ∈ p.placed dump, p.AsWide word))

/-- The rows of a bank from address `start` on: one for each word of the dump, up to the end of the RAM. -/
def placedRows (p : Profile) (bank : Nat) (start : Int) (dump : List Text) : List Text :=
  (dump.take (p.depth - start).toNat).mapIdx fun k word => p.contentRow bank (start + k) word

theorem contentsFrom_eq_ok_iff {i : Nat} {words contents : List Text} (hi : p.startWord + i < p.depth) :
    p.contentsFrom bank i words = .ok contents ↔
      (∀ word ∈ words.take (p.depth - (p.startWord + i)).toNat, p.AsWide word) ∧
        contents = p.placedRows bank (p.startWord + i) words := by
  induction words generalizing i contents with
  | nil => simp [contentsFrom, placedRows, eq_comm]
  | cons word words ih =>
    obtain ⟨room, hroom⟩ : ∃ room, (p.depth - (p.startWord + i)).toNat = room + 1 :=
      ⟨(p.depth - (p.startWord + i)).toNat - 1, by omega⟩
    rw [contentsFrom, placedRows, hroom, List.take_succ_cons, List.mapIdx_cons, List.forall_mem_cons]
    by_cases hwidth : p.AsWide word
    · have hcheck : ¬ ((word.length * p.digitBits : Nat) : Int) ≠ p.width := not_not_intro hwidth
      rw [if_neg hcheck]
      by_cases hlast : p.startWord + i = p.depth - 1
      · obtain rfl : room = 0 := by omega
        simp [hlast, hwidth, eq_comm]
      · have hnext : p.startWord + (i + 1 : Nat) < p.depth := by push_cast; omega
        have hrest : (p.depth - (p.startWord + (i + 1 : Nat))).toNat = room := by push_cast; omega
        have haddress : ∀ k : Nat, p.startWord + (i + 1 : Nat) + k = p.startWord + i + (k + 1 : Nat) := by
          intro k
          omega
        rw [if_neg hlast]
        cases hwords : p.contentsFrom bank (i + 1) words with
        | ok rows =>
          obtain ⟨hall, rfl⟩ := (ih hnext).mp hwords
          rw [hrest] at hall
          simp only [hwidth, placedRows, hrest, haddress, Int.natCast_zero, Int.add_zero, Except.ok.injEq, true_and]
          rw [and_iff_right hall, eq_comm]
        | error e =>
          have hnot : ¬ ∀ word ∈ words.take room, p.AsWide word := by
            intro hall
            rw [(ih hnext).mpr ⟨by rwa [hrest], rfl⟩] at hwords
            cases hwords
          simp [hwidth, hnot]
    · have hcheck : ((word.length * p.digitBits : Nat) : Int) ≠ p.width := hwidth
      rw [if_pos hcheck]
      simp [hwidth]

/-- The module of a bank with given rows in its initial block. -/
def bankFileOf (p : Profile) (template : List Text) (bank : Nat) (contents : List Text) : GeneratedFile where
  path := Path.join (Path.directory p.template) (p.bankModule bank ++ ".sv")
  rows := Substitution.apply ⟨p.bankModule bank, p.depth, p.bankWidth, some contents⟩ template

/-- The module of a bank with the words of a dump. -/
def filledBank (p : Profile) (dump template : List Text) (bank : Nat) : GeneratedFile :=
  p.bankFileOf template bank (p.placedRows bank p.startWord dump)

theorem bankFile_eq_ok_iff (hstart : p.startWord < p.depth) {file : GeneratedFile} :
    p.bankFile dump template bank = .ok file ↔ p.Fits dump ∧ file = p.filledBank dump template bank := by
  have hcontents : ∀ contents, p.contentsFrom bank 0 dump = .ok contents ↔
      p.Fits dump ∧ contents = p.placedRows bank p.startWord dump := by
    intro contents
    have hzero : p.startWord + (0 : Nat) < p.depth := by simpa using hstart
    have hrows : p.contentsFrom bank 0 dump = .ok contents ↔ _ := contentsFrom_eq_ok_iff hzero
    rwa [Int.natCast_zero, Int.add_zero] at hrows
  rw [bankFile]
  cases h : p.contentsFrom bank 0 dump with
  | ok contents =>
    obtain ⟨hfits, rfl⟩ := (hcontents contents).mp h
    simp [hfits, filledBank, bankFileOf, eq_comm]
  | error e =>
    have hnot : ¬ p.Fits dump := by
      intro hfits
      rw [(hcontents _).mpr ⟨hfits, rfl⟩] at h
      cases h
    simp [hnot]

theorem bankFiles_eq_ok_iff (hstart : p.startWord < p.depth) {banks : List Nat} {files : List GeneratedFile} :
    p.bankFiles dump template banks = .ok files ↔
      (banks ≠ [] → p.Fits dump) ∧ files = banks.map (p.filledBank dump template) := by
  induction banks generalizing files with
  | nil => simp [bankFiles, eq_comm]
  | cons bank banks ih =>
    rw [bankFiles]
    by_cases hfits : p.Fits dump
    · have hfile : p.bankFile dump template bank = .ok (p.filledBank dump template bank) :=
        (bankFile_eq_ok_iff hstart).mpr ⟨hfits, rfl⟩
      have hfiles := ih.mpr ⟨fun _ => hfits, rfl⟩
      simp [hfile, hfiles, hfits, eq_comm]
    · cases h : p.bankFile dump template bank with
      | ok file => exact absurd ((bankFile_eq_ok_iff hstart).mp h).1 hfits
      | error e => simp [hfits]

theorem banks_pos (p : Profile) : 0 < p.banks := by
  unfold banks
  split <;> decide

/-- All modules come out exactly if the profile is valid, the first address is in the RAM and the words with a place in it
are as wide as it is. -/
theorem generate_eq_ok_iff {out : Output} :
    p.generate dump template wrapper = .ok out ↔ p.invalid? = none ∧ p.startWord < p.depth ∧ p.Fits dump ∧ out = {
      files := (List.range p.banks).map (p.filledBank dump template) ++
        if p.kind = dataKind then [p.wrapperFile wrapper] else []
      overfull := wrap (p.depth - p.startWord) < dump.length } := by
  rw [generate]
  cases hvalid : p.invalid? with
  | some e => simp
  | none =>
    by_cases hstart : p.startWord < p.depth
    · rw [if_neg (Int.not_le.mpr hstart)]
      have hne : List.range p.banks ≠ [] := by simp [p.banks_pos.ne']
      by_cases hfits : p.Fits dump
      · simp only [(bankFiles_eq_ok_iff hstart).mpr ⟨fun _ => hfits, rfl⟩]
        split <;> simp [hstart, hfits, eq_comm]
      · cases h : p.bankFiles dump template (List.range p.banks) with
        | ok files => exact absurd (((bankFiles_eq_ok_iff hstart).mp h).1 hne) hfits
        | error e => simp [hfits]
    · rw [if_pos (Int.not_lt.mp hstart)]
      simp [hstart]

/-- The first modules are those of the banks. -/
theorem getElem?_files (hbank : bank < p.banks) :
    ((List.range p.banks).map (p.filledBank dump template) ++
      if p.kind = dataKind then [p.wrapperFile wrapper] else [])[bank]? = some (p.filledBank dump template bank) := by
  rw [List.getElem?_append_left (by simpa using hbank), List.getElem?_map, List.getElem?_range hbank]
  rfl

/-- Nothing but the first address is out of range. -/
theorem contentsFrom_ne_outOfRange (i : Nat) (words : List Text) (start depth : Int) :
    p.contentsFrom bank i words ≠ .error (.outOfRange start depth) := by
  induction words generalizing i with
  | nil => simp [contentsFrom]
  | cons word words ih =>
    rw [contentsFrom]
    split
    · simp
    · split
      · simp
      · cases h : p.contentsFrom bank (i + 1) words with
        | ok rows => simp
        | error e =>
          intro heq
          cases heq
          exact ih (i + 1) h

theorem bankFiles_ne_outOfRange (banks : List Nat) (start depth : Int) :
    p.bankFiles dump template banks ≠ .error (.outOfRange start depth) := by
  induction banks with
  | nil => simp [bankFiles]
  | cons bank banks ih =>
    rw [bankFiles, bankFile]
    cases h : p.contentsFrom bank 0 dump with
    | error e =>
      intro heq
      cases heq
      exact contentsFrom_ne_outOfRange 0 dump start depth h
    | ok contents =>
      cases h' : p.bankFiles dump template banks with
      | ok files => simp
      | error e =>
        intro heq
        cases heq
        exact ih h'

theorem generate_outOfRange_iff {start depth : Int} :
    p.generate dump template wrapper = .error (.outOfRange start depth) ↔
      p.invalid? = none ∧ p.depth ≤ p.startWord ∧ start = p.startWord ∧ depth = p.depth := by
  rw [generate]
  cases hvalid : p.invalid? with
  | some e => simp
  | none =>
    by_cases hstart : p.depth ≤ p.startWord
    · simp [hstart, eq_comm]
    · rw [if_neg hstart]
      cases h : p.bankFiles dump template (List.range p.banks) with
      | ok files => simp [hstart]
      | error e =>
        have hne : e ≠ .outOfRange start depth := by
          rintro rfl
          exact bankFiles_ne_outOfRange _ _ _ h
        simp [hstart, hne]

/-! ## The first address -/

/-- What fits in 64 bits as a signed integer. -/
def InRange (n : Int) : Prop := -0x8000000000000000 ≤ n ∧ n < 0x8000000000000000

instance (n : Int) : Decidable (InRange n) := inferInstanceAs (Decidable (_ ∧ _))

/-- The numbers of a profile are signed 64-bit integers. -/
structure Representable (p : Profile) : Prop where
  depth : InRange p.depth
  width : InRange p.width
  offset : InRange p.offset
  kind : InRange p.kind

/-- The sum that rounds the offset up fits as well. -/
def RoundsUp (p : Profile) : Prop := p.offset + p.wordBytes ≤ 0x8000000000000000

instance (p : Profile) : Decidable p.RoundsUp := inferInstanceAs (Decidable (_ ≤ _))

theorem wrap_of_inRange {n : Int} (h : InRange n) : wrap n = n := by
  unfold InRange at h
  simp only [wrap, Int.bmod_def]
  omega

theorem valid_numbers (h : p.invalid? = none) :
    0 < p.depth ∧ 0 < p.width ∧ p.width % 8 = 0 ∧ 0 ≤ p.offset := by
  unfold invalid? at h
  iterate 7
    split at h
    · cases h
  omega

theorem wordBytes_of_valid (h : p.invalid? = none) : 0 < p.wordBytes ∧ p.width = 8 * p.wordBytes := by
  obtain ⟨-, hwidth, height, -⟩ := valid_numbers h
  rw [wordBytes, Int.tdiv_eq_ediv_of_nonneg (by omega)]
  omega

/-- The first word starts at the offset, or less than a word behind it. -/
theorem startWord_of_roundsUp (hvalid : p.invalid? = none) (hround : p.RoundsUp) :
    0 ≤ p.startWord ∧ p.offset ≤ p.startWord * p.wordBytes ∧ p.startWord * p.wordBytes < p.offset + p.wordBytes := by
  obtain ⟨hbytes, -⟩ := wordBytes_of_valid hvalid
  obtain ⟨-, -, -, hoffset⟩ := valid_numbers hvalid
  have hsum : p.startWord = (p.offset + p.wordBytes - 1) / p.wordBytes := by
    have hrange : InRange (p.offset + p.wordBytes - 1) := by
      unfold RoundsUp at hround
      unfold InRange
      omega
    rw [startWord, wrap_of_inRange hrange, Int.tdiv_eq_ediv_of_nonneg (by omega)]
  have hbelow := Int.ediv_mul_le (p.offset + p.wordBytes - 1) hbytes.ne'
  have habove := Int.lt_ediv_add_one_mul_self (p.offset + p.wordBytes - 1) hbytes
  rw [Int.add_mul, Int.one_mul] at habove
  rw [hsum]
  exact ⟨Int.ediv_nonneg (by omega) (by omega), by omega, by omega⟩

/-- Where the sum wraps around, the first address is below zero. -/
theorem startWord_of_not_roundsUp (hvalid : p.invalid? = none) (hp : p.Representable) (hround : ¬ p.RoundsUp) :
    -0x8000000000000000 ≤ p.startWord ∧ p.startWord < 0 := by
  obtain ⟨hbytes, hwidth⟩ := wordBytes_of_valid hvalid
  obtain ⟨-, hwide⟩ := hp.width
  obtain ⟨-, hfar⟩ := hp.offset
  have hwrap : wrap (p.offset + p.wordBytes - 1) = p.offset + p.wordBytes - 1 - 0x10000000000000000 := by
    unfold RoundsUp at hround
    simp only [wrap, Int.bmod_def]
    omega
  -- a word has less than 2 ^ 60 bytes, so at least one whole word is taken away
  have hword : 1 ≤ -(p.offset + p.wordBytes - 1 - 0x10000000000000000) / p.wordBytes := by
    rw [Int.le_ediv_iff_mul_le hbytes]
    omega
  have hneg : p.startWord = -(-(p.offset + p.wordBytes - 1 - 0x10000000000000000) / p.wordBytes) := by
    rw [startWord, hwrap, ← Int.tdiv_eq_ediv_of_nonneg (by omega), Int.neg_tdiv, Int.neg_neg]
  have hwords := Int.ediv_le_self p.wordBytes (show 0 ≤ -(p.offset + p.wordBytes - 1 - 0x10000000000000000) by omega)
  unfold RoundsUp at hround
  omega

/-- The room from the first address on is taken as a 64-bit integer: where it is none, it counts as too little. -/
theorem wrap_room_lt_iff (hvalid : p.invalid? = none) (hp : p.Representable) (hstart : p.startWord < p.depth) (n : Nat) :
    wrap (p.depth - p.startWord) < n ↔ p.depth - p.startWord < n ∨ ¬ InRange (p.depth - p.startWord) := by
  obtain ⟨-, hdepth⟩ := hp.depth
  have hbound : -0x8000000000000000 ≤ p.startWord := by
    by_cases hround : p.RoundsUp
    · have := (startWord_of_roundsUp hvalid hround).1
      omega
    · exact (startWord_of_not_roundsUp hvalid hp hround).1
  by_cases hroom : InRange (p.depth - p.startWord)
  · rw [wrap_of_inRange hroom]
    simp [hroom]
  · have hwrap : wrap (p.depth - p.startWord) < 0 := by
      unfold InRange at hroom
      simp only [wrap, Int.bmod_def]
      omega
    simp only [hroom, not_false_eq_true, or_true, iff_true]
    omega

theorem isLeast_start_iff (hvalid : p.invalid? = none) (hp : p.Representable) :
    IsLeast {n : Int | p.wordBytes ∣ n ∧ p.offset ≤ n} (p.startWord * p.wordBytes) ↔ p.RoundsUp := by
  obtain ⟨hbytes, -⟩ := wordBytes_of_valid hvalid
  obtain ⟨-, -, -, hoffset⟩ := valid_numbers hvalid
  constructor
  · intro hleast
    by_contra hround
    obtain ⟨-, hstart⟩ := startWord_of_not_roundsUp hvalid hp hround
    have habove : p.offset ≤ p.startWord * p.wordBytes := hleast.1.2
    have hbelow := Int.mul_neg_of_neg_of_pos hstart hbytes
    omega
  · intro hround
    obtain ⟨-, habove, hbelow⟩ := startWord_of_roundsUp hvalid hround
    refine ⟨⟨Int.dvd_mul_left _ _, habove⟩, ?_⟩
    rintro n ⟨⟨k, rfl⟩, hn⟩
    rw [Int.mul_comm p.startWord] at hbelow ⊢
    have hle : p.startWord < k + 1 := by
      by_contra hlt
      have := Int.mul_le_mul_of_nonneg_left (Int.not_lt.mp hlt) hbytes.le
      rw [Int.mul_add, Int.mul_one] at this
      omega
    exact Int.mul_le_mul_of_nonneg_left (by omega) hbytes.le

/-! ## The words of a dump at their addresses -/

/-- The rows of a bank, taken apart. -/
def assignments (p : Profile) (bank : Nat) (dump : List Text) : List Assignment :=
  (p.placed dump).mapIdx fun i word => ⟨p.startWord + i, p.bankWidth, p.radixMark, p.slice bank word⟩

theorem filledBank_spliced (p : Profile) (dump template : List Text) (bank : Nat) :
    Spliced (initialBlock ((p.assignments bank dump).map Assignment.row)) template (p.filledBank dump template bank).rows := by
  have hrows : p.placedRows bank p.startWord dump = (p.assignments bank dump).map Assignment.row := by
    refine List.ext_getElem? fun i => ?_
    rw [placedRows, assignments, List.getElem?_map, List.getElem?_mapIdx, List.getElem?_mapIdx, Option.map_map]
    rfl
  rw [← hrows]
  exact Substitution.apply_spliced rfl template

theorem length_assignments (p : Profile) (bank : Nat) (dump : List Text) :
    (p.assignments bank dump).length = min dump.length (p.depth - p.startWord).toNat := by
  rw [assignments, List.length_mapIdx, placed, List.length_take, Nat.min_comm]

theorem addresses_assignments (p : Profile) (bank : Nat) (dump : List Text) :
    (p.assignments bank dump).map Assignment.address =
      (List.range (min dump.length (p.depth - p.startWord).toNat)).map fun i : Nat => p.startWord + i := by
  refine List.ext_getElem (by simp [length_assignments]) fun i _ _ => ?_
  simp [assignments]

theorem getElem?_assignments {i : Nat} {a : Assignment} (h : (p.assignments bank dump)[i]? = some a) :
    ∃ word, (p.placed dump)[i]? = some word ∧ a = ⟨p.startWord + i, p.bankWidth, p.radixMark, p.slice bank word⟩ := by
  rw [assignments, List.getElem?_mapIdx, Option.map_eq_some_iff] at h
  obtain ⟨word, hword, rfl⟩ := h
  exact ⟨word, hword, rfl⟩

end Profile

/-- The words of a dump go to consecutive addresses from the first word on, as many as fit, alike in all banks; a warning is
given exactly if some are left over, or if their room is no 64-bit integer. The first word is where the offset, rounded up,
is, as long as the sum that rounds it up is a 64-bit integer. The offset is out of range exactly if the first word is. -/
theorem words_placed (p : Profile) (hp : p.Representable) (dump template wrapper : List Text) :
    (∀ out, p.generate dump template wrapper = .ok out →
      (∀ bank < p.banks, ∃ (file : GeneratedFile) (block : List Assignment), out.files[bank]? = some file ∧
        Spliced (initialBlock (block.map Assignment.row)) template file.rows ∧
        block.map Assignment.address =
          (List.range (min dump.length (p.depth - p.startWord).toNat)).map (fun i : Nat => p.startWord + i) ∧
        (block.map Assignment.address).Nodup ∧ (∀ a ∈ block, a.address < p.depth) ∧
        ∀ (i : Nat) (a : Assignment), block[i]? = some a → ∃ word, dump[i]? = some word ∧ a.digits = p.slice bank word) ∧
      out.warnings =
        if p.depth - p.startWord < dump.length ∨ ¬ Profile.InRange (p.depth - p.startWord) then [overfullMessage] else []) ∧
    (p.invalid? = none →
      (IsLeast {n : Int | p.wordBytes ∣ n ∧ p.offset ≤ n} (p.startWord * p.wordBytes) ↔ p.RoundsUp)) ∧
    ((∃ start depth, p.generate dump template wrapper = .error (.outOfRange start depth)) ↔
      p.invalid? = none ∧ p.depth ≤ p.startWord) := by
  refine ⟨fun out hout => ?_, fun hvalid => Profile.isLeast_start_iff hvalid hp, ?_⟩
  · obtain ⟨hvalid, hstart, -, rfl⟩ := Profile.generate_eq_ok_iff.mp hout
    refine ⟨fun bank hbank => ?_, ?_⟩
    · refine ⟨_, p.assignments bank dump, Profile.getElem?_files hbank, p.filledBank_spliced dump template bank,
        p.addresses_assignments bank dump, ?_, fun a ha => ?_, fun i a ha => ?_⟩
      · rw [p.addresses_assignments]
        refine List.Nodup.map (fun i j hij => ?_) List.nodup_range
        have hsum : p.startWord + (i : Int) = p.startWord + j := hij
        omega
      · have haddress := List.mem_map_of_mem (f := Assignment.address) ha
        rw [p.addresses_assignments, List.mem_map] at haddress
        obtain ⟨i, hi, hia⟩ := haddress
        rw [List.mem_range] at hi
        omega
      · obtain ⟨word, hword, rfl⟩ := Profile.getElem?_assignments ha
        exact ⟨word, Profile.getElem?_placed hword, rfl⟩
    · simp only [Output.warnings, decide_eq_true_eq, Profile.wrap_room_lt_iff hvalid hp hstart]
  · constructor
    · rintro ⟨start, depth, hout⟩
      obtain ⟨hvalid, hbeyond, -⟩ := Profile.generate_outOfRange_iff.mp hout
      exact ⟨hvalid, hbeyond⟩
    · rintro ⟨hvalid, hbeyond⟩
      exact ⟨p.startWord, p.depth, Profile.generate_outOfRange_iff.mpr ⟨hvalid, hbeyond, rfl, rfl⟩⟩

/-- Three words at byte 5 of a RAM of four words: two of them fit, at byte 8. -/
theorem words_placed_three :
    let p : Profile := {
      dump := "a_hex.txt", template := "ram.sv", moduleName := "m", depth := 4, width := 32, offset := 5, kind := 0 }
    let dump : List Text := ["00000001", "00000002", "00000003"]
    ∃ out, p.generate dump ["module", "endmodule // ram"] [] = .ok out ∧
      (∃ (file : GeneratedFile) (block : List Assignment), out.files[0]? = some file ∧
        Spliced (initialBlock (block.map Assignment.row)) ["module", "endmodule // ram"] file.rows ∧
        block.map Assignment.address = [2, 3]) ∧
      out.warnings = [overfullMessage] ∧ IsLeast {n : Int | 4 ∣ n ∧ 5 ≤ n} 8 := by
  intro p dump
  have hvalid : p.invalid? = none := by decide +kernel
  have hround : p.RoundsUp := by decide +kernel
  obtain ⟨placed, least, -⟩ := words_placed p ⟨by decide, by decide, by decide, by decide⟩ dump
    ["module", "endmodule // ram"] []
  obtain ⟨out, hout⟩ : ∃ out, p.generate dump ["module", "endmodule // ram"] [] = .ok out :=
    ⟨_, Profile.generate_eq_ok_iff.mpr ⟨hvalid, by decide +kernel, by decide +kernel, rfl⟩⟩
  obtain ⟨banks, warned⟩ := placed out hout
  obtain ⟨file, block, hfile, hspliced, haddress, -⟩ := banks 0 (by decide +kernel)
  exact ⟨out, hout, ⟨file, block, hfile, hspliced, haddress⟩, warned, (least hvalid).mpr hround⟩

/-- An offset near the end of the 64-bit integers wraps around: the RAM is made, with its first word far below zero. -/
theorem first_word_below_zero :
    let p : Profile := {
      dump := "a_hex.txt", template := "ram.sv", moduleName := "m", depth := 8, width := 32, offset := 0x7FFFFFFFFFFFFFFF,
      kind := 0 }
    (∃ out, p.generate ["00000001"] ["endmodule"] [] = .ok out) ∧ p.startWord = -0x1FFFFFFFFFFFFFFF ∧
      ¬ IsLeast {n : Int | p.wordBytes ∣ n ∧ p.offset ≤ n} (p.startWord * p.wordBytes) := by
  intro p
  have hvalid : p.invalid? = none := by decide +kernel
  have hround : ¬ p.RoundsUp := by decide +kernel
  refine ⟨⟨_, Profile.generate_eq_ok_iff.mpr ⟨hvalid, by decide +kernel, by decide +kernel, rfl⟩⟩, by decide +kernel, ?_⟩
  rw [Profile.isLeast_start_iff hvalid ⟨by decide, by decide, by decide, by decide⟩]
  exact hround

end Rv32Tools.Ram
