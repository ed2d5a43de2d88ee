import Rv32Tools.Proofs.Isa.Decoding
import Rv32Tools.Proofs.Isa.Machine
import Rv32Tools.Proofs.Source.Numerals
import Rv32Tools.Proofs.Text.Digits

/-
  Rv32Tools.Proofs.Isa.Disassembly — a disassembly accounts for every word.

  A disassembly goes on by one word or by two, but what it says of a word hangs on the words next to it only
  (`disassemble_getElem?`): an upper load followed by an addition to its register is shown as a constant, the addition
  behind it as a note, and every other word as it is. Two such pairs never share a word, since an addition is no upper
  load (`loadedConstant?_next`).

  - The constant of a pair comes apart into the same two words (`loadedConstant?_eq_some`), so it is what the register
    holds when they have been run.
  - A pair can be told from the rows alone (`FoldedAt`): no instruction is rendered like the load of a constant
    (`render_not_load`).
-/

namespace Rv32Tools.Word

/-! ## An upper load and an addition -/

/-- An upper half and a low half added up come apart into the same halves. -/
theorem halves_of_sum (a : BitVec 20) (b : BitVec 12) :
    let v : Word := (a.setWidth 32 <<< 12) + b.signExtend 32
    v.high = a ∧ v.low = b := by
  intro v
  have ha := a.isLt
  have hb := b.isLt
  have hv : v.toNat = (a.toNat * 4096 + (b.signExtend 32).toNat) % 2 ^ 32 := by
    simp only [v, BitVec.toNat_add, BitVec.toNat_shiftLeft, BitVec.toNat_setWidth, Nat.shiftLeft_eq]
    omega
  rw [BitVec.toNat_signExtend] at hv
  have hlow : v.low = b := by
    apply BitVec.eq_of_toNat_eq
    rw [low_toNat, hv]
    cases b.msb with
    | false => simp; omega
    | true => simp; omega
  refine ⟨?_, hlow⟩
  apply BitVec.eq_of_toNat_eq
  rw [high, hlow, BitVec.toNat_add, upper_toNat, hv]
  cases b.msb with
  | false => simp; omega
  | true => simp; omega

/-- Two words load a constant into `rd`: an upper load into it, then an addition to it. -/
structure LoadsInto (w v : Word) (rd : Reg) : Prop where
  upper : ∃ i, Instruction.ofWord? w = some i ∧ i.op = .lui ∧ i.rd = rd
  addition : ∃ k, Instruction.ofWord? v = some k ∧ k.op = .addi ∧ k.rd = rd ∧ k.rs1 = rd

theorem loadsInto_of_loadedConstant? {w v : Word} {x : Reg × Word} (h : loadedConstant? w v = some x) :
    LoadsInto w v x.1 := by
  unfold loadedConstant? at h
  split at h
  · rename_i i k hi hk
    split at h
    · rename_i hpair
      obtain ⟨hiop, hkop, hkrd, hkrs1⟩ := hpair
      cases h
      exact ⟨⟨i, hi, hiop, rfl⟩, ⟨k, hk, hkop, hkrd, hkrs1⟩⟩
    · cases h
  · cases h

theorem LoadsInto.loadedConstant? {w v : Word} {rd : Reg} (h : LoadsInto w v rd) :
    ∃ value, loadedConstant? w v = some (rd, value) := by
  obtain ⟨⟨i, hi, hiop, hird⟩, ⟨k, hk, hkop, hkrd, hkrs1⟩⟩ := h
  refine ⟨(i.imm <<< 12) + k.imm, ?_⟩
  simp only [Word.loadedConstant?, hi, hk]
  rw [if_pos ⟨hiop, hkop, hkrd.trans hird.symm, hkrs1.trans hird.symm⟩, hird]

/-- The constant that two words load comes apart into the same two words. -/
theorem loadedConstant?_eq_some {w v : Word} {rd : Reg} {value : Word}
    (h : loadedConstant? w v = some (rd, value)) :
    Instruction.toWord { op := .lui, rd, imm := value.high.setWidth 32 } = w ∧
      Instruction.toWord { op := .addi, rd, rs1 := rd, imm := value.low.signExtend 32 } = v := by
  unfold loadedConstant? at h
  split at h
  · rename_i i k hi hk
    split at h
    · rename_i hpair
      obtain ⟨hiop, hkop, hkrd, hkrs1⟩ := hpair
      simp only [Option.some.injEq, Prod.mk.injEq] at h
      obtain ⟨rfl, hvalue⟩ := h
      have hiimm : i.imm = (w.extractLsb' 12 20).setWidth 32 := by
        rw [(Instruction.ofWord?_eq_some hi).2, hiop]
        rfl
      have hkimm : k.imm = (v.extractLsb' 20 12).signExtend 32 := by
        rw [(Instruction.ofWord?_eq_some hk).2, hkop]
        rfl
      obtain ⟨hhigh, hlow⟩ := halves_of_sum (w.extractLsb' 12 20) (v.extractLsb' 20 12)
      rw [← hiimm, ← hkimm, hvalue] at hhigh hlow
      have hw := Instruction.toWord_of_ofWord? hi
      have hv := Instruction.toWord_of_ofWord? hk
      constructor
      · rw [hhigh, ← hiimm, ← hw]
        simp only [Instruction.toWord, hiop]
        rfl
      · rw [hlow, ← hkimm, ← hv]
        simp only [Instruction.toWord, hkop, hkrd, hkrs1]
        rfl
    · cases h
  · cases h

/-- The second word of a pair is not the first word of another. -/
theorem loadedConstant?_next {w v : Word} {x : Reg × Word} (h : loadedConstant? w v = some x) (u : Word) :
    loadedConstant? v u = none := by
  obtain ⟨k, hk, hkop, _⟩ := (loadsInto_of_loadedConstant? h).addition
  cases hu : loadedConstant? v u with
  | none => rfl
  | some y =>
    obtain ⟨i, hi, hiop, _⟩ := (loadsInto_of_loadedConstant? hu).upper
    rw [hk, Option.some.injEq] at hi
    rw [hi, hiop] at hkop
    cases hkop

/-! ## Rows by their words -/

/-- The address of the word at place `n`. -/
def addressAt (pc : Word) (n : Nat) : Word := pc + BitVec.ofNat 32 (4 * n)

theorem addressAt_toNat (pc : Word) (n : Nat) : (addressAt pc n).toNat = (pc.toNat + 4 * n) % 2 ^ 32 := by
  rw [addressAt, BitVec.toNat_add, BitVec.toNat_ofNat, Nat.add_mod_mod]

theorem addressAt_zero (pc : Word) : addressAt pc 0 = pc := BitVec.add_zero pc

theorem addressAt_add (pc : Word) (k n : Nat) : addressAt (addressAt pc k) n = addressAt pc (n + k) := by
  apply BitVec.eq_of_toNat_eq
  rw [addressAt_toNat, addressAt_toNat, addressAt_toNat]
  omega

/-- What a row shows behind its columns, by its word and the words on either side. -/
def rowRest (before : Option Word) (w : Word) (after : Option Word) (pc : Word) : Text :=
  match after.bind (loadedConstant? w) with
  | some (rd, value) => "    li " ++ rd.name ++ ", 0x" ++ (Text.hexShort value.toNat).map Text.upperByte
  | none =>
    match before.bind (loadedConstant? · w) with
    | some _ => "     # (" ++ w.render pc ++ ")"
    | none => "    " ++ w.render pc

/-- The word before place `n` of a list that stands behind `before`. -/
def wordBefore (before : Option Word) (ws : List Word) : Nat → Option Word
  | 0 => before
  | n + 1 => ws[n]?

theorem wordBefore_cons (before : Option Word) (w : Word) (ws : List Word) (n : Nat) :
    wordBefore before (w :: ws) (n + 1) = wordBefore (some w) ws n := by
  cases n with
  | zero => rfl
  | succ n => rfl

/-- Each row is told by its word and the words next to it. The word in front of the list is not the first of a pair. -/
theorem disassemble_getElem?_of_before {before : Option Word} {pc : Word} {ws : List Word}
    (h : ∀ w, ws.head? = some w → before.bind (loadedConstant? · w) = none) (n : Nat) :
    (disassemble pc ws)[n]? = ws[n]?.map fun w =>
      rowHead (addressAt pc n) w ++ rowRest (wordBefore before ws n) w ws[n + 1]? (addressAt pc n) := by
  induction pc, ws using disassemble.induct generalizing before n with
  | case1 pc => rfl
  | case2 pc w =>
    cases n with
    | zero =>
      have hb := h w rfl
      simp [disassemble, wordBefore, rowRest, hb, addressAt_zero]
    | succ n => rfl
  | case3 pc w v r rd value hpair ih =>
    rw [disassemble, hpair]
    cases n with
    | zero => simp [wordBefore, rowRest, hpair, addressAt_zero]
    | succ n =>
      cases n with
      | zero =>
        have hnext : r[0]?.bind (loadedConstant? v) = none := by
          cases r with
          | nil => rfl
          | cons u r => exact loadedConstant?_next hpair u
        simp [wordBefore, rowRest, hpair, hnext]
        rfl
      | succ n =>
        have hbehind := @ih (some v) (fun u _ => loadedConstant?_next hpair u) n
        have hpc : pc + 8 = addressAt pc 2 := rfl
        rw [hpc] at hbehind
        rw [wordBefore_cons, wordBefore_cons, hpc]
        simp only [List.getElem?_cons_succ, addressAt_add] at hbehind ⊢
        exact hbehind
  | case4 pc w v r hpair ih =>
    rw [disassemble, hpair]
    cases n with
    | zero =>
      have hb := h w rfl
      simp [wordBefore, rowRest, hpair, hb, addressAt_zero]
    | succ n =>
      have hbehind := @ih (some w) (fun u hu => by cases hu; exact hpair) n
      have hpc : pc + 4 = addressAt pc 1 := rfl
      rw [hpc] at hbehind
      rw [wordBefore_cons, hpc]
      simp only [List.getElem?_cons_succ, addressAt_add] at hbehind ⊢
      exact hbehind

/-- Each row is told by its word and the words next to it. -/
theorem disassemble_getElem? (pc : Word) (ws : List Word) (n : Nat) :
    (disassemble pc ws)[n]? = ws[n]?.map fun w =>
      rowHead (addressAt pc n) w ++ rowRest (wordBefore none ws n) w ws[n + 1]? (addressAt pc n) :=
  disassemble_getElem?_of_before (fun _ _ => rfl) n

theorem disassemble_length (pc : Word) (ws : List Word) : (disassemble pc ws).length = ws.length := by
  have places : ∀ n, (disassemble pc ws).length ≤ n ↔ ws.length ≤ n := by
    intro n
    rw [← List.getElem?_eq_none_iff, ← List.getElem?_eq_none_iff, disassemble_getElem?, Option.map_eq_none_iff]
  have hrows := places ws.length
  have hwords := places (disassemble pc ws).length
  omega

theorem hexLower_isHex (w : Word) : Text.IsHex false w.toNat (Text.hexLower 8 w.toNat) := by
  have h := Text.fixedDigits_isHex 8 w.toNat
  have hpow : 16 ^ 8 = 2 ^ 32 := by norm_num
  rw [hpow, Nat.mod_eq_of_lt w.isLt] at h
  exact h

theorem rowHead_length (pc w : Word) : (rowHead pc w).length = 18 := by
  rw [rowHead, List.length_append, List.length_append, Text.hexUpper, List.length_map, Text.hexLower, Text.hexLower,
    Text.fixedDigits_length, Text.fixedDigits_length]
  rfl

/-! ## Pairs as they are shown -/

/-- The row loads a constant, by what it shows behind its columns. -/
def ShowsLoad (row : Text) : Prop := Text.startsWith "    li " (row.drop 18) = true

/-- The row is a note to the row before it. -/
def ShowsNote (row : Text) : Prop := Text.startsWith "     # (" (row.drop 18) = true

/-- Rows `n` and `n + 1` show two words as one constant. -/
def FoldedAt (rows : List Text) (n : Nat) : Prop :=
  ∃ a b, rows[n]? = some a ∧ rows[n + 1]? = some b ∧ ShowsLoad a ∧ ShowsNote b

/-- No word is rendered like the load of a constant. -/
theorem render_not_load (w pc : Word) : Text.startsWith "li " (w.render pc) = false := by
  have named : ∀ (op : BaseOp) (s : Text), Text.startsWith "li " (op.name ++ s) = false := by
    intro op s
    cases op <;> rfl
  unfold render
  split
  · rename_i i hi
    rw [Instruction.render, List.append_assoc]
    exact named i.op _
  · rfl

theorem rowRest_load {before after : Option Word} {w pc : Word}
    (h : Text.startsWith "    li " (rowRest before w after pc) = true) :
    ∃ v rd value, after = some v ∧ loadedConstant? w v = some (rd, value) := by
  unfold rowRest at h
  split at h
  · rename_i rd value hload
    obtain ⟨v, hv, hload⟩ := Option.bind_eq_some_iff.mp hload
    exact ⟨v, rd, value, hv, hload⟩
  · split at h
    · cases h
    · exact absurd (h.symm.trans (render_not_load w pc)) (by decide)

theorem drop_rowHead (pc w : Word) (rest : Text) : (rowHead pc w ++ rest).drop 18 = rest := by
  rw [← rowHead_length pc w, List.drop_left]

section Rows

variable {pc : Word} {ws : List Word} {n : Nat} {w v : Word}

/-- The row of the first word of a pair. -/
theorem row_load {rd : Reg} {value : Word} (hw : ws[n]? = some w) (hv : ws[n + 1]? = some v)
    (h : loadedConstant? w v = some (rd, value)) :
    (disassemble pc ws)[n]? = some (rowHead (addressAt pc n) w ++
      ("    li " ++ rd.name ++ ", 0x" ++ (Text.hexShort value.toNat).map Text.upperByte)) := by
  rw [disassemble_getElem?, hw, hv, Option.map_some, rowRest, Option.bind_some, h]

/-- The row of the second word of a pair. -/
theorem row_note {x : Reg × Word} (hw : ws[n]? = some w) (hv : ws[n + 1]? = some v)
    (h : loadedConstant? w v = some x) :
    (disassemble pc ws)[n + 1]? = some (rowHead (addressAt pc (n + 1)) v ++
      ("     # (" ++ v.render (addressAt pc (n + 1)) ++ ")")) := by
  have hnext : ws[n + 1 + 1]?.bind (loadedConstant? v) = none := by
    cases ws[n + 1 + 1]? with
    | none => rfl
    | some u => exact loadedConstant?_next h u
  rw [disassemble_getElem?, hv, Option.map_some, rowRest, hnext, wordBefore, hw, Option.bind_some, h]

/-- Rows are shown as a constant exactly if their words load one. -/
theorem foldedAt_iff :
    FoldedAt (disassemble pc ws) n ↔ ∃ w v rd, ws[n]? = some w ∧ ws[n + 1]? = some v ∧ LoadsInto w v rd := by
  constructor
  · intro h
    obtain ⟨a, _, ha, _, hload, _⟩ := h
    rw [disassemble_getElem?] at ha
    obtain ⟨w, hw, rfl⟩ := Option.map_eq_some_iff.mp ha
    rw [ShowsLoad, drop_rowHead] at hload
    obtain ⟨v, rd, value, hv, hpair⟩ := rowRest_load hload
    exact ⟨w, v, rd, hw, hv, loadsInto_of_loadedConstant? hpair⟩
  · intro h
    obtain ⟨w, v, rd, hw, hv, hpair⟩ := h
    obtain ⟨value, hpair⟩ := hpair.loadedConstant?
    refine ⟨_, _, row_load hw hv hpair, row_note hw hv hpair, ?_, ?_⟩
    · rw [ShowsLoad, drop_rowHead]
      rfl
    · rw [ShowsNote, drop_rowHead]
      rfl

/-- The row of a word in no pair. -/
theorem row_plain (hw : ws[n]? = some w) (hn : ¬ FoldedAt (disassemble pc ws) n)
    (hbefore : ∀ k, n = k + 1 → ¬ FoldedAt (disassemble pc ws) k) :
    (disassemble pc ws)[n]? = some (rowHead (addressAt pc n) w ++ ("    " ++ w.render (addressAt pc n))) := by
  have hnone : ∀ (k : Nat) (u v : Word), ws[k]? = some u → ws[k + 1]? = some v → ¬ FoldedAt (disassemble pc ws) k →
      loadedConstant? u v = none := by
    intro k u v hu hv hk
    cases hpair : loadedConstant? u v with
    | none => rfl
    | some x => exact absurd (foldedAt_iff.mpr ⟨u, v, x.1, hu, hv, loadsInto_of_loadedConstant? hpair⟩) hk
  have hafter : ws[n + 1]?.bind (loadedConstant? w) = none := by
    cases hv : ws[n + 1]? with
    | none => rfl
    | some v => exact hnone n w v hw hv hn
  have hfront : (wordBefore none ws n).bind (loadedConstant? · w) = none := by
    cases n with
    | zero => rfl
    | succ k =>
      cases hu : wordBefore none ws (k + 1) with
      | none => rfl
      | some u => exact hnone k u w hu hw (hbefore k rfl)
  rw [disassemble_getElem?, hw, Option.map_some, rowRest, hafter, hfront]

end Rows

/-- What a disassembly says of a list of words. -/
structure Accounts (base : Word) (ws : List Word) (rows : List Text) : Prop where
  length : rows.length = ws.length
  /-- A row starts with its address and its word. -/
  columns : ∀ n w, ws[n]? = some w → ∃ address word rest : Text, rows[n]? = some (address ++ ": " ++ word ++ rest) ∧
    address.length = 8 ∧ Text.IsHex true ((base.toNat + 4 * n) % 2 ^ 32) address ∧
    word.length = 8 ∧ Text.IsHex false w.toNat word
  /-- Two rows are folded exactly if their words load a constant. -/
  folded : ∀ n, FoldedAt rows n ↔ ∃ w v rd, ws[n]? = some w ∧ ws[n + 1]? = some v ∧ LoadsInto w v rd
  /-- No word is in two pairs. -/
  apart : ∀ n k j, FoldedAt rows n → FoldedAt rows k → (j = n ∨ j = n + 1) → (j = k ∨ j = k + 1) → n = k
  /-- The constant shown is what the register holds when the two words have been run; the addition is in the note. -/
  constant : ∀ n w v rd, ws[n]? = some w → ws[n + 1]? = some v → LoadsInto w v rd →
    ∃ (value : Word) (digits : Text), Text.IsHex true value.toNat digits ∧
      rows[n]? = some (rowHead (addressAt base n) w ++ ("    li " ++ rd.name ++ ", 0x" ++ digits)) ∧
      rows[n + 1]? = some (rowHead (addressAt base (n + 1)) v ++
        ("     # (" ++ v.render (addressAt base (n + 1)) ++ ")")) ∧
      (rd ≠ 0 → ∀ (mem : Word → Word) (m : Machine), Machine.Holds mem m.pc [w, v] →
        ∃ m', Machine.run mem 2 m = some m' ∧ m'.read rd = value)
  /-- A row that is not folded shows its word. -/
  plain : ∀ n w, ws[n]? = some w → ¬ FoldedAt rows n → (∀ k, n = k + 1 → ¬ FoldedAt rows k) →
    rows[n]? = some (rowHead (addressAt base n) w ++ ("    " ++ w.render (addressAt base n)))

/-- A disassembly accounts for every word, whatever the words are. -/
theorem disassemble_accounts (base : Word) (ws : List Word) : Accounts base ws (disassemble base ws) where
  length := disassemble_length base ws
  columns := by
    intro n w hw
    have hrow := disassemble_getElem? base ws n
    rw [hw, Option.map_some, rowHead] at hrow
    refine ⟨_, _, _, hrow, ?_, ?_, ?_, ?_⟩
    · rw [Text.hexUpper, List.length_map, Text.hexLower, Text.fixedDigits_length]
    · rw [← addressAt_toNat]
      exact (hexLower_isHex (addressAt base n)).upper
    · exact Text.fixedDigits_length 16 8 w.toNat
    · exact hexLower_isHex w
  folded := fun _ => foldedAt_iff
  apart := by
    -- the second word of one pair would be the first of another
    have next : ∀ n, FoldedAt (disassemble base ws) n → ¬ FoldedAt (disassemble base ws) (n + 1) := by
      intro n h h'
      obtain ⟨w, v, rd, _, hv, hpair⟩ := foldedAt_iff.mp h
      obtain ⟨v', u, rd', hv', _, hpair'⟩ := foldedAt_iff.mp h'
      rw [hv, Option.some.injEq] at hv'
      subst hv'
      obtain ⟨value, hpair⟩ := hpair.loadedConstant?
      obtain ⟨value', hpair'⟩ := hpair'.loadedConstant?
      rw [loadedConstant?_next hpair u] at hpair'
      cases hpair'
    intro n k j hn hk hjn hjk
    by_cases hlow : k = n + 1
    · exact absurd (hlow ▸ hk) (next n hn)
    · by_cases hhigh : n = k + 1
      · exact absurd (hhigh ▸ hn) (next k hk)
      · omega
  constant := by
    intro n w v rd hw hv hpair
    obtain ⟨value, hpair⟩ := hpair.loadedConstant?
    refine ⟨value, _, (Text.hexShort_isHex value.toNat).upper, row_load hw hv hpair, row_note hw hv hpair, ?_⟩
    intro hrd mem m hm
    obtain ⟨rfl, rfl⟩ := loadedConstant?_eq_some hpair
    obtain ⟨m', hrun, _, hread, _⟩ := Machine.ends_lui_addi hrd hm
    exact ⟨m', hrun, hread⟩
  plain := fun _ _ => row_plain

/-- Two words that load a constant over the end of the address space, and a word that is no instruction. -/
theorem disassemble_accounts_wrapped :
    FoldedAt (disassemble 0xFFFFFFFC [0x00001537, 0xFFF50513, 0]) 0 ∧
      ¬ FoldedAt (disassemble 0xFFFFFFFC [0x00001537, 0xFFF50513, 0]) 1 ∧
      (disassemble 0xFFFFFFFC [0x00001537, 0xFFF50513, 0])[2]? =
        some (rowHead 4 0 ++ ("    " ++ Word.render 0 4)) := by
  have h := disassemble_accounts 0xFFFFFFFC [0x00001537, 0xFFF50513, 0]
  have hload : FoldedAt (disassemble 0xFFFFFFFC [0x00001537, 0xFFF50513, 0]) 0 :=
    (h.folded 0).mpr ⟨_, _, 10, rfl, rfl, ⟨⟨_, rfl, rfl, rfl⟩, ⟨_, rfl, rfl, rfl, rfl⟩⟩⟩
  have hnext : ¬ FoldedAt (disassemble 0xFFFFFFFC [0x00001537, 0xFFF50513, 0]) 1 :=
    fun hf => absurd (h.apart 0 1 1 hload hf (.inr rfl) (.inl rfl)) (by decide)
  have hend : ¬ FoldedAt (disassemble 0xFFFFFFFC [0x00001537, 0xFFF50513, 0]) 2 := by
    intro hf
    obtain ⟨w, v, rd, _, hv, _⟩ := (h.folded 2).mp hf
    cases hv
  refine ⟨hload, hnext, h.plain 2 0 rfl hend fun k hk hf => hnext ?_⟩
  have hone : k = 1 := by omega
  exact hone ▸ hf

end Rv32Tools.Word
