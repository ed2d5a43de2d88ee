import Rv32Tools.Assembly.Sections

/-
  Rv32Tools.Proofs.Assembly.Sections — where the bodies of segments can lie.

  A base address is a multiple of four, since `.org` rounds it up (`orgAddress_ok`) and it is 0 until then. The body
  of a segment starts after the lines that opened it, the data segment ends where the text segment is opened, and the
  text segment ends with the source. `Scan.Bounded` says so of a scan that has come to line `i`; each step keeps it
  (`step_bounded`), and so every source whose sections are found has its segments inside its lines (`ofLines_ok`).
  Lines are numbered from 1 on (`numbered_getElem?`).

  Once the text segment has its base, a line can only be passed over or end the run: whatever comes, the segments stay
  where they are (`scan_inText`, `ofLines_inText`). A run that goes on has passed over lines without `.section` or `.org`
  only (`ordinary_of_ofLines`), and any such lines will do (`ofLines_ordinary`). Another base moves the text segment and
  nothing else (`ofLines_org`).
-/

namespace Rv32Tools

/-! ## The lines of a source -/

namespace Source.Line

theorem ofRaw_number (number : Nat) (raw : Text) : (ofRaw number raw).number = number := by
  unfold ofRaw
  simp only
  split
  · rfl
  · split
    · rfl
    · split <;> rfl

theorem numbered_getElem? {raws : List Text} {number i : Nat} {l : Line} (h : (numbered number raws)[i]? = some l) :
    l.number = number + i := by
  induction raws generalizing number i with
  | nil => simp [numbered] at h
  | cons raw raws ih =>
    cases i with
    | zero =>
      simp only [numbered, List.getElem?_cons_zero, Option.some.injEq] at h
      rw [← h, ofRaw_number, Nat.add_zero]
    | succ i =>
      simp only [numbered, List.getElem?_cons_succ] at h
      rw [ih h]
      omega

theorem ofSource_increasing (source : Text) : (ofSource source).Pairwise (fun l l' => l.number < l'.number) := by
  rw [List.pairwise_iff_getElem]
  intro i j hi hj hij
  have hi' := numbered_getElem? (List.getElem?_eq_getElem hi)
  have hj' := numbered_getElem? (List.getElem?_eq_getElem hj)
  omega

theorem numbered_append (number : Nat) (raws raws' : List Text) :
    numbered number (raws ++ raws') = numbered number raws ++ numbered (number + raws.length) raws' := by
  induction raws generalizing number with
  | nil => rfl
  | cons raw raws ih =>
    simp only [List.cons_append, numbered, ih, List.length_cons]
    rw [Nat.add_assoc, Nat.add_comm 1]

@[simp] theorem numbered_length (number : Nat) (raws : List Text) : (numbered number raws).length = raws.length := by
  induction raws generalizing number with
  | nil => rfl
  | cons raw raws ih => simp only [numbered, List.length_cons, ih]

/-- The lines of a source around one of them. -/
theorem ofSource_of_rawLines {source raw : Text} {before after : List Text}
    (h : rawLines source = before ++ raw :: after) :
    ofSource source = numbered 1 before ++ ofRaw (before.length + 1) raw :: numbered (before.length + 2) after := by
  rw [ofSource, h, numbered_append, numbered, Nat.add_comm 1]

theorem directive?_of_isBlank {l : Line} (h : l.isBlank = true) : l.directive? = none := by
  have ht : l.text = [] := by simpa [isBlank] using h
  rw [directive?, statement, ht]
  decide

theorem isBlank_of_directive? {l : Line} {name : Text} (h : l.directive? = some name) : l.isBlank = false := by
  cases hb : l.isBlank with
  | false => rfl
  | true =>
    rw [directive?_of_isBlank hb] at h
    cases h

/-- Whether the line tells nothing about where segments lie. -/
def isOrdinary (l : Line) : Bool :=
  match l.directive? with
  | some name => name != ".section" && name != ".org"
  | none => true

theorem isOrdinary_of_none {l : Line} (h : l.directive? = none) : l.isOrdinary = true := by
  rw [isOrdinary, h]

end Source.Line

namespace Assembly

open Source (Line)

/-- A region that ends before a line does not see what is there. -/
theorem Region.lines_of_stop_le {r : Region} {ls : List Line} (h : r.stop ≤ ls.length) (ls' : List Line) :
    r.lines (ls ++ ls') = r.lines ls := by
  rw [lines, lines, List.take_append_of_le_length h]

/-- A region that goes on to the end has all lines behind its start. -/
theorem Region.lines_of_start_le {r : Region} {ls ls' : List Line} (h : r.start ≤ ls.length)
    (hstop : r.stop = (ls ++ ls').length) : r.lines (ls ++ ls') = ls.drop r.start ++ ls' := by
  rw [lines, hstop, List.take_length, List.drop_append_of_le_length h]

theorem Region.lines_sublist (r : Region) (ls : List Line) : (r.lines ls).Sublist ls :=
  (List.drop_sublist _ _).trans (List.take_sublist _ _)

/-- The region lies inside `count` lines, at a base that instructions can have. -/
structure Region.Within (r : Region) (count : Nat) : Prop where
  base : r.base.toNat % 4 = 0
  order : r.start ≤ r.stop
  stop : r.stop ≤ count

namespace Sections

/-! ## Finding the sections -/

theorem orgAddress_ok {l : Line} {written rounded : Nat} (h : orgAddress l = .ok (written, rounded)) :
    rounded % 4 = 0 ∧ rounded ≤ 0xFFFFFFFF := by
  unfold orgAddress at h
  split at h
  · split at h
    · cases h
    · cases h
    · split at h
      · cases h
      · simp only at h
        split at h
        · rename_i v _ hr
          cases h
          exact ⟨Nat.mul_mod_left _ 4, hr⟩
        · cases h
  · cases h

/-- Where the segments of a scan at line `i` can lie. -/
structure Scan.Bounded (s : Scan) (i : Nat) : Prop where
  textBase : ∀ r, s.text = some r → r.base.toNat % 4 = 0
  textStart : ∀ r, s.text = some r → r.start ≤ i
  dataBase : ∀ r, s.data = some r → r.base.toNat % 4 = 0
  dataStart : ∀ r, s.data = some r → r.start ≤ i
  dataStop : ∀ r, s.data = some r → s.text.isSome = true → r.start ≤ r.stop ∧ r.stop ≤ i
  -- a data segment is not opened after the text segment, so its base is not awaited then either
  dataFirst : ∀ line, s.stage = .awaitingOrg .data line → s.text = none

theorem Scan.Bounded.start : Scan.Bounded {} 0 := by
  constructor <;> simp

theorem Scan.Bounded.skip {s : Scan} {i : Nat} (h : s.Bounded i) : s.Bounded (i + 1) where
  textBase := h.textBase
  textStart r hr := Nat.le_succ_of_le (h.textStart r hr)
  dataBase := h.dataBase
  dataStart r hr := Nat.le_succ_of_le (h.dataStart r hr)
  dataStop r hr ht := ⟨(h.dataStop r hr ht).1, Nat.le_succ_of_le (h.dataStop r hr ht).2⟩
  dataFirst := h.dataFirst

theorem openSection_bounded {s s' : Scan} {i : Nat} {l : Line} (hs : s.Bounded i)
    (h : openSection s i l = .ok s') : s'.Bounded (i + 1) := by
  unfold openSection at h
  split at h
  · cases h
  · split at h
    · cases h
    · split at h
      · cases h
      · split at h
        · cases h
        · split at h
          · cases h
          · rename_i ht
            cases h
            have hnone : s.text = none := by simpa using ht
            constructor <;> simp [hnone]
      · split at h
        · cases h
        · cases h
          have hd : ∀ r, (s.data.map fun r => { r with stop := i }) = some r →
              r.base.toNat % 4 = 0 ∧ r.start ≤ i ∧ r.stop = i := by
            intro r hr
            obtain ⟨r₀, hr₀, rfl⟩ := Option.map_eq_some_iff.mp hr
            exact ⟨hs.dataBase r₀ hr₀, hs.dataStart r₀ hr₀, rfl⟩
          constructor
          · simp
          · simp
          · exact fun r hr => (hd r hr).1
          · exact fun r hr => Nat.le_succ_of_le (hd r hr).2.1
          · intro r hr _
            obtain ⟨_, h1, h2⟩ := hd r hr
            omega
          · simp
    · cases h

theorem setOrg_bounded {s s' : Scan} {i : Nat} {l : Line} (hs : s.Bounded i) (h : setOrg s i l = .ok s') :
    s'.Bounded (i + 1) := by
  unfold setOrg at h
  split at h
  · rename_i kind line hstage
    split at h
    · cases h
    · split at h
      · cases h
      · rename_i written rounded horg
        obtain ⟨hmod, hle⟩ := orgAddress_ok horg
        have hbase : (BitVec.ofNat 32 rounded).toNat % 4 = 0 := by
          rw [BitVec.toNat_ofNat]
          omega
        simp only at h
        cases kind with
        | data =>
          cases h
          have hnone := hs.dataFirst line hstage
          constructor
          · simp [hnone]
          · simp [hnone]
          · simp only [Option.map_eq_some_iff]
            rintro _ ⟨r, _, rfl⟩
            exact hbase
          · simp only [Option.map_eq_some_iff]
            rintro _ ⟨r, _, rfl⟩
            exact Nat.le_refl _
          · simp [hnone]
          · simp
        | text =>
          cases h
          constructor
          · simp only [Option.map_eq_some_iff]
            rintro _ ⟨r, _, rfl⟩
            exact hbase
          · simp only [Option.map_eq_some_iff]
            rintro _ ⟨r, _, rfl⟩
            exact Nat.le_refl _
          · exact hs.dataBase
          · exact hs.skip.dataStart
          · simpa using hs.skip.dataStop
          · simp
  · cases h

theorem step_bounded {s s' : Scan} {i : Nat} {l : Line} (hs : s.Bounded i) (h : step s i l = .ok s') :
    s'.Bounded (i + 1) := by
  have ordinary : step.ordinary s l = .ok s' → s'.Bounded (i + 1) := by
    intro h
    unfold step.ordinary at h
    split at h
    · cases h
    · cases h
    · cases h; exact hs.skip
  unfold step at h
  split at h
  · split at h
    · exact openSection_bounded hs h
    · split at h
      · exact setOrg_bounded hs h
      · exact ordinary h
  · exact ordinary h

theorem scan_bounded {s s' : Scan} {i : Nat} {ls : List Line} (hs : s.Bounded i) (h : scan s i ls = (s', none)) :
    s'.Bounded (i + ls.length) := by
  induction ls generalizing s i with
  | nil => cases h; exact hs
  | cons l ls ih =>
    rw [List.length_cons, Nat.add_comm ls.length, ← Nat.add_assoc]
    simp only [scan] at h
    split at h
    · exact ih hs.skip h
    · split at h
      · rename_i hstep
        exact ih (step_bounded hs hstep) h
      · cases h

theorem ofLines_ok {ls : List Line} {sections : Sections} (h : (ofLines ls).2 = .ok sections) :
    sections.text.Within ls.length ∧ sections.text.stop = ls.length ∧
      ∀ r, sections.data = some r → r.Within ls.length := by
  unfold ofLines at h
  rcases hscan : scan {} 0 ls with ⟨s, fault | e⟩
  · have hs := scan_bounded .start hscan
    rw [Nat.zero_add] at hs
    simp only [hscan] at h
    unfold finish at h
    split at h
    · cases h
    · cases h
    · rename_i text ht _
      cases h
      refine ⟨⟨hs.textBase text ht, hs.textStart text ht, Nat.le_refl _⟩, rfl, fun r hr => ?_⟩
      obtain ⟨ho, hstop⟩ := hs.dataStop r hr (by rw [ht]; rfl)
      exact ⟨hs.dataBase r hr, ho, hstop⟩
  · simp only [hscan] at h
    cases h

/-! ## Behind the base of the text segment -/

theorem scan_append (s : Scan) (i : Nat) (ls ls' : List Line) :
    scan s i (ls ++ ls') =
      match scan s i ls with
      | (s', none) => scan s' (i + ls.length) ls'
      | (s', some e) => (s', some e) := by
  induction ls generalizing s i with
  | nil => rfl
  | cons l ls ih =>
    have hlen : i + 1 + ls.length = i + (l :: ls).length := by rw [List.length_cons]; omega
    simp only [List.cons_append, scan]
    split
    · rw [ih, hlen]
    · cases step s i l with
      | ok s₁ => simp only [ih, hlen]
      | error e => rfl

/-- The text segment has its base. -/
structure Scan.InText (s : Scan) : Prop where
  stage : s.stage = .inBody
  text : s.text.isSome = true

/-- A line behind the base of the text segment changes nothing or is at fault, wherever the segments lie. -/
theorem step_inText {s s' : Scan} (hs : s.InText) (hs' : s'.InText) (hd : s.data.isSome = s'.data.isSome) (i : Nat)
    (l : Line) :
    l.isOrdinary = true ∧ step s i l = .ok s ∧ step s' i l = .ok s' ∨
      ∃ e, step s i l = .error e ∧ step s' i l = .error e := by
  have sections : ∃ e, openSection s i l = .error e ∧ openSection s' i l = .error e := by
    unfold openSection
    simp only [hs.stage, hs'.stage, hs.text, hs'.text, hd, if_true]
    repeat' split
    all_goals exact ⟨_, rfl, rfl⟩
  have org : ∃ e, setOrg s i l = .error e ∧ setOrg s' i l = .error e := by
    unfold setOrg
    simp only [hs.stage, hs'.stage]
    exact ⟨_, rfl, rfl⟩
  have ordinary : step.ordinary s l = .ok s ∧ step.ordinary s' l = .ok s' := by
    unfold step.ordinary
    simp only [hs.stage, hs'.stage, and_self]
  unfold step
  split
  · rename_i name hname
    split
    · exact Or.inr sections
    · rename_i hsection
      split
      · exact Or.inr org
      · rename_i horg
        refine Or.inl ⟨?_, ordinary⟩
        simp only [Line.isOrdinary, hname, bne, hsection, horg]
        rfl
  · rename_i hname
    exact Or.inl ⟨Line.isOrdinary_of_none hname, ordinary⟩

theorem scan_inText {s s' : Scan} (hs : s.InText) (hs' : s'.InText) (hd : s.data.isSome = s'.data.isSome) (i : Nat)
    (ls : List Line) : ∃ fault, scan s i ls = (s, fault) ∧ scan s' i ls = (s', fault) := by
  induction ls generalizing i with
  | nil => exact ⟨none, rfl, rfl⟩
  | cons l ls ih =>
    simp only [scan]
    split
    · exact ih (i + 1)
    · rcases step_inText hs hs' hd i l with ⟨_, h, h'⟩ | ⟨e, h, h'⟩
      · simp only [h, h']
        exact ih (i + 1)
      · simp only [h, h']
        exact ⟨some e, rfl, rfl⟩

/-- Lines that tell nothing about segments stand in the body of one as they are. -/
theorem scan_ordinary {s : Scan} (hs : s.stage = .inBody) (i : Nat) {ls : List Line}
    (h : ∀ l ∈ ls, l.isOrdinary = true) : scan s i ls = (s, none) := by
  induction ls generalizing i with
  | nil => rfl
  | cons l ls ih =>
    have hl : step s i l = .ok s := by
      have ho := h l List.mem_cons_self
      unfold Line.isOrdinary at ho
      unfold step
      split
      · rename_i name hname
        simp only [hname, Bool.and_eq_true, bne_iff_ne] at ho
        rw [if_neg (by simpa using ho.1), if_neg (by simpa using ho.2)]
        simp only [step.ordinary, hs]
      · simp only [step.ordinary, hs]
    have rest := ih (i + 1) fun l' hl' => h l' (List.mem_cons_of_mem _ hl')
    simp only [scan, hl, rest, ite_self]

/-- Behind the base of the text segment, a line that tells about segments is at fault. -/
theorem ordinary_of_scan {s : Scan} (hs : s.InText) (i : Nat) {ls : List Line} (h : (scan s i ls).2 = none) :
    ∀ l ∈ ls, l.isOrdinary = true := by
  induction ls generalizing i with
  | nil => simp
  | cons l ls ih =>
    have both : l.isOrdinary = true ∧ (scan s (i + 1) ls).2 = none := by
      simp only [scan] at h
      by_cases hb : l.isBlank = true
      · rw [if_pos hb] at h
        exact ⟨Line.isOrdinary_of_none (Line.directive?_of_isBlank hb), h⟩
      · rw [if_neg hb] at h
        rcases step_inText hs hs rfl i l with ⟨ho, hok, _⟩ | ⟨e, herror, _⟩
        · rw [hok] at h
          exact ⟨ho, h⟩
        · rw [herror] at h
          cases h
    intro l' hl'
    rcases List.mem_cons.mp hl' with rfl | hl'
    · exact both.1
    · exact ih (i + 1) both.2 l' hl'

/-- A line without a directive that stands in a segment has no part in where the segments lie. -/
theorem ofLines_exchange {ls ls' : List Line} {l l' : Line} {s : Scan} (h : scan {} 0 ls = (s, none))
    (hs : s.stage = .inBody) (hl : l.directive? = none) (hl' : l'.directive? = none) :
    ofLines (ls ++ l :: ls') = ofLines (ls ++ l' :: ls') := by
  have behind : ∀ l : Line, l.directive? = none →
      scan {} 0 (ls ++ l :: ls') = scan s (0 + ls.length + [l].length) ls' := by
    intro l hl
    have one : scan s (0 + ls.length) [l] = (s, none) := scan_ordinary hs _ (by simpa using Line.isOrdinary_of_none hl)
    rw [scan_append, h]
    show scan s (0 + ls.length) ([l] ++ ls') = _
    rw [scan_append, one]
  unfold ofLines
  rw [behind l hl, behind l' hl']
  simp only [List.length_append, List.length_cons, List.length_nil]

/-- The lines end inside the text segment. -/
def EndsInText (ls : List Line) : Prop := (scan {} 0 ls).2 = none ∧ (scan {} 0 ls).1.InText

/-- The segments of a source are known as soon as the text segment has its base. -/
theorem ofLines_inText {ls ls' : List Line} {s : Scan} (h : scan {} 0 ls = (s, none)) (hs : s.InText)
    {sections : Sections} (hok : (ofLines (ls ++ ls')).2 = .ok sections) :
    sections.text.start ≤ ls.length ∧ sections.text.stop = (ls ++ ls').length ∧
      ∀ r, sections.data = some r → r.stop ≤ ls.length := by
  have hb := scan_bounded .start h
  rw [Nat.zero_add] at hb
  obtain ⟨fault, hscan, _⟩ := scan_inText hs hs rfl (0 + ls.length) ls'
  unfold ofLines at hok
  rw [scan_append, h] at hok
  simp only [hscan] at hok
  cases fault with
  | some e => cases hok
  | none =>
    obtain ⟨text, htext⟩ := Option.isSome_iff_exists.mp hs.text
    simp only [finish, hs.stage, htext, Except.ok.injEq] at hok
    subst hok
    exact ⟨hb.textStart text htext, rfl, fun r hr => (hb.dataStop r hr hs.text).2⟩

/-- The segments of a source whose lines behind the base of the text segment tell nothing about segments. -/
theorem ofLines_ordinary {ls ls' : List Line} {s : Scan} (h : scan {} 0 ls = (s, none)) (hs : s.stage = .inBody)
    {text : Region} (ht : s.text = some text) (ho : ∀ l ∈ ls', l.isOrdinary = true) :
    (ofLines (ls ++ ls')).2 = .ok ⟨s.data, { text with stop := (ls ++ ls').length }⟩ := by
  unfold ofLines
  rw [scan_append, h]
  simp only [scan_ordinary hs _ ho, finish, hs, ht]

theorem ordinary_of_ofLines {ls ls' : List Line} {s : Scan} (h : scan {} 0 ls = (s, none)) (hs : s.InText)
    {sections : Sections} (hok : (ofLines (ls ++ ls')).2 = .ok sections) : ∀ l ∈ ls', l.isOrdinary = true := by
  refine ordinary_of_scan hs (0 + ls.length) ?_
  unfold ofLines at hok
  rw [scan_append, h] at hok
  simp only at hok
  split at hok
  · cases hok
  · rename_i hscan
    rw [hscan]

/-! ## The base of the text segment -/

/-- The text segment is there while its base is awaited. -/
def Scan.Opened (s : Scan) : Prop := ∀ line, s.stage = .awaitingOrg .text line → s.text.isSome = true

theorem step_opened {s s' : Scan} {i : Nat} {l : Line} (h : step s i l = .ok s') : s'.Opened := by
  have ordinary : step.ordinary s l = .ok s' → s'.Opened := by
    intro h
    unfold step.ordinary at h
    split at h
    · cases h
    · cases h
    · rename_i hb
      cases h
      intro line hline
      rw [hb] at hline
      cases hline
  unfold step at h
  split at h
  · split at h
    · unfold openSection at h
      grind [Scan.Opened]
    · split at h
      · unfold setOrg at h
        grind [Scan.Opened]
      · exact ordinary h
  · exact ordinary h

theorem scan_opened {s s' : Scan} {i : Nat} {ls : List Line} (hs : s.Opened) (h : scan s i ls = (s', none)) :
    s'.Opened := by
  induction ls generalizing s i with
  | nil =>
    cases h
    exact hs
  | cons l ls ih =>
    simp only [scan] at h
    split at h
    · exact ih hs h
    · split at h
      · rename_i s₁ h₁
        exact ih (step_opened h₁) h
      · cases h

/-- The lines end where the base of the text segment is awaited. -/
def AwaitsText (ls : List Line) : Prop :=
  (scan {} 0 ls).2 = none ∧ ∃ line, (scan {} 0 ls).1.stage = .awaitingOrg .text line

/-- Two lines in one place that set a base, a multiple of four each, and differ in nothing else. -/
structure OrgLines (l l' : Line) (base base' : Nat) : Prop where
  number : l.number = l'.number
  directive : l.directive? = some (".org" : Text) ∧ l'.directive? = some (".org" : Text)
  label : l.statement.label = l'.statement.label
  address : orgAddress l = .ok (base, base) ∧ orgAddress l' = .ok (base', base')

/-- The scan with the base of its text segment set at line `i`. -/
def Scan.withBase (s : Scan) (i base : Nat) : Scan :=
  { s with stage := .inBody, text := s.text.map fun r => { r with base := BitVec.ofNat 32 base, start := i + 1 } }

theorem step_org {s : Scan} {line i base : Nat} {l : Line} (hs : s.stage = .awaitingOrg .text line)
    (hd : l.directive? = some (".org" : Text)) (ha : orgAddress l = .ok (base, base)) :
    step s i l =
      if l.statement.label ≠ [] then .error ⟨l.number, .labelOnOrg l.statement.label⟩ else .ok (s.withBase i base) := by
  have hname : (Text.ofString ".org" == ".section") = false := by decide +kernel
  simp only [step, hd, hname, setOrg, hs, ha, Scan.withBase, beq_self_eq_true, if_true, Bool.false_eq_true, if_false]

/-- A scan goes on behind the line that sets the base of the text segment. -/
theorem scan_org {ls : List Line} {l : Line} {s : Scan} {line base : Nat} (hscan : scan {} 0 ls = (s, none))
    (hs : s.stage = .awaitingOrg .text line) (hd : l.directive? = some (".org" : Text))
    (ha : orgAddress l = .ok (base, base)) (ls' : List Line) :
    scan {} 0 (ls ++ l :: ls') =
      if l.statement.label ≠ [] then (s, some ⟨l.number, .labelOnOrg l.statement.label⟩)
      else scan (s.withBase ls.length base) (0 + ls.length + 1) ls' := by
  have hb := Line.isBlank_of_directive? hd
  rw [scan_append, hscan]
  simp only [scan, hb, Bool.false_eq_true, if_false, Nat.zero_add, step_org hs hd ha]
  by_cases hl : l.statement.label = []
  · simp only [hl, ne_eq, not_true_eq_false, if_false]
  · simp only [hl, ne_eq, not_false_eq_true, if_true]

/-- Setting another base moves the text segment and nothing else. -/
theorem ofLines_org {ls ls' : List Line} {l l' : Line} {base base' : Nat} (h : AwaitsText ls)
    (hl : OrgLines l l' base base') :
    (ofLines (ls ++ l :: ls')).1 = (ofLines (ls ++ l' :: ls')).1 ∧
      ((∃ e, (ofLines (ls ++ l :: ls')).2 = .error e ∧ (ofLines (ls ++ l' :: ls')).2 = .error e) ∨
        ∃ data, (ofLines (ls ++ l :: ls')).2 =
            .ok ⟨data, ⟨BitVec.ofNat 32 base, ls.length + 1, ls.length + 1 + ls'.length⟩⟩ ∧
          (ofLines (ls ++ l' :: ls')).2 =
            .ok ⟨data, ⟨BitVec.ofNat 32 base', ls.length + 1, ls.length + 1 + ls'.length⟩⟩ ∧
          ∀ r, data = some r → r.stop ≤ ls.length) := by
  obtain ⟨hnone, line, hstage⟩ := h
  obtain ⟨s, hscan⟩ : ∃ s, scan {} 0 ls = (s, none) := ⟨_, Prod.ext rfl hnone⟩
  rw [hscan] at hstage
  have hopen : Scan.Opened {} := fun line hline => by cases hline
  have htext := scan_opened hopen hscan line hstage
  have hbound := scan_bounded .start hscan
  rw [Nat.zero_add] at hbound
  have hin : ∀ base, (s.withBase ls.length base).InText := by
    intro base
    exact ⟨rfl, by simpa [Scan.withBase] using htext⟩
  obtain ⟨fault, hrest, hrest'⟩ := scan_inText (hin base) (hin base') rfl (0 + ls.length + 1) ls'
  -- up to the line both scans are the same, and behind it neither changes
  have hscans := scan_org hscan hstage hl.directive.1 hl.address.1 ls'
  have hscans' := scan_org hscan hstage hl.directive.2 hl.address.2 ls'
  rw [← hl.label, ← hl.number] at hscans'
  unfold ofLines
  rw [hscans, hscans']
  by_cases hlabel : l.statement.label = []
  · rw [if_neg (not_not_intro hlabel), if_neg (not_not_intro hlabel), hrest, hrest']
    refine ⟨by cases fault <;> rfl, ?_⟩
    cases fault with
    | some e => exact Or.inl ⟨e, rfl, rfl⟩
    | none =>
      obtain ⟨r, hr⟩ := Option.isSome_iff_exists.mp htext
      refine Or.inr ⟨s.data, ?_, ?_, fun r' hr' => (hbound.dataStop r' hr' htext).2⟩
      · simp [finish, Scan.withBase, hr, Nat.add_assoc, Nat.add_comm 1]
      · simp [finish, Scan.withBase, hr, Nat.add_assoc, Nat.add_comm 1]
  · rw [if_pos hlabel, if_pos hlabel]
    exact ⟨rfl, Or.inl ⟨_, rfl, rfl⟩⟩

end Sections

end Assembly

end Rv32Tools
