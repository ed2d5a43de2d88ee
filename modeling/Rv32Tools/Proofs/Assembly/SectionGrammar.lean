import Rv32Tools.Proofs.Assembly.Sections
import Rv32Tools.Proofs.Text.Digits

/-
  Rv32Tools.Proofs.Assembly.SectionGrammar — the sources whose sections are found, and where they are cut.

  A section is a `.section` line with its name, an `.org` line with its address, and a body without lines of either kind
  (`Part`). A source is in order if its lines that are not blank are at most one section for data and then one for text
  (`Outline`).

  A line is taken in three ways only: it opens a section, it gives a base that is awaited, or it stands in a body
  (`step_eq_ok_iff`). So
  - a section is taken as a whole, wherever blank lines stand in it (`scan_part`), and the sections of a source in order
    can be written down (`ofLines_outline`);
  - a scan that comes to its end meets a header, its base and a body each time (`header_of_scan`, `org_of_scan`,
    `body_of_scan`), and in the end the lines of an outline (`outline_of_ofLines`).

  `sections_follow_outline` puts the two together.
-/

namespace Rv32Tools.Assembly

open Source (Line)
open Text (Digit)

namespace Sections

/-! ## Lines about sections -/

/-- The line opens a section: it has no label, and the name of the section behind `.section`, both in any case. -/
structure Opens (kind : SectionKind) (l : Line) : Prop where
  label : l.statement.label = []
  directive : l.directive? = some (Text.ofString ".section")
  words : ∃ first name, l.words = [first, name] ∧ Text.toLower name = kind.name

/-- An address rounded up to a multiple of four. -/
def aligned (address : Nat) : Nat := (address + 3) / 4 * 4

/-- The line gives a base: it has no label, and a hexadecimal number of 32 bits behind `.org`, also when rounded up. -/
structure SetsBase (l : Line) (address : Nat) : Prop where
  label : l.statement.label = []
  directive : l.directive? = some (Text.ofString ".org")
  words : ∃ first capital, ∃ digits : List (Digit 16), digits ≠ [] ∧ Digit.number digits = address ∧
    l.words = [first, Text.hexNumeral capital (digits.map Digit.byte)]
  bound : address < addressSpace
  alignable : aligned address < addressSpace

theorem kindOf?_eq_some_iff {argument : Text} {kind : SectionKind} :
    kindOf? argument = some kind ↔ Text.toLower argument = kind.name := by
  have hne : SectionKind.data.name ≠ SectionKind.text.name := by decide +kernel
  unfold kindOf?
  by_cases hdata : Text.toLower argument = SectionKind.data.name
  · cases kind with
    | data => simp [hdata]
    | text => simp [hdata, hne]
  · by_cases htext : Text.toLower argument = SectionKind.text.name
    · cases kind with
      | data => simp [htext, hne.symm]
      | text => simp [htext, hne.symm]
    · cases kind with
      | data => simp [hdata, htext]
      | text => simp [hdata, htext]

theorem orgAddress_eq_ok_iff {l : Line} {address rounded : Nat} :
    orgAddress l = .ok (address, rounded) ↔
      (∃ first capital, ∃ digits : List (Digit 16), digits ≠ [] ∧ Digit.number digits = address ∧
        l.words = [first, Text.hexNumeral capital (digits.map Digit.byte)]) ∧
      address < addressSpace ∧ aligned address < addressSpace ∧ rounded = aligned address := by
  have hbound : ∀ n, n ≤ 0xFFFFFFFF ↔ n < addressSpace := fun n => Nat.lt_succ_iff.symm
  unfold orgAddress
  constructor
  · intro h
    split at h
    · rename_i first argument hwords
      split at h
      · cases h
      · cases h
      · rename_i digits hne hdigits
        split at h
        · cases h
        · rename_i v hv
          dsimp only at h
          split at h
          · rename_i hrounded
            cases h
            obtain ⟨ds, hds, rfl, rfl, hle⟩ := (Text.natural_eq_ok_iff (by decide)).mp hv
            obtain ⟨capital, rfl⟩ := Text.hexDigits?_eq_some_iff.mp hdigits
            exact ⟨⟨first, capital, ds, hds, rfl, hwords⟩, (hbound _).mp hle, (hbound _).mp hrounded, rfl⟩
          · cases h
    · cases h
  · rintro ⟨⟨first, capital, ds, hds, rfl, hwords⟩, hlt, hrounded, rfl⟩
    obtain ⟨d, ds, rfl⟩ := List.exists_cons_of_ne_nil hds
    have hdigits : Source.hexDigits? (Text.hexNumeral capital ((d :: ds).map Digit.byte)) =
        some (d.byte :: ds.map Digit.byte) := Text.hexDigits?_eq_some_iff.mpr ⟨capital, rfl⟩
    have hread : Text.natural 16 0xFFFFFFFF (d.byte :: ds.map Digit.byte) = .ok (Digit.number (d :: ds)) :=
      (Text.natural_eq_ok_iff (by decide)).mpr ⟨d :: ds, hds, rfl, rfl, (hbound _).mpr hlt⟩
    simp only [hwords, hdigits, hread]
    exact if_pos ((hbound _).mpr hrounded)

/-! ## One line -/

/-- A section of the kind can be opened. -/
structure Scan.MayOpen (s : Scan) (kind : SectionKind) : Prop where
  stage : ∀ kind line, s.stage ≠ .awaitingOrg kind line
  text : s.text = none
  data : kind = .data → s.data = none

/-- The scan when a section is opened at index `i`. -/
def Scan.opened (s : Scan) (kind : SectionKind) (i number : Nat) : Scan :=
  match kind with
  | .data => { s with stage := .awaitingOrg .data number, data := some {} }
  | .text =>
    { s with
      stage := .awaitingOrg .text number
      data := s.data.map fun r => { r with stop := i }
      text := some {} }

theorem Scan.opened_stage (s : Scan) (kind : SectionKind) (i number : Nat) :
    (s.opened kind i number).stage = .awaitingOrg kind number := by
  cases kind with
  | data => rfl
  | text => rfl

/-- What is noted about a base: that it was rounded up, if it was. -/
def roundingOf (number address : Nat) : List Rounding :=
  if address % 4 = 0 then [] else [⟨number, address, aligned address⟩]

/-- The scan when the base of the opened section is given at index `i`. -/
def Scan.based (s : Scan) (kind : SectionKind) (i number address : Nat) : Scan :=
  let place (r : Region) : Region := { r with base := BitVec.ofNat 32 (aligned address), start := i + 1 }
  let s : Scan := { s with stage := .inBody, roundings := s.roundings ++ roundingOf number address }
  match kind with
  | .data => { s with data := s.data.map place }
  | .text => { s with text := s.text.map place }

theorem openSection_eq_ok_iff {s s' : Scan} {i : Nat} {l : Line}
    (hdirective : l.directive? = some (Text.ofString ".section")) :
    openSection s i l = .ok s' ↔ ∃ kind, Opens kind l ∧ s.MayOpen kind ∧ s' = s.opened kind i l.number := by
  unfold openSection
  constructor
  · intro h
    split at h
    · cases h
    · rename_i hlabel
      rw [not_not] at hlabel
      split at h
      · cases h
      · rename_i first name hwords hstage
        split at h
        · cases h
        · rename_i hkind
          split at h
          · cases h
          · split at h
            · cases h
            · rename_i hdata htext
              cases h
              exact ⟨.data, ⟨hlabel, hdirective, first, name, hwords, kindOf?_eq_some_iff.mp hkind⟩,
                ⟨hstage, by simpa using htext, fun _ => by simpa using hdata⟩, rfl⟩
        · rename_i hkind
          split at h
          · cases h
          · rename_i htext
            cases h
            exact ⟨.text, ⟨hlabel, hdirective, first, name, hwords, kindOf?_eq_some_iff.mp hkind⟩,
              ⟨hstage, by simpa using htext, fun hk => nomatch hk⟩, rfl⟩
      · cases h
  · rintro ⟨kind, ⟨hlabel, _, first, name, hwords, hname⟩, ⟨hstage, htext, hdata⟩, rfl⟩
    have hkind := kindOf?_eq_some_iff.mpr hname
    rw [if_neg (not_not.mpr hlabel), hwords]
    cases hs : s.stage with
    | before => cases kind <;> simp [hkind, htext, hdata, Scan.opened]
    | awaitingOrg kind line => exact absurd hs (hstage kind line)
    | inBody => cases kind <;> simp [hkind, htext, hdata, Scan.opened]

theorem setOrg_eq_ok_iff {s s' : Scan} {i : Nat} {l : Line} (hdirective : l.directive? = some (Text.ofString ".org")) :
    setOrg s i l = .ok s' ↔
      ∃ kind line address, s.stage = .awaitingOrg kind line ∧ SetsBase l address ∧
        s' = s.based kind i l.number address := by
  have noted : ∀ address, (if address = aligned address then s.roundings
      else s.roundings ++ [⟨l.number, address, aligned address⟩]) = s.roundings ++ roundingOf l.number address := by
    intro address
    have hiff : address = aligned address ↔ address % 4 = 0 := by
      unfold aligned
      omega
    unfold roundingOf
    by_cases h : address % 4 = 0
    · rw [if_pos (hiff.mpr h), if_pos h, List.append_nil]
    · rw [if_neg (hiff.not.mpr h), if_neg h]
  unfold setOrg
  constructor
  · intro h
    split at h
    · rename_i kind line hstage
      split at h
      · cases h
      · rename_i hlabel
        rw [not_not] at hlabel
        split at h
        · cases h
        · rename_i address rounded horg
          obtain ⟨hwords, hlt, haligned, rfl⟩ := orgAddress_eq_ok_iff.mp horg
          refine ⟨kind, line, address, hstage, ⟨hlabel, hdirective, hwords, hlt, haligned⟩, ?_⟩
          simp only [noted] at h
          cases kind with
          | data => cases h; rfl
          | text => cases h; rfl
    · cases h
  · rintro ⟨kind, line, address, hstage, ⟨hlabel, _, hwords, hlt, haligned⟩, rfl⟩
    have horg := orgAddress_eq_ok_iff.mpr ⟨hwords, hlt, haligned, rfl⟩
    simp only [hstage, hlabel, horg, noted]
    cases kind with
    | data => rfl
    | text => rfl

theorem isOrdinary_iff {l : Line} : l.isOrdinary = true ↔
    l.directive? ≠ some (Text.ofString ".section") ∧ l.directive? ≠ some (Text.ofString ".org") := by
  unfold Line.isOrdinary
  cases l.directive? with
  | none => simp
  | some name => simp

/-- A line that is taken opens a section, gives the base that is awaited, or stands in a body. -/
theorem step_eq_ok_iff {s s' : Scan} {i : Nat} {l : Line} :
    step s i l = .ok s' ↔
      (∃ kind, Opens kind l ∧ s.MayOpen kind ∧ s' = s.opened kind i l.number) ∨
      (∃ kind line address, s.stage = .awaitingOrg kind line ∧ SetsBase l address ∧
        s' = s.based kind i l.number address) ∨
      l.isOrdinary = true ∧ s.stage = .inBody ∧ s' = s := by
  have hne : Text.ofString ".org" ≠ Text.ofString ".section" := by decide +kernel
  by_cases hs : l.directive? = some (Text.ofString ".section")
  · have hstep : step s i l = openSection s i l := by simp [step, hs]
    have hnot : ¬ l.isOrdinary = true := fun ho => (isOrdinary_iff.mp ho).1 hs
    have hno : ∀ address, ¬ SetsBase l address := fun address h => hne (Option.some.inj (h.directive.symm.trans hs))
    rw [hstep, openSection_eq_ok_iff hs]
    simp [hnot, hno]
  · have hno : ∀ kind, ¬ Opens kind l := fun kind h => hs h.directive
    by_cases ho : l.directive? = some (Text.ofString ".org")
    · have hstep : step s i l = setOrg s i l := by simp [step, ho, hne]
      have hnot : ¬ l.isOrdinary = true := fun h => (isOrdinary_iff.mp h).2 ho
      rw [hstep, setOrg_eq_ok_iff ho]
      simp [hnot, hno]
    · have hyes : l.isOrdinary = true := isOrdinary_iff.mpr ⟨hs, ho⟩
      have hno' : ∀ address, ¬ SetsBase l address := fun address h => ho h.directive
      have hstep : step s i l = step.ordinary s l := by
        unfold step
        split
        · rename_i name hname
          rw [hname, Option.some.injEq] at hs ho
          rw [if_neg (by simpa using hs), if_neg (by simpa using ho)]
        · rfl
      rw [hstep, step.ordinary]
      cases s.stage with
      | before => simp [hno, hno', hyes]
      | awaitingOrg kind line => simp [hno, hno', hyes]
      | inBody => simp [hno, hno', hyes, eq_comm]

end Sections

/-! ## Sections and outlines -/

/-- The lines that are not blank. -/
def nonblank (ls : List Line) : List Line := ls.filter (!·.isBlank)

@[simp] theorem nonblank_append (ls ls' : List Line) : nonblank (ls ++ ls') = nonblank ls ++ nonblank ls' :=
  List.filter_append ls ls'

theorem nonblank_cons_of_isBlank {l : Line} (h : l.isBlank = true) (ls : List Line) : nonblank (l :: ls) = nonblank ls :=
  List.filter_cons_of_neg (by simp [h])

theorem nonblank_cons {l : Line} (h : l.isBlank = false) (ls : List Line) : nonblank (l :: ls) = l :: nonblank ls :=
  List.filter_cons_of_pos (by simp [h])

theorem nonblank_eq_append {ls front back : List Line} (h : nonblank ls = front ++ back) :
    ∃ ls₁ ls₂, ls = ls₁ ++ ls₂ ∧ nonblank ls₁ = front ∧ nonblank ls₂ = back := List.filter_eq_append_iff.mp h

/-- Lines are ordinary if those that are not blank are. -/
theorem ordinary_of_nonblank {ls : List Line} (h : ∀ l ∈ nonblank ls, l.isOrdinary = true) :
    ∀ l ∈ ls, l.isOrdinary = true := by
  intro l hl
  by_cases hb : l.isBlank = true
  · exact Line.isOrdinary_of_none (Line.directive?_of_isBlank hb)
  · exact h l (List.mem_filter.mpr ⟨hl, by simp [hb]⟩)

/-- One section of a source without its blank lines. -/
structure Part (kind : SectionKind) where
  header : Line
  org : Line
  /-- The base as it is written. -/
  address : Nat
  body : List Line
  opens : Sections.Opens kind header
  setsBase : Sections.SetsBase org address
  ordinary : ∀ l ∈ body, l.isOrdinary = true

namespace Part

variable {kind : SectionKind} (p : Part kind)

def heading : List Line := [p.header, p.org]

def lines : List Line := p.heading ++ p.body

def base : Word := BitVec.ofNat 32 (Sections.aligned p.address)

def roundings : List Rounding := Sections.roundingOf p.org.number p.address

end Part

/-- A source in order: perhaps a section for data, and one for text. -/
structure Outline where
  data : Option (Part .data)
  text : Part .text

namespace Outline

variable (o : Outline)

def lines : List Line := o.data.elim [] Part.lines ++ o.text.lines

def roundings : List Rounding := o.data.elim [] Part.roundings ++ o.text.roundings

end Outline

namespace Sections

/-! ## From an outline to its sections -/

theorem scan_blank {w : List Line} (h : nonblank w = []) (s : Scan) (i : Nat) (r : List Line) :
    scan s i (w ++ r) = scan s (i + w.length) r := by
  induction w generalizing i with
  | nil => rfl
  | cons l w ih =>
    have hb : l.isBlank = true := by
      by_contra hb
      rw [nonblank_cons (by simpa using hb)] at h
      cases h
    rw [nonblank_cons_of_isBlank hb] at h
    rw [List.cons_append, scan, if_pos hb, ih h, List.length_cons]
    congr 1
    omega

theorem scan_step {s s' : Scan} {i : Nat} {l : Line} (hb : l.isBlank = false) (h : step s i l = .ok s') (r : List Line) :
    scan s i (l :: r) = scan s' (i + 1) r := by
  rw [scan, if_neg (by simp [hb]), h]

/-- The scan inside a section that was opened at index `header` and whose body begins at index `start`. -/
def Scan.entered {kind : SectionKind} (s : Scan) (p : Part kind) (header start : Nat) : Scan :=
  let region : Region := { base := p.base, start }
  let s : Scan := { s with stage := .inBody, roundings := s.roundings ++ p.roundings }
  match kind with
  | .data => { s with data := some region }
  | .text => { s with data := s.data.map fun r => { r with stop := header }, text := some region }

/-- A section is taken up to its body, with blank lines before it and in it. -/
theorem scan_part {kind : SectionKind} (p : Part kind) {s : Scan} (hopen : s.MayOpen kind) {ls more : List Line}
    (hls : nonblank ls = p.lines ++ more) (i : Nat) :
    ∃ w heading rest, ls = w ++ (heading ++ rest) ∧ nonblank w = [] ∧ nonblank heading = p.heading ∧
      nonblank rest = p.body ++ more ∧
      scan s i ls =
      scan (s.entered p (i + w.length) (i + w.length + heading.length)) (i + w.length + heading.length) rest := by
  obtain ⟨w, r, rfl, hw, _, hr⟩ := List.filter_eq_cons_iff.mp hls
  obtain ⟨w', rest, rfl, hw', _, hrest⟩ := List.filter_eq_cons_iff.mp hr
  have hheader := Line.isBlank_of_directive? p.opens.directive
  have horg := Line.isBlank_of_directive? p.setsBase.directive
  have hblank : nonblank w = [] := List.filter_eq_nil_iff.mpr hw
  have hblank' : nonblank w' = [] := List.filter_eq_nil_iff.mpr hw'
  have hopened := s.opened_stage kind (i + w.length) p.header.number
  refine ⟨w, p.header :: (w' ++ [p.org]), rest, by simp, hblank, ?_, hrest, ?_⟩
  · rw [nonblank_cons hheader, nonblank_append, hblank', nonblank_cons horg]
    rfl
  · rw [scan_blank hblank, scan_step hheader (step_eq_ok_iff.mpr (Or.inl ⟨kind, p.opens, hopen, rfl⟩)),
      scan_blank hblank',
      scan_step horg (step_eq_ok_iff.mpr (Or.inr (Or.inl ⟨kind, _, _, hopened, p.setsBase, rfl⟩)))]
    have hstart : i + w.length + (p.header :: (w' ++ [p.org])).length = i + w.length + 1 + w'.length + 1 := by
      simp only [List.length_cons, List.length_append, List.length_nil]
      omega
    rw [hstart]
    cases kind with
    | data => rfl
    | text => rfl

/-- The section for text is taken to the end. -/
theorem scan_text (p : Part .text) {s : Scan} (hopen : s.MayOpen .text) {ls : List Line} (hls : nonblank ls = p.lines)
    (i : Nat) :
    ∃ w heading rest, ls = w ++ (heading ++ rest) ∧ nonblank w = [] ∧ nonblank heading = p.heading ∧
      nonblank rest = p.body ∧ scan s i ls = (s.entered p (i + w.length) (i + w.length + heading.length), none) := by
  obtain ⟨w, heading, rest, hcut, hw, hheading, hrest, hscan⟩ :=
    scan_part p hopen (hls.trans (List.append_nil _).symm) i
  rw [List.append_nil] at hrest
  refine ⟨w, heading, rest, hcut, hw, hheading, hrest, hscan.trans ?_⟩
  exact scan_ordinary rfl _ (ordinary_of_nonblank (hrest ▸ p.ordinary))

/-- The sections of a source in order, by the lines before, in and between them. -/
theorem ofLines_outline {ls : List Line} {o : Outline} (hls : nonblank ls = o.lines) :
    ∃ front data middle text, ls = front ++ (data ++ (middle ++ text)) ∧
      nonblank front = o.data.elim [] Part.heading ∧ nonblank data = o.data.elim [] Part.body ∧
      nonblank middle = o.text.heading ∧ nonblank text = o.text.body ∧ (o.data = none → front = [] ∧ data = []) ∧
      ofLines ls = (o.roundings, .ok
        ⟨o.data.map fun p => ⟨p.base, front.length, front.length + data.length⟩,
          ⟨o.text.base, front.length + data.length + middle.length, ls.length⟩⟩) := by
  obtain ⟨dataPart, textPart⟩ := o
  cases dataPart with
  | none =>
    have hopen : Scan.MayOpen {} .text := ⟨by simp, rfl, by simp⟩
    obtain ⟨w, heading, rest, rfl, hw, hheading, hrest, hscan⟩ := scan_text textPart hopen hls 0
    refine ⟨[], [], w ++ heading, rest, (List.append_assoc w heading rest).symm, rfl, rfl, ?_, hrest,
      fun _ => ⟨rfl, rfl⟩, ?_⟩
    · rw [nonblank_append, hw, hheading]
      rfl
    · simp only [ofLines, hscan]
      simp [finish, Scan.entered, Outline.roundings]
  | some dataPart =>
    have hopen : Scan.MayOpen {} .data := ⟨by simp, rfl, fun _ => rfl⟩
    obtain ⟨w, heading, rest, rfl, hw, hheading, hrest, hscan⟩ := scan_part dataPart hopen hls 0
    obtain ⟨body, tail, rfl, hbody, htail⟩ := nonblank_eq_append hrest
    generalize hs : Scan.entered {} dataPart (0 + w.length) (0 + w.length + heading.length) = s at hscan
    have hdata := scan_ordinary (s := s) (hs ▸ rfl) (0 + w.length + heading.length)
      (ordinary_of_nonblank (hbody ▸ dataPart.ordinary))
    have hopen' : s.MayOpen .text := ⟨hs ▸ by simp [Scan.entered], hs ▸ rfl, by simp⟩
    obtain ⟨w', heading', rest', rfl, hw', hheading', hrest', hscan'⟩ :=
      scan_text textPart hopen' htail (0 + w.length + heading.length + body.length)
    -- the blank lines before the second section are still in the region of the first
    refine ⟨w ++ heading, body ++ w', heading', rest', by simp only [List.append_assoc], ?_, ?_, hheading', hrest',
      fun h => absurd h (Option.some_ne_none _), ?_⟩
    · rw [nonblank_append, hw, hheading]
      rfl
    · rw [nonblank_append, hw', hbody, List.append_nil]
      rfl
    · simp only [ofLines, hscan, scan_append, hdata, hscan']
      simp [← hs, finish, Scan.entered, Outline.roundings, Nat.add_assoc]

/-! ## From a scan to an outline -/

/-- The next section that a scan meets, and the lines of a body before it. -/
theorem header_of_scan {s s' : Scan} {i : Nat} {ls : List Line} (h : scan s i ls = (s', none))
    (hstage : ∀ kind line, s.stage ≠ .awaitingOrg kind line) (htext : s.text = none) (htext' : s'.text ≠ none) :
    ∃ body kind header rest j, nonblank ls = body ++ header :: nonblank rest ∧ (∀ l ∈ body, l.isOrdinary = true) ∧
      (s.stage = .before → body = []) ∧ Opens kind header ∧ s.MayOpen kind ∧
      scan (s.opened kind j header.number) (j + 1) rest = (s', none) := by
  induction ls generalizing i with
  | nil =>
    cases h
    exact absurd htext htext'
  | cons l ls ih =>
    by_cases hb : l.isBlank = true
    · rw [scan, if_pos hb] at h
      rw [nonblank_cons_of_isBlank hb]
      exact ih h
    · have hb' : l.isBlank = false := by simpa using hb
      rw [nonblank_cons hb']
      rw [scan, if_neg hb] at h
      split at h
      · rename_i s₁ hstep
        rcases step_eq_ok_iff.mp hstep with ⟨kind, hopens, hmay, rfl⟩ | ⟨kind, line, _, hs, _⟩ | ⟨hl, hs, rfl⟩
        · exact ⟨[], kind, l, ls, i, rfl, by simp, fun _ => rfl, hopens, hmay, h⟩
        · exact absurd hs (hstage kind line)
        · obtain ⟨body, kind, header, rest, j, hls, hbody, _, hopens, hmay, hscan⟩ := ih h
          refine ⟨l :: body, kind, header, rest, j, by rw [hls, List.cons_append], ?_, ?_, hopens, hmay, hscan⟩
          · exact List.forall_mem_cons.mpr ⟨hl, hbody⟩
          · intro hbefore
            rw [hs] at hbefore
            cases hbefore
      · cases h

/-- A base that is awaited is given by the next line. -/
theorem org_of_scan {s s' : Scan} {i : Nat} {ls : List Line} {kind : SectionKind} {line : Nat}
    (h : scan s i ls = (s', none)) (hstage : s.stage = .awaitingOrg kind line)
    (hend : ∀ kind line, s'.stage ≠ .awaitingOrg kind line) :
    ∃ org address rest j, nonblank ls = org :: nonblank rest ∧ SetsBase org address ∧
      scan (s.based kind j org.number address) (j + 1) rest = (s', none) := by
  induction ls generalizing i with
  | nil =>
    cases h
    exact absurd hstage (hend kind line)
  | cons l ls ih =>
    by_cases hb : l.isBlank = true
    · rw [scan, if_pos hb] at h
      rw [nonblank_cons_of_isBlank hb]
      exact ih h
    · have hb' : l.isBlank = false := by simpa using hb
      rw [nonblank_cons hb']
      rw [scan, if_neg hb] at h
      split at h
      · rename_i s₁ hstep
        rcases step_eq_ok_iff.mp hstep with ⟨_, _, hmay, _⟩ | ⟨kind', line', address, hs, hbase, rfl⟩ | ⟨_, hs, _⟩
        · exact absurd hstage (hmay.stage kind line)
        · cases hstage.symm.trans hs
          exact ⟨l, address, ls, i, rfl, hbase, h⟩
        · cases hstage.symm.trans hs
      · cases h

/-- A scan of which sections can be made. -/
structure Scan.Complete (s : Scan) : Prop where
  stage : ∀ kind line, s.stage ≠ .awaitingOrg kind line
  text : s.text ≠ none

theorem complete_of_ofLines {ls : List Line} {sections : Sections} (h : (ofLines ls).2 = .ok sections) :
    ∃ s : Scan, scan {} 0 ls = (s, none) ∧ s.Complete := by
  unfold ofLines at h
  split at h
  · cases h
  · rename_i s hscan
    refine ⟨s, hscan, ?_⟩
    dsimp only [finish] at h
    split at h
    · cases h
    · cases h
    · rename_i text htext hstage
      exact ⟨hstage, by simp [htext]⟩

/-- The next section that a scan meets up to its base, and the lines of a body before it. -/
theorem heading_of_scan {s s' : Scan} {i : Nat} {ls : List Line} (h : scan s i ls = (s', none))
    (hstage : ∀ kind line, s.stage ≠ .awaitingOrg kind line) (htext : s.text = none) (hend : s'.Complete) :
    ∃ body kind header org address rest j k, nonblank ls = body ++ header :: org :: nonblank rest ∧
      (∀ l ∈ body, l.isOrdinary = true) ∧ (s.stage = .before → body = []) ∧ Opens kind header ∧ s.MayOpen kind ∧
      SetsBase org address ∧
      scan ((s.opened kind j header.number).based kind k org.number address) (k + 1) rest = (s', none) := by
  obtain ⟨body, kind, header, rest, j, hls, hbody, hbefore, hopens, hmay, hscan⟩ :=
    header_of_scan h hstage htext hend.text
  obtain ⟨org, address, rest', k, hrest, hbase, hscan'⟩ := org_of_scan hscan (s.opened_stage kind j _) hend.stage
  exact ⟨body, kind, header, org, address, rest', j, k, by rw [hls, hrest], hbody, hbefore, hopens, hmay, hbase, hscan'⟩

/-- The lines behind the base of the section for text. -/
theorem body_of_scan {s s' : Scan} {j k number number' address : Nat} {rest : List Line}
    (h : scan ((s.opened .text j number).based .text k number' address) (k + 1) rest = (s', none)) :
    ∀ l ∈ nonblank rest, l.isOrdinary = true := by
  have hall := ordinary_of_scan (s := (s.opened .text j number).based .text k number' address) ⟨rfl, rfl⟩ (k + 1)
    (by rw [h])
  exact fun l hl => hall l (List.mem_of_mem_filter hl)

/-- A scan that comes to its end has met the lines of an outline. -/
theorem outline_of_ofLines {ls : List Line} {sections : Sections} (h : (ofLines ls).2 = .ok sections) :
    ∃ o : Outline, nonblank ls = o.lines := by
  obtain ⟨s, hscan, hend⟩ := complete_of_ofLines h
  obtain ⟨body, kind, header, org, address, rest, j, k, hls, _, hbefore, hopens, _, hbase, hscan⟩ :=
    heading_of_scan hscan (by simp) rfl hend
  obtain rfl := hbefore rfl
  cases kind with
  | text => exact ⟨⟨none, ⟨header, org, address, nonblank rest, hopens, hbase, body_of_scan hscan⟩⟩, hls⟩
  | data =>
    obtain ⟨body, kind, header', org', address', rest', j', k', hls', hbody, _, hopens', hmay, hbase', hscan⟩ :=
      heading_of_scan hscan (by simp [Scan.based]) rfl hend
    cases kind with
    | data => cases hmay.data rfl
    | text =>
      refine ⟨⟨some ⟨header, org, address, body, hopens, hbase, hbody⟩,
        ⟨header', org', address', nonblank rest', hopens', hbase', body_of_scan hscan⟩⟩, ?_⟩
      rw [hls, hls']
      rfl

/-! ## The grammar of sections -/

/-- The word is the address rounded up to a multiple of four. -/
structure RoundedUp (address : Nat) (base : Word) : Prop where
  multiple : base.toNat % 4 = 0
  least : address ≤ base.toNat ∧ base.toNat < address + 4

theorem base_roundedUp {kind : SectionKind} (p : Part kind) : RoundedUp p.address p.base := by
  have hbase : p.base.toNat = aligned p.address := by
    rw [Part.base, BitVec.toNat_ofNat]
    exact Nat.mod_eq_of_lt p.setsBase.alignable
  rw [aligned] at hbase
  constructor <;> omega

/-- The region for data; an empty one at the start if there is none. -/
def dataRegion (s : Sections) : Region := s.data.getD {}

/-- The sections have the bases of the outline, and cut the source into its parts: the regions lie one after the other,
and the lines before, in and between them are those of the headings and bodies. -/
structure CutBy (ls : List Line) (o : Outline) (s : Sections) : Prop where
  dataBase : ∀ p, o.data = some p → ∃ r, s.data = some r ∧ RoundedUp p.address r.base
  noData : o.data = none → s.data = none
  textBase : RoundedUp o.text.address s.text.base
  order : s.dataRegion.start ≤ s.dataRegion.stop ∧ s.dataRegion.stop ≤ s.text.start ∧ s.text.start ≤ s.text.stop ∧
    s.text.stop = ls.length
  front : nonblank (ls.take s.dataRegion.start) = o.data.elim [] Part.heading
  data : nonblank (s.dataRegion.lines ls) = o.data.elim [] Part.body
  middle : nonblank ((ls.take s.text.start).drop s.dataRegion.stop) = o.text.heading
  text : nonblank (s.text.lines ls) = o.text.body

theorem slice_append {α : Type} (front part back : List α) :
    ((front ++ (part ++ back)).take (front.length + part.length)).drop front.length = part := by
  rw [List.take_length_add_append, List.take_left, List.drop_left]

/-- A source in order is cut into its parts. -/
theorem cutBy_outline {ls : List Line} {o : Outline} {s : Sections} (ho : nonblank ls = o.lines)
    (h : (ofLines ls).2 = .ok s) : CutBy ls o s := by
  obtain ⟨front, data, middle, text, hls, hfront, hdata, hmiddle, htext, hnone, hfound⟩ := ofLines_outline ho
  rw [hfound, Except.ok.injEq] at h
  have hregion : s.dataRegion.start = front.length ∧ s.dataRegion.stop = front.length + data.length := by
    rw [dataRegion, ← h]
    cases hd : o.data with
    | none =>
      obtain ⟨rfl, rfl⟩ := hnone hd
      exact ⟨rfl, rfl⟩
    | some p => exact ⟨rfl, rfl⟩
  obtain ⟨hstart, hstop⟩ := hregion
  have htextStart : s.text.start = front.length + data.length + middle.length := by rw [← h]
  have htextStop : s.text.stop = ls.length := by rw [← h]
  have hlength : ls.length = front.length + data.length + middle.length + text.length := by
    rw [hls]
    simp only [List.length_append]
    omega
  have hhalves : ls = (front ++ data) ++ (middle ++ text) := by rw [hls, List.append_assoc]
  constructor
  · intro p hp
    rw [← h, hp]
    exact ⟨_, rfl, base_roundedUp p⟩
  · intro hd
    rw [← h, hd]
    rfl
  · rw [← h]
    exact base_roundedUp o.text
  · omega
  · rw [hstart, hls, List.take_left, hfront]
  · rw [Region.lines, hstart, hstop, hls, slice_append, hdata]
  · rw [htextStart, hstop, hhalves, ← List.length_append, slice_append, hmiddle]
  · rw [Region.lines, htextStop, List.take_length, htextStart, hhalves, ← List.length_append, ← List.length_append,
      ← List.append_assoc, List.drop_left, htext]

/-- The sections of a source are found just if its lines follow an outline. Then the roundings noted are those of its
addresses, and the sections cut the source into its parts. -/
theorem sections_follow_outline (ls : List Line) :
    ((∃ s, (ofLines ls).2 = .ok s) ↔ ∃ o : Outline, nonblank ls = o.lines) ∧
    ∀ o s, nonblank ls = o.lines → (ofLines ls).2 = .ok s → (ofLines ls).1 = o.roundings ∧ CutBy ls o s := by
  refine ⟨⟨fun ⟨s, hs⟩ => outline_of_ofLines hs, fun ⟨o, ho⟩ => ?_⟩, fun o s ho hs => ⟨?_, cutBy_outline ho hs⟩⟩
  · obtain ⟨_, _, _, _, _, _, _, _, _, _, hfound⟩ := ofLines_outline ho
    rw [hfound]
    exact ⟨_, rfl⟩
  · obtain ⟨_, _, _, _, _, _, _, _, _, _, hfound⟩ := ofLines_outline ho
    rw [hfound]

/-- Both sections with blank lines around their parts, the first base between two multiples of four. -/
def gappedLines : List Line :=
  Line.ofSource "\n.SECTION .Data\n\n.org 0X0102\nx: .word 1\n\n.section .text\n.ORG 0x0\nnop\n\n"

theorem gappedLines_sections :
    ofLines gappedLines = ([⟨4, 0x102, 0x104⟩], .ok ⟨some ⟨0x104, 4, 6⟩, ⟨0, 8, 10⟩⟩) := by
  decide +kernel

/-- Their lines follow an outline, and the base that was rounded up is noted once. -/
theorem sections_follow_outline_gapped :
    ∃ o : Outline, nonblank gappedLines = o.lines ∧ o.roundings = [⟨4, 0x102, 0x104⟩] ∧
      CutBy gappedLines o ⟨some ⟨0x104, 4, 6⟩, ⟨0, 8, 10⟩⟩ := by
  have hsections : (ofLines gappedLines).2 = .ok ⟨some ⟨0x104, 4, 6⟩, ⟨0, 8, 10⟩⟩ := by rw [gappedLines_sections]
  obtain ⟨o, ho⟩ := (sections_follow_outline gappedLines).1.mp ⟨_, hsections⟩
  obtain ⟨hroundings, hcut⟩ := (sections_follow_outline gappedLines).2 o _ ho hsections
  rw [gappedLines_sections] at hroundings
  exact ⟨o, ho, hroundings.symm, hcut⟩

end Sections

end Rv32Tools.Assembly
