import Rv32Tools.Assembly.Diagnostic
import Rv32Tools.Source.Line

/-
  Rv32Tools.Assembly.Sections — where the segments of a source lie.

  A source has at most one data segment and exactly one text segment after it. Each starts with a
  `.section` line; the next line that is not blank is its `.org`, which gives the base address in
  hexadecimal. A base that is not a multiple of four is rounded up to one, with a warning. What follows up
  to the next `.section` is the body of the segment.

  Of several faults the first line at fault is reported; a missing `.org` is reported at its `.section`.
-/

namespace Rv32Tools.Assembly

open Source (Line)

inductive SectionKind where
  | data
  | text
  deriving DecidableEq, Repr

def SectionKind.name : SectionKind → Text
  | .data => ".data"
  | .text => ".text"

/-- The body of a segment: lines `start` up to `stop` of the source, counted from 0, with `stop` left out. -/
structure Region where
  base : Word := 0
  start : Nat := 0
  stop : Nat := 0
  deriving DecidableEq, Repr

def Region.lines (r : Region) (ls : List Line) : List Line := (ls.take r.stop).drop r.start

structure Sections where
  data : Option Region
  text : Region
  deriving DecidableEq, Repr

inductive SectionError where
  | labelOnSection (label : Text)
  | missingOrg (kind : SectionKind)
  | malformedSection (text : Text)
  | duplicate (kind : SectionKind)
  | dataAfterText
  | unsupported (name : Text)
  | misplacedOrg
  | labelOnOrg (label : Text)
  | malformedOrg (text : Text)
  | orgNotHexadecimal (argument : Text)
  | orgInvalid (argument : Text)
  | orgUnalignable (argument : Text)
  | outside (text : Text)
  | noText
  deriving DecidableEq, Repr

def SectionError.message : SectionError → Text
  | .labelOnSection label => "label '" ++ label ++ "' cannot be attached to .section"
  | .missingOrg kind => "missing .org after .section " ++ kind.name
  | .malformedSection text => "malformed section directive '" ++ text ++ "'"
  | .duplicate kind => "duplicate .section " ++ kind.name
  | .dataAfterText => ".section .data must come before .section .text"
  | .unsupported name => "unsupported section '" ++ name ++ "'"
  | .misplacedOrg => ".org is only allowed directly after a .section directive"
  | .labelOnOrg label => "label '" ++ label ++ "' cannot be attached to .org"
  | .malformedOrg text => "malformed .org directive '" ++ text ++ "'"
  | .orgNotHexadecimal argument => ".org address '" ++ argument ++ "' must be hexadecimal (0x...)"
  | .orgInvalid argument => "invalid .org address '" ++ argument ++ "'"
  | .orgUnalignable argument => ".org address '" ++ argument ++ "' cannot be word aligned"
  | .outside text => "statement outside any section: '" ++ text ++ "'"
  | .noText => "no .section .text found"

structure SectionFault where
  line : Nat
  error : SectionError
  deriving DecidableEq, Repr

/-- A base address that was rounded up. -/
structure Rounding where
  line : Nat
  written : Nat
  rounded : Nat
  deriving DecidableEq, Repr

def Rounding.message (r : Rounding) : Text :=
  "misaligned .org 0x" ++ Text.hexUpper 8 r.written ++ " rounded up to 0x" ++ Text.hexUpper 8 r.rounded

namespace Sections

inductive Stage where
  /-- No section yet. -/
  | before
  /-- The section opened at `line` has no base yet. -/
  | awaitingOrg (kind : SectionKind) (line : Nat)
  | inBody
  deriving DecidableEq, Repr

/-- What the lines so far have opened. -/
structure Scan where
  stage : Stage := .before
  data : Option Region := none
  text : Option Region := none
  roundings : List Rounding := []
  deriving DecidableEq, Repr

/-- The section named by an argument of `.section`, in any case. -/
def kindOf? (argument : Text) : Option SectionKind :=
  let name := Text.toLower argument
  if name == SectionKind.data.name then some .data
  else if name == SectionKind.text.name then some .text
  else none

/-- A `.section` line at index `i`. -/
def openSection (s : Scan) (i : Nat) (l : Line) : Except SectionFault Scan :=
  if l.statement.label ≠ [] then .error ⟨l.number, .labelOnSection l.statement.label⟩
  else
    match s.stage, l.words with
    | .awaitingOrg kind line, _ => .error ⟨line, .missingOrg kind⟩
    | _, [_, argument] =>
      match kindOf? argument with
      | none => .error ⟨l.number, .unsupported argument⟩
      | some .data =>
        if s.data.isSome then .error ⟨l.number, .duplicate .data⟩
        else if s.text.isSome then .error ⟨l.number, .dataAfterText⟩
        else .ok { s with stage := .awaitingOrg .data l.number, data := some {} }
      | some .text =>
        if s.text.isSome then .error ⟨l.number, .duplicate .text⟩
        else
          .ok { s with
            stage := .awaitingOrg .text l.number
            data := s.data.map fun r => { r with stop := i }
            text := some {} }
    | _, _ => .error ⟨l.number, .malformedSection l.text⟩

/-- The base address of an `.org` line, as written and as rounded up to a multiple of four. -/
def orgAddress (l : Line) : Except SectionError (Nat × Nat) :=
  match l.words with
  | [_, argument] =>
    match Source.hexDigits? argument with
    | none | some [] => .error (.orgNotHexadecimal argument)
    | some digits =>
      match Text.natural 16 0xFFFFFFFF digits with
      | .error _ => .error (.orgInvalid argument)
      | .ok v =>
        let rounded := (v + 3) / 4 * 4
        if rounded ≤ 0xFFFFFFFF then .ok (v, rounded) else .error (.orgUnalignable argument)
  | _ => .error (.malformedOrg l.text)

/-- An `.org` line at index `i`. -/
def setOrg (s : Scan) (i : Nat) (l : Line) : Except SectionFault Scan :=
  match s.stage with
  | .awaitingOrg kind _ =>
    if l.statement.label ≠ [] then .error ⟨l.number, .labelOnOrg l.statement.label⟩
    else
      match orgAddress l with
      | .error e => .error ⟨l.number, e⟩
      | .ok (written, rounded) =>
        let place (r : Region) : Region := { r with base := BitVec.ofNat 32 rounded, start := i + 1 }
        let s : Scan :=
          { s with
            stage := .inBody
            roundings := if written = rounded then s.roundings else s.roundings ++ [⟨l.number, written, rounded⟩] }
        match kind with
        | .data => .ok { s with data := s.data.map place }
        | .text => .ok { s with text := s.text.map place }
  | _ => .error ⟨l.number, .misplacedOrg⟩

/-- One line that is not blank, at index `i`. -/
def step (s : Scan) (i : Nat) (l : Line) : Except SectionFault Scan :=
  match l.directive? with
  | some name =>
    if name == ".section" then openSection s i l
    else if name == ".org" then setOrg s i l
    else ordinary
  | none => ordinary
where
  ordinary : Except SectionFault Scan :=
    match s.stage with
    | .before => .error ⟨l.number, .outside l.text⟩
    | .awaitingOrg kind line => .error ⟨line, .missingOrg kind⟩
    | .inBody => .ok s

/-- The scan after all lines, or the scan before the first fault. -/
def scan : Scan → (i : Nat) → List Line → Scan × Option SectionFault
  | s, _, [] => (s, none)
  | s, i, l :: r =>
    if l.isBlank then scan s (i + 1) r
    else
      match step s i l with
      | .ok s' => scan s' (i + 1) r
      | .error e => (s, some e)

/-- The sections of a complete scan of `count` lines. -/
def finish (s : Scan) (count : Nat) : Except SectionFault Sections :=
  match s.stage, s.text with
  | .awaitingOrg kind line, _ => .error ⟨line, .missingOrg kind⟩
  | _, none => .error ⟨0, .noText⟩
  | _, some text => .ok ⟨s.data, { text with stop := count }⟩

/-- The sections of a source, and the base addresses that were rounded. -/
def ofLines (ls : List Line) : List Rounding × Except SectionFault Sections :=
  match scan {} 0 ls with
  | (s, some e) => (s.roundings, .error e)
  | (s, none) => (s.roundings, finish s ls.length)

end Sections

end Rv32Tools.Assembly
