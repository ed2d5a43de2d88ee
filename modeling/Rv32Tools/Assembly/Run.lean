import Rv32Tools.Assembly.DataSegment
import Rv32Tools.Assembly.Encoding
import Rv32Tools.Assembly.Image
import Rv32Tools.Assembly.Relocation
import Rv32Tools.Assembly.Sections

/-
  Rv32Tools.Assembly.Run — one source, assembled.

  1. The lines are brought to one spelling (`Source.Line`).
  2. The sections are found (`Sections`).
  3. The data segment is built, and its labels defined (`DataSegment`).
  4. The text segment is laid out, and its labels defined (`Layout`).
  5. Relocation calls become numbers (`Relocation`).
  6. Each instruction line becomes machine words (`Encoding`), or an error.

  A fault in steps 2 to 4 ends the run; errors of step 6 are collected, and if there is one there is no
  image. The journal tells what happened, in order, however the run ended.
-/

namespace Rv32Tools.Assembly

open Source (Line)

structure Options where
  /-- Whether `la` and `ja` reach text labels by distance. -/
  positionIndependent : Bool := false
  /-- Whether a listing is kept. -/
  listing : Bool := false
  deriving DecidableEq, Repr

inductive Event where
  | normalized (lines : Nat)
  | dataLaidOut (bytes : Nat)
  | labelsResolved (labels : Nat)
  | reported (d : Diagnostic)
  deriving DecidableEq, Repr

structure Result where
  text : Option Image
  data : Option Image
  sections : Sections
  symbols : SymbolTable
  warnings : List Diagnostic
  errors : List Diagnostic
  listing : List Text
  lines : Nat
  instructions : Nat
  relocations : Nat
  deriving DecidableEq, Repr

namespace Result

def failed (r : Result) : Nat := r.errors.length

def isOk (r : Result) : Bool := r.errors.isEmpty

end Result

structure Run where
  journal : List Event
  outcome : Except (Halt Diagnostic) Result

def warn (line : Nat) (message : Text) : Diagnostic := ⟨.warning, line, message⟩

/-! ## The data segment -/

/-- The lines of the data segment one after the other. A line that came with a fault ends it. -/
def buildData : DataSegment → List Line → Except (Halt Diagnostic) DataSegment
  | d, [] => .ok d
  | d, l :: r =>
    match l.fault, d.line l with
    | some message, _ => .error (.error ⟨.fatal, l.number, message⟩)
    | none, (d', none) => buildData d' r
    | none, (_, some (.error e)) => .error (.error ⟨.fatal, l.number, e.message⟩)
    | none, (_, some (.abort a)) => .error (.abort a)

/-! ## The text segment -/

/-- A placed line, and its instructions or why there are none. -/
structure Attempt where
  placement : Placement
  outcome : Except (Halt LineError) (List Instruction)

def attempt (o : Options) (symbols : SymbolTable) (p : Placement) : Attempt :=
  ⟨p, Context.line ⟨symbols, o.positionIndependent, p.pc⟩ p.line⟩

namespace Attempt

/-- The words of the line; none if it is in error. -/
def words (a : Attempt) : List Word :=
  match a.outcome with
  | .ok is => is.map Instruction.toWord
  | .error _ => []

def error? (a : Attempt) : Option Diagnostic :=
  match a.outcome with
  | .error (.error e) => some ⟨.error, a.placement.line.number, e.message⟩
  | _ => none

def abort? (a : Attempt) : Option Abort :=
  match a.outcome with
  | .error (.abort cause) => some cause
  | _ => none

/-- The line as a listing shows it. -/
def source (a : Attempt) : Text :=
  let l := a.placement.line
  if l.comment.isEmpty then l.text else l.text ++ "  # " ++ l.comment

end Attempt

/-- A row of a listing: address, word, the word as source, and the source line it comes from. -/
def listingRow (pc w : Word) (source : Text) : Text :=
  Text.hexUpper 8 pc.toNat ++ "  " ++ Text.hexLower 8 w.toNat ++ "  " ++ Text.padRight 28 (w.render pc) ++ " " ++ source

/-- Rows for the words of one line from `pc` on; the source stands on the first. -/
def listingRows (pc : Word) (source : Text) : List Word → List Text
  | [] => []
  | w :: r => listingRow pc w source :: listingRows (pc + 4) [] r

/-- The rows of a line; none if it is in error. -/
def Attempt.rows (a : Attempt) : List Text := listingRows a.placement.pc a.source a.words

/-! ## The run -/

/-- The text segment, after the data segment with its image and the warnings so far. -/
def assembleText (o : Options) (ls : List Line) (sections : Sections) (data : Option Image) (symbols : SymbolTable)
    (journal : List Event) (warnings : List Diagnostic) : Run :=
  let (layout, fault) := Layout.ofLines sections.text.base symbols (sections.text.lines ls)
  let ignored := layout.ignored.map fun i => warn i.line i.message
  let journal := journal ++ ignored.map .reported
  match fault with
  | some ⟨_, .abort a⟩ => ⟨journal, .error (.abort a)⟩
  | some ⟨line, .error e⟩ => ⟨journal, .error (.error ⟨.fatal, line, e.message⟩)⟩
  | none =>
    let symbols := layout.symbols
    let (placements, memory) := Relocation.expandAll symbols {} layout.placements
    let unanchored := memory.unanchored.map fun u => warn u.1 (Relocation.unanchoredMessage u.2)
    let journal := journal ++ .labelsResolved symbols.size :: unanchored.map .reported
    let attempts := placements.map (attempt o symbols)
    match attempts.findSome? Attempt.abort? with
    | some a => ⟨journal, .error (.abort a)⟩
    | none =>
      let errors := attempts.filterMap Attempt.error?
      { journal := journal ++ errors.map .reported
        outcome := .ok {
          text := if errors.isEmpty then some (.ofText sections.text.base (attempts.flatMap Attempt.words)) else none
          data := if errors.isEmpty then data else none
          sections
          symbols
          warnings := warnings ++ ignored ++ unanchored
          errors
          listing := if o.listing then attempts.flatMap Attempt.rows else []
          lines := ls.length
          instructions := layout.placements.length
          relocations := memory.replaced } }

def assemble (o : Options) (source : Text) : Run :=
  let ls := Line.ofSource source
  let (roundings, sections?) := Sections.ofLines ls
  let warnings := roundings.map fun r => warn r.line r.message
  let journal := .normalized ls.length :: warnings.map .reported
  match sections? with
  | .error e => ⟨journal, .error (.error ⟨.fatal, e.line, e.error.message⟩)⟩
  | .ok sections =>
    match sections.data with
    | none => assembleText o ls sections none .empty journal warnings
    | some region =>
      match buildData (.start region.base .empty) (region.lines ls) with
      | .error halt => ⟨journal, .error halt⟩
      | .ok d =>
        assembleText o ls sections (some (.ofData region.base d.payload)) d.symbols
          (journal ++ [.dataLaidOut d.bytes.length]) warnings

end Rv32Tools.Assembly
