import Rv32Tools.Text.Basic

/-
  Rv32Tools.Files.Path — paths as text, without a look at the files.

  A path is names parted by slashes. Its shortest form (`clean`) has no empty and no `.` element, and a `..`
  only where there is nothing before it to take back; the empty path is `.`.
-/

namespace Rv32Tools.Path

def slash : UInt8 := 0x2F

def isAbsolute (p : Text) : Bool := p.head? == some slash

def elements (p : Text) : List Text := Text.pieces (· == slash) p

/-- One element after the ones in `done`, innermost first. -/
def enter (rooted : Bool) (done : List Text) (element : Text) : List Text :=
  if element.isEmpty || element == "." then done
  else if element == ".." then
    match done with
    | [] => if rooted then [] else [element]
    | last :: rest => if last == ".." then element :: done else rest
  else element :: done

/-- The shortest path to the same place, by its text alone. -/
def clean (p : Text) : Text :=
  let names := ((elements p).foldl (enter (isAbsolute p)) []).reverse
  if isAbsolute p then slash :: Text.join [slash] names
  else if names.isEmpty then "."
  else Text.join [slash] names

/-- What follows the last slash. -/
def lastElement (p : Text) : Text := (p.reverse.takeWhile (· != slash)).reverse

/-- The path of the directory that `p` is in. -/
def directory (p : Text) : Text := clean (p.reverse.dropWhile (· != slash)).reverse

/-- The last element, with slashes at the end left aside. -/
def base (p : Text) : Text :=
  if p.isEmpty then "."
  else
    let trimmed := (p.reverse.dropWhile (· == slash)).reverse
    if trimmed.isEmpty then [slash] else lastElement trimmed

/-- What the last element has from its last dot on. -/
def extension (p : Text) : Text :=
  let last := lastElement p
  if last.contains 0x2E then 0x2E :: (last.reverse.takeWhile (· != 0x2E)).reverse else []

/-- The text without the given ending, if it has it. -/
def withoutEnding (ending s : Text) : Text :=
  if Text.endsWith ending s then s.take (s.length - ending.length) else s

/-- The file name without its extension. -/
def stem (p : Text) : Text := withoutEnding (extension p) (base p)

/-- A name below a directory. -/
def join (dir name : Text) : Text :=
  if dir.isEmpty then (if name.isEmpty then [] else clean name) else clean (dir ++ slash :: name)

end Rv32Tools.Path
