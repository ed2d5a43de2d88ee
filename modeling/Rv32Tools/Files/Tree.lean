import Rv32Tools.Files.Path

/-
  Rv32Tools.Files.Tree — files and directories, held in memory.

  A place is given by the names that lead to it from the root, so one file has one place. There are no links. A path
  is followed element by element, from the root or from the working directory. Every element but the last has to
  be a directory. `..` goes up, and from the root nowhere. The working directory and those above it exist.
-/

namespace Rv32Tools

/-- A place in the tree: names from the root on, innermost first. -/
structure Location where
  names : List Text
  deriving DecidableEq, Repr

def Location.root : Location := ⟨[]⟩

def Location.parent (l : Location) : Location := ⟨l.names.tail⟩

def Location.child (l : Location) (name : Text) : Location := ⟨name :: l.names⟩

/-- The place that an element leads to from here. -/
def Location.follow (l : Location) (element : Text) : Location :=
  if element.isEmpty || element == "." then l
  else if element == ".." then l.parent
  else l.child element

inductive FileFault where
  | noEntry
  | isDirectory
  | notDirectory
  deriving DecidableEq, Repr

def FileFault.message : FileFault → Text
  | .noEntry => "no such file or directory"
  | .isDirectory => "is a directory"
  | .notDirectory => "not a directory"

inductive FileAction where
  | opening
  | reading
  | creatingDirectory
  deriving DecidableEq, Repr

def FileAction.name : FileAction → Text
  | .opening => "open"
  | .reading => "read"
  | .creatingDirectory => "mkdir"

structure FileError where
  action : FileAction
  path : Text
  fault : FileFault
  deriving DecidableEq, Repr

def FileError.message (e : FileError) : Text := e.action.name ++ " " ++ e.path ++ ": " ++ e.fault.message

structure FileTree where
  /-- The working directory. -/
  work : Location := .root
  files : List (Location × Text) := []
  directories : List Location := []
  deriving DecidableEq, Repr

namespace FileTree

inductive Entry where
  | missing
  | directory
  | file (content : Text)
  deriving DecidableEq, Repr

def entry (t : FileTree) (l : Location) : Entry :=
  if l.names.isSuffixOf t.work.names || t.directories.contains l then .directory
  else
    match t.files.lookup l with
    | some content => .file content
    | none => .missing

/-- The place at the end of a walk along elements. -/
def walk (t : FileTree) : Location → List Text → Except FileFault Location
  | l, [] => .ok l
  | l, element :: r =>
    match t.entry l with
    | .directory => walk t (l.follow element) r
    | .file _ => .error .notDirectory
    | .missing => .error .noEntry

/-- The place that a path names; what is there may be missing. -/
def locate (t : FileTree) (path : Text) : Except FileFault Location :=
  if path.isEmpty then .error .noEntry
  else t.walk (if Path.isAbsolute path then .root else t.work) (Path.elements path)

def read (t : FileTree) (path : Text) : Except FileError Text :=
  match t.locate path with
  | .error fault => .error ⟨.opening, path, fault⟩
  | .ok l =>
    match t.entry l with
    | .missing => .error ⟨.opening, path, .noEntry⟩
    | .directory => .error ⟨.reading, path, .isDirectory⟩
    | .file content => .ok content

/-- The tree with a file at a place. -/
def put (t : FileTree) (l : Location) (content : Text) : FileTree :=
  { t with files := t.files.filter (·.1 ≠ l) ++ [(l, content)] }

/-- A path that ends in a slash names no file: where nothing is, it counts as a directory. -/
def write (t : FileTree) (path content : Text) : Except FileError FileTree :=
  match t.locate path with
  | .error fault =>
    let bare := (path.reverse.dropWhile (· == Path.slash)).reverse
    let new := bare ≠ path && (match t.locate bare with
      | .ok l => t.entry l == .missing
      | .error _ => false)
    .error ⟨.opening, path, if new then .isDirectory else fault⟩
  | .ok l => if t.entry l == .directory then .error ⟨.opening, path, .isDirectory⟩ else .ok (t.put l content)

/-- The directories along a path, from the outermost on. `done` is the path so far. -/
def makeAlong (t : FileTree) (l : Location) (done : Text) : List Text → Except FileError FileTree
  | [] => .ok t
  | element :: r =>
    let next := l.follow element
    let path := if done.isEmpty then element else if done == [Path.slash] then done ++ element else done ++ Path.slash :: element
    match t.entry next with
    | .directory => makeAlong t next path r
    | .file _ => .error ⟨.creatingDirectory, path, .notDirectory⟩
    | .missing => makeAlong { t with directories := t.directories ++ [next] } next path r

/-- A directory and those above it, as far as they are missing. The path is in its shortest form. -/
def makeDirectories (t : FileTree) (path : Text) : Except FileError FileTree :=
  if Path.isAbsolute path then t.makeAlong .root [Path.slash] (Path.elements path.tail)
  else t.makeAlong t.work [] (Path.elements path)

/-- The files below the working directory, by path. -/
def workFiles (t : FileTree) : List (Text × Text) :=
  t.files.filterMap fun (l, content) =>
    if t.work.names.isSuffixOf l.names then
      some (Text.join [Path.slash] (l.names.take (l.names.length - t.work.names.length)).reverse, content)
    else none

end FileTree

end Rv32Tools
