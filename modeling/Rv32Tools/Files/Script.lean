import Rv32Tools.Files.Tree

/-
  Rv32Tools.Files.Script — programs that read and write files.

  A script is a value: its next request to the files and what it does with the answer. `runOn` answers the
  requests from a tree in memory; another interpreter can answer them from a disk.
-/

namespace Rv32Tools

inductive Script (α : Type) where
  | done (result : α)
  | read (path : Text) (next : Except FileError Text → Script α)
  | write (path content : Text) (next : Option FileError → Script α)
  | makeDirectories (path : Text) (next : Option FileError → Script α)

namespace Script

def bind {α β : Type} : Script α → (α → Script β) → Script β
  | .done a, f => f a
  | .read path next, f => .read path fun answer => bind (next answer) f
  | .write path content next, f => .write path content fun answer => bind (next answer) f
  | .makeDirectories path next, f => .makeDirectories path fun answer => bind (next answer) f

instance : Monad Script where
  pure := .done
  bind := bind

def readFile (path : Text) : Script (Except FileError Text) := .read path .done

def writeFile (path content : Text) : Script (Option FileError) := .write path content .done

def makeDirs (path : Text) : Script (Option FileError) := .makeDirectories path .done

/-- The result of a script on a tree, and the tree it leaves. -/
def runOn {α : Type} : Script α → FileTree → α × FileTree
  | .done a, t => (a, t)
  | .read path next, t => runOn (next (t.read path)) t
  | .write path content next, t =>
    match t.write path content with
    | .ok t' => runOn (next none) t'
    | .error e => runOn (next (some e)) t
  | .makeDirectories path next, t =>
    match t.makeDirectories path with
    | .ok t' => runOn (next none) t'
    | .error e => runOn (next (some e)) t

end Script

end Rv32Tools
