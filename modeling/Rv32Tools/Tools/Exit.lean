import Rv32Tools.CommandLine.Flag
import Rv32Tools.Files.Script

/-
  Rv32Tools.Tools.Exit — what a tool leaves when it ends.
-/

namespace Rv32Tools.Tools

structure Exit where
  status : Nat
  out : Text := []
  err : Text := []
  deriving DecidableEq, Repr

open CommandLine (Usage Parsed FlagError)

/-- A tool after its command line: asked for help it prints the usage twice, and on a bad option the usage and
then the error. -/
def withOptions (usage : Usage) (arguments : List Text) (run : Parsed → Script Exit) : Script Exit :=
  match CommandLine.parse usage.flags arguments with
  | .error .help => return { status := 0, err := usage.text ++ usage.text }
  | .error e => return { status := 1, err := usage.text ++ "Error: " ++ e.message ++ "\n" }
  | .ok p => run p

end Rv32Tools.Tools
