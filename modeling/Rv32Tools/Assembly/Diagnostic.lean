import Rv32Tools.Text.Numeral

/-
  Rv32Tools.Assembly.Diagnostic — what a run has to say about its source.

  A warning leaves the output as it is. An error loses its line, and the output with it, but the run goes
  on so that every error is found. A fatal diagnostic ends the run.

  Some statements end a run without a diagnostic (`Abort`): the run has no answer for them at all.
-/

namespace Rv32Tools.Assembly

inductive Severity where
  | warning
  | error
  | fatal
  deriving DecidableEq, Repr

namespace Severity

def name : Severity → Text
  | .warning => "WARNG"
  | .error => "ERROR"
  | .fatal => "FATAL"

/-- The name of the severity with a given rank; a rank outside the three is shown as a number. -/
def nameAt : Int → Text
  | 0 => warning.name
  | 1 => error.name
  | 2 => fatal.name
  | rank => "Severity(" ++ Text.decimalInt rank ++ ")"

end Severity

/-- A message about a line; line 0 is none in particular. -/
structure Diagnostic where
  severity : Severity
  line : Nat
  message : Text
  deriving DecidableEq, Repr

/-- The message with the line it is about. -/
def Diagnostic.located (d : Diagnostic) : Text :=
  if d.line = 0 then d.message else "line " ++ Text.decimal d.line ++ ": " ++ d.message

/-- Errors as one text: how many, then one row each. -/
def errorSummary (errors : List Diagnostic) : Text :=
  let title : Text :=
    if errors.length = 1 then "1 error occurred:" else Text.decimal errors.length ++ " errors occurred:"
  title ++ "\n\t" ++ Text.join "\n\t" (errors.map fun d => "* " ++ d.located) ++ "\n\n"

/-- A statement that ends a run without a diagnostic. -/
inductive Abort where
  /-- An instruction of nothing but white space. -/
  | blankInstruction
  /-- A data directive whose name in lower case is longer than its line. -/
  | directiveOverrun
  deriving DecidableEq, Repr

/-- Why a step of a run gave no result. -/
inductive Halt (ε : Type) where
  | error (cause : ε)
  | abort (cause : Abort)
  deriving DecidableEq, Repr

end Rv32Tools.Assembly
