import Rv32Tools.Text.Quoted

/-
  Rv32Tools.Report.Log — the log of a tool, one line an event.

  Plain lines are `level=.. msg=.. key=value ..`, where a value is quoted unless it holds nothing but ASCII
  letters, digits and `-._/@^+`. Coloured lines start with the level in four capitals and the message in a
  column of forty-four characters. Keys are in alphabetical order.
-/

namespace Rv32Tools.Report

inductive Level where
  | debug
  | info
  | warning
  | error
  deriving DecidableEq, Repr

namespace Level

def name : Level → Text
  | .debug => "debug"
  | .info => "info"
  | .warning => "warning"
  | .error => "error"

def shortName : Level → Text
  | .debug => "DEBU"
  | .info => "INFO"
  | .warning => "WARN"
  | .error => "ERRO"

/-- The number of the terminal colour. -/
def color : Level → Text
  | .debug => "37"
  | .info => "36"
  | .warning => "33"
  | .error => "31"

/-- Whether the event is told only when asked for. -/
def isDetail : Level → Bool
  | .debug | .info => true
  | .warning | .error => false

end Level

structure LogLine where
  level : Level
  message : Text
  /-- In alphabetical order of the keys. -/
  fields : List (Text × Text) := []
  deriving DecidableEq, Repr

def isBareByte (b : UInt8) : Bool :=
  Text.isAlnumByte b || b == 0x2D || b == 0x2E || b == 0x5F || b == 0x2F || b == 0x40 || b == 0x5E || b == 0x2B

def logValue (s : Text) : Text := if s.all isBareByte then s else Text.quoted s

/-- The start of coloured text. -/
def paint (color : Text) : Text := "\x1b[" ++ color ++ "m"

namespace LogLine

def plainField (f : Text × Text) : Text := " " ++ f.1 ++ "=" ++ logValue f.2

def plain (l : LogLine) : Text :=
  "level=" ++ l.level.name ++ " msg=" ++ logValue l.message ++ l.fields.flatMap plainField ++ "\n"

def coloredField (color : Text) (f : Text × Text) : Text :=
  " " ++ paint color ++ f.1 ++ paint "0" ++ "=" ++ logValue f.2

def colored (l : LogLine) : Text :=
  paint l.level.color ++ l.level.shortName ++ paint "0" ++ " " ++ Text.padRight 44 l.message ++ " " ++
    l.fields.flatMap (coloredField l.level.color) ++ "\n"

def render (l : LogLine) (inColor : Bool) : Text := if inColor then l.colored else l.plain

end LogLine

end Rv32Tools.Report
