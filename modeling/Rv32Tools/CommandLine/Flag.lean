import Rv32Tools.Text.Quoted

/-
  Rv32Tools.CommandLine.Flag — options on a command line.

  Options come first, each with one dash or two. A switch is on when it stands alone, and takes a value only
  after an equals sign; any other option takes its value after an equals sign or from the next argument. The
  first argument that does not start with a dash, a dash alone, or what follows `--` ends the options. Of an
  option given twice the last value counts.
-/

namespace Rv32Tools.CommandLine

inductive FlagKind where
  | switch
  | text (default : Text)
  | number
  deriving DecidableEq, Repr

structure Flag where
  name : Text
  kind : FlagKind
  help : Text
  deriving DecidableEq, Repr

inductive FlagValue where
  | switch (on : Bool)
  | text (value : Text)
  | number (value : Int)
  deriving DecidableEq, Repr

inductive FlagError where
  /-- The help was asked for. -/
  | help
  | badSyntax (argument : Text)
  | undefined (name : Text)
  | missingArgument (name : Text)
  | badSwitch (name value : Text)
  | badNumber (name value : Text) (e : Text.NumeralError)
  deriving DecidableEq, Repr

def FlagError.message : FlagError → Text
  | .help => "flag: help requested"
  | .badSyntax argument => "bad flag syntax: " ++ argument
  | .undefined name => "flag provided but not defined: -" ++ name
  | .missingArgument name => "flag needs an argument: -" ++ name
  | .badSwitch name value => "invalid boolean value " ++ Text.quoted value ++ " for -" ++ name ++ ": parse error"
  | .badNumber name value e =>
    "invalid value " ++ Text.quoted value ++ " for flag -" ++ name ++ ": " ++
      (match e with
        | .malformed => Text.ofString "parse error"
        | .tooLarge => Text.ofString "value out of range")

/-- The options given, newest first, and the arguments after them. -/
structure Parsed where
  given : List (Text × FlagValue) := []
  arguments : List Text := []
  deriving DecidableEq, Repr

namespace Parsed

/-- The switch of a name, if it was given. -/
def switch? (p : Parsed) (name : Text) : Option Bool :=
  match p.given.lookup name with
  | some (.switch on) => some on
  | _ => none

def text? (p : Parsed) (name : Text) : Option Text :=
  match p.given.lookup name with
  | some (.text value) => some value
  | _ => none

def number? (p : Parsed) (name : Text) : Option Int :=
  match p.given.lookup name with
  | some (.number value) => some value
  | _ => none

end Parsed

def switchValue? (s : Text) : Option Bool :=
  let yes : List Text := ["1", "t", "T", "true", "TRUE", "True"]
  let no : List Text := ["0", "f", "F", "false", "FALSE", "False"]
  if yes.contains s then some true else if no.contains s then some false else none

/-- The value of an option from its text. -/
def Flag.valueOf (f : Flag) (value : Text) : Except FlagError FlagValue :=
  match f.kind with
  | .switch =>
    match switchValue? value with
    | some on => .ok (.switch on)
    | none => .error (.badSwitch f.name value)
  | .text _ => .ok (.text value)
  | .number =>
    match Text.prefixedInteger 64 value with
    | .ok n => .ok (.number n)
    | .error e => .error (.badNumber f.name value e)

/-- An argument as an option: its name, and the value after an equals sign. An argument that is none gives
nothing. -/
def optionOf? (argument : Text) : Option (Except FlagError (Text × Option Text)) :=
  match argument with
  | 0x2D :: b :: r =>
    let body := if b == 0x2D then r else b :: r
    match body with
    | [] => some (.error (.badSyntax argument))
    | c :: rest =>
      if c == 0x2D || c == 0x3D then some (.error (.badSyntax argument))
      else
        let name := c :: rest.takeWhile (· != 0x3D)
        match rest.dropWhile (· != 0x3D) with
        | [] => some (.ok (name, none))
        | _ :: value => some (.ok (name, some value))
  | _ => none

/-- The options of `arguments` after those in `p`. `waiting` is an option whose value is to come. -/
def parseFrom (flags : List Flag) : (waiting : Option Flag) → Parsed → (arguments : List Text) → Except FlagError Parsed
  | some f, _, [] => .error (.missingArgument f.name)
  | some f, p, value :: r =>
    match f.valueOf value with
    | .ok v => parseFrom flags none { p with given := (f.name, v) :: p.given } r
    | .error e => .error e
  | none, p, [] => .ok p
  | none, p, argument :: r =>
    if argument == "--" then .ok { p with arguments := r }
    else
      match optionOf? argument with
      | none => .ok { p with arguments := argument :: r }
      | some (.error e) => .error e
      | some (.ok (name, value?)) =>
        match flags.find? (·.name == name), value? with
        | none, _ => .error (if name == "help" || name == "h" then .help else .undefined name)
        | some f, some value =>
          match f.valueOf value with
          | .ok v => parseFrom flags none { p with given := (f.name, v) :: p.given } r
          | .error e => .error e
        | some f, none =>
          if f.kind = .switch then parseFrom flags none { p with given := (f.name, .switch true) :: p.given } r
          else parseFrom flags (some f) p r

def parse (flags : List Flag) (arguments : List Text) : Except FlagError Parsed := parseFrom flags none {} arguments

/-- What a usage text says of an option. A switch with a name of one letter has its help on the same row. -/
def Flag.usage (f : Flag) : Text :=
  let head : Text := "  -" ++ f.name ++
    (match f.kind with
      | .switch => []
      | .text _ => Text.ofString " string"
      | .number => Text.ofString " int")
  let default : Text :=
    match f.kind with
    | .text default => if default.isEmpty then [] else " (default " ++ Text.quoted default ++ ")"
    | _ => []
  head ++ (if head.length ≤ 4 then Text.ofString "\t" else Text.ofString "\n    \t") ++ f.help ++ default ++ "\n"

/-- A tool's options with the text before and after them. -/
structure Usage where
  opening : Text
  flags : List Flag
  closing : Text

def Usage.text (u : Usage) : Text := u.opening ++ u.flags.flatMap Flag.usage ++ u.closing

end Rv32Tools.CommandLine
