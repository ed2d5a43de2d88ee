import Rv32Tools.Report.Dump
import Rv32Tools.Settings.Mapping
import Rv32Tools.Tools.Assembler
import Rv32Tools.Tools.RamGenerator

/-
  Rv32Tools.Tools.Standard — the tools with the formats that they are used with.

  Settings and profiles are read as mappings, the symbol map is written as JSON, and colours are those of a terminal.
-/

namespace Rv32Tools

namespace Settings.Assembler

def fields : List (Text × Slot Assembler) := [
  ("pcrel", .bool fun s b => { s with positionIndependent := b }),
  ("listing", .bool fun s b => { s with listing := b }),
  ("symbols", .bool fun s b => { s with symbols := b }),
  ("output_dir", .text fun s t => { s with outputDir := t }),
  ("verbose", .bool fun s b => { s with verbose := b }),
  ("debug", .bool fun s b => { s with debug := b }),
  ("color", .text fun s t => { s with color := t }),
  ("jobs", .int fun s n => { s with jobs := n })]

def decoder : Decoder Assembler := decode "main.Config" fields

end Settings.Assembler

namespace Ram.Profile

def fields : List (Text × Settings.Slot Profile) := [
  ("dump", .text fun p t => { p with dump := t }),
  ("template", .text fun p t => { p with template := t }),
  ("module", .text fun p t => { p with moduleName := t }),
  ("depth", .int fun p n => { p with depth := n }),
  ("width", .int fun p n => { p with width := n }),
  ("offset", .int fun p n => { p with offset := n }),
  ("type", .int fun p n => { p with kind := n })]

def decoder : Settings.Decoder Profile := Settings.decode "main.Profile" fields

end Ram.Profile

namespace Tools

def Assembler.Environment.standard (processors : Nat) (terminal : Bool) : Environment where
  processors := processors
  terminal := terminal
  decode := Rv32Tools.Settings.Assembler.decoder
  encode m := .ok m.json
  console := Report.Console.terminal
  logRow inColor l := l.render inColor
  dump := Report.dump
  trace d := d.located ++ "\n"

def RamGenerator.standard : List Text → Script Exit := run Ram.Profile.decoder Report.LogLine.plain

end Tools

end Rv32Tools
