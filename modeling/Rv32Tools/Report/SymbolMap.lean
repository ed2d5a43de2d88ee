import Rv32Tools.Assembly.Run

/-
  Rv32Tools.Report.SymbolMap — the labels of a source, for debuggers.

  The map of a result has its labels in order, by segment (`SymbolMap.ofResult`). Written as JSON (`SymbolMap.json`) it is

    {
      "source": "prog.s",
      "text_base": "0x00000000",
      "data_base": "0x00010000",
      "text": [{"name": "main", "address": "0x00000000", "value": 0, "line": 12}],
      "data": []
    }

  with one key a row and two blanks a level. `data_base` is there when the source has a data segment.
-/

namespace Rv32Tools.Report

open Assembly (Result Symbol Segment)

structure SymbolEntry where
  name : Text
  address : Text
  value : Word
  line : Nat
  deriving DecidableEq, Repr

structure SymbolMap where
  source : Text
  textBase : Text
  dataBase : Option Text
  text : List SymbolEntry
  data : List SymbolEntry
  deriving DecidableEq, Repr

/-- An address as the symbol map shows it. -/
def addressText (w : Word) : Text := "0x" ++ Text.hexUpper 8 w.toNat

def SymbolEntry.ofSymbol (s : Symbol) : SymbolEntry := ⟨s.name, addressText s.address, s.address, s.line⟩

def entriesFor (sorted : List Symbol) (segment : Segment) : List SymbolEntry :=
  (sorted.filter (·.segment = segment)).map .ofSymbol

/-- The symbol map of a source with the given name. -/
def SymbolMap.ofResult (source : Text) (r : Result) : SymbolMap where
  source := source
  textBase := addressText r.sections.text.base
  dataBase := r.sections.data.map fun d => addressText d.base
  text := entriesFor r.symbols.sorted .text
  data := entriesFor r.symbols.sorted .data

/-! ## JSON -/

/-- A character in a JSON string. What browsers could take for markup is escaped too. -/
def jsonGlyph (g : Text.Glyph) : Text :=
  match g.char with
  | none => "\\ufffd"
  | some c =>
    let n := c.toNat
    if c == '"' || c == '\\' then 0x5C :: g.bytes
    else if n == 0x0A then "\\n"
    else if n == 0x0D then "\\r"
    else if n == 0x09 then "\\t"
    else if n < 0x20 || c == '<' || c == '>' || c == '&' || n == 0x2028 || n == 0x2029 then
      "\\u" ++ Text.hexLower 4 n
    else g.bytes

def jsonString (s : Text) : Text := "\"" ++ (Text.glyphs s).flatMap jsonGlyph ++ "\""

/-- Items one a row between brackets, `margin` before the closing one. -/
def jsonBlock (opening closing margin : Text) (items : List Text) : Text :=
  if items.isEmpty then opening ++ closing
  else opening ++ "\n" ++ Text.join ",\n" items ++ "\n" ++ margin ++ closing

def jsonMember (margin key value : Text) : Text := margin ++ jsonString key ++ ": " ++ value

def SymbolEntry.json (e : SymbolEntry) : Text :=
  "    " ++ jsonBlock "\x7b" "\x7d" "    " [
    jsonMember "      " "name" (jsonString e.name),
    jsonMember "      " "address" (jsonString e.address),
    jsonMember "      " "value" (Text.decimal e.value.toNat),
    jsonMember "      " "line" (Text.decimal e.line)]

def jsonEntries (es : List SymbolEntry) : Text := jsonBlock "[" "]" "  " (es.map SymbolEntry.json)

def SymbolMap.json (m : SymbolMap) : Text :=
  let dataBase : List Text := m.dataBase.toList.map fun base => jsonMember "  " "data_base" (jsonString base)
  jsonBlock "\x7b" "\x7d" [] (
    [jsonMember "  " "source" (jsonString m.source), jsonMember "  " "text_base" (jsonString m.textBase)] ++
    dataBase ++
    [jsonMember "  " "text" (jsonEntries m.text), jsonMember "  " "data" (jsonEntries m.data)]) ++ "\n"

end Rv32Tools.Report
