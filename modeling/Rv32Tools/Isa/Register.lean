import Rv32Tools.Text.Numeral

/-
  Rv32Tools.Isa.Register — machine words and the thirty-two registers.

  A register has a number name, `x0` to `x31`, and a name from the calling convention; `x8` has two of
  these, `s0` and `fp`. Names are read in any case and written by the calling convention.
-/

namespace Rv32Tools

abbrev Word := BitVec 32

abbrev Reg := BitVec 5

/-- The number of addresses. -/
def addressSpace : Nat := 0x100000000

/-- Bytes in one instruction word. -/
def wordBytes : Nat := 4

namespace Reg

def conventionNames : List Text := [
  "zero", "ra", "sp", "gp", "tp", "t0", "t1", "t2", "s0", "s1", "a0", "a1", "a2", "a3", "a4", "a5",
  "a6", "a7", "s2", "s3", "s4", "s5", "s6", "s7", "s8", "s9", "s10", "s11", "t3", "t4", "t5", "t6"]

def name (r : Reg) : Text := conventionNames.getD r.toNat []

def numberName (r : Reg) : Text := "x" ++ Text.decimal r.toNat

def all : List Reg := (List.range 32).map (BitVec.ofNat 5)

/-- Every spelling of a register, in lower case. -/
def spellings : List (Text × Reg) :=
  all.map (fun r => (r.name, r)) ++ all.map (fun r => (r.numberName, r)) ++ [(Text.ofString "fp", 8)]

/-- The register that a text names, in any case and with white space around it. -/
def ofText? (s : Text) : Option Reg := spellings.lookup (Text.toLower (Text.trim s))

def zero : Reg := 0

/-- The return address. -/
def ra : Reg := 1

/-- The scratch register of a far jump that names none. -/
def t1 : Reg := 6

end Reg

end Rv32Tools
