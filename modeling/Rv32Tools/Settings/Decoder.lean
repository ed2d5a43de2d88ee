import Rv32Tools.Text.Basic

/-
  Rv32Tools.Settings.Decoder — readers of settings files.

  What the text of a settings file says is a matter of its format. The tools work with any reader: given a record and
  a text, it gives the record with the entries of the text over it, or tells why it cannot.
-/

namespace Rv32Tools.Settings

inductive DecodeError where
  /-- There is no document in the text. -/
  | absent
  | malformed (message : Text)
  deriving DecidableEq, Repr

def DecodeError.message : DecodeError → Text
  | .absent => "EOF"
  | .malformed message => message

abbrev Decoder (σ : Type) := σ → Text → Except DecodeError σ

end Rv32Tools.Settings
