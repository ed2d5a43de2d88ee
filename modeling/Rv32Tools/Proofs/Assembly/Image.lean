import Rv32Tools.Assembly.Image

/-
  Rv32Tools.Proofs.Assembly.Image — images as words.

  The bytes of words read back as the same words (`bigEndianWords_flatMap`), so an image made of words holds them
  (`Image.words_ofText`).
-/

namespace Rv32Tools.Assembly

theorem ofBigEndian_bytes (w : Word) :
    ofBigEndian ⟨w.extractLsb' 24 8⟩ ⟨w.extractLsb' 16 8⟩ ⟨w.extractLsb' 8 8⟩ ⟨w.extractLsb' 0 8⟩ = w := by
  unfold ofBigEndian
  apply BitVec.eq_of_getLsbD_eq
  intro i hi
  simp only [BitVec.getLsbD_append, BitVec.getLsbD_extractLsb']
  grind

theorem bigEndianWords_flatMap (ws : List Word) : bigEndianWords (ws.flatMap bigEndian) = ws := by
  induction ws with
  | nil => rfl
  | cons w ws ih =>
    show ofBigEndian _ _ _ _ :: bigEndianWords (ws.flatMap bigEndian) = w :: ws
    rw [ofBigEndian_bytes, ih]

@[simp] theorem Image.ofText_preamble (base : Word) (ws : List Word) : (Image.ofText base ws).preamble = textPreamble := rfl

@[simp] theorem Image.ofText_base (base : Word) (ws : List Word) : (Image.ofText base ws).base = base := rfl

@[simp] theorem Image.words_ofText (base : Word) (ws : List Word) : (Image.ofText base ws).words = ws :=
  bigEndianWords_flatMap ws

end Rv32Tools.Assembly
