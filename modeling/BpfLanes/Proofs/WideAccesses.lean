import BpfLanes.Proofs.FieldEdits
import BpfLanes.Proofs.NarrowAccesses

/-! # Six-byte accesses

A finished copy is a load and a store of six bytes. Each takes the registers of an
access that it replaces and starts from the lowest offset of the copy.
-/

namespace BpfLanes

variable {f : Fields} {w : Word}

namespace Word

/-- A word with another opcode and offset. -/
def redirected (w : Word) (opcode offset : Int) : Word :=
  Fields.encode { unpacked w with opcode, offset }

theorem proper_redirected (w : Word) (opcode offset : Int) :
    Proper (redirected w opcode offset) :=
  (Fields.unpacked_encode _).1

theorem opcode_redirected (w : Word) (opcode offset : Int) :
    (unpacked (w.redirected opcode offset)).opcode = opcode % 2 ^ 8 := by
  rw [redirected, (Fields.unpacked_encode _).2]
  rfl

theorem redirected_spec (opcode : Int) {offset : Int} (hw : Proper w)
    (hopcode : opcode % 2 ^ 8 = opcode) (hoffset : Field.offset.Takes offset) :
    setOffset (setOpcode w opcode) offset = .ok (redirected w opcode offset)
      ∧ unpacked (redirected w opcode offset) = { unpacked w with opcode, offset } := by
  obtain ⟨w₁, hw₁, hproper₁, hfields₁⟩ := Field.edit_accepts hw (k := .opcode) (v := opcode) trivial
  obtain ⟨w₂, hw₂, hproper₂, hfields₂⟩ := Field.edit_accepts hproper₁ hoffset
  obtain rfl : setOpcode w opcode = w₁ := Except.ok.inj hw₁
  have hfields : unpacked w₂ = { unpacked w with opcode, offset } := by
    rw [hfields₂, hfields₁]
    show { unpacked w with opcode := opcode % 2 ^ 8, offset } = _
    rw [hopcode]
  have hw₂eq : redirected w opcode offset = w₂ := by
    rw [redirected, ← hfields, encode_unpacked hproper₂]
  rw [hw₂eq]
  exact ⟨hw₂, hfields⟩

theorem takes_offset (hw : Proper w) : Field.offset.Takes (unpacked w).offset :=
  (Field.takes_value (reduced_unpacked hw) .offset).1

/-- A load of six bytes through the registers of a load. -/
def wideLoad (w : Word) (low : Int) : Word := w.redirected Opcode.load48 low

/-- A store of six bytes through the registers of a store. -/
def wideStore (w : Word) (low : Int) : Word := w.redirected Opcode.store48 low

end Word

namespace Peephole

open Word (Proper unpacked)

/-! ## Texts -/

/-- The text of a load of six bytes. -/
def wideLoadText (f : Fields) : String :=
  "r" ++ toString f.dst ++ " = *(uint48 *) (r" ++ toString f.src ++ " + " ++ toString f.offset
    ++ ")"

/-- The text of a store of six bytes. -/
def wideStoreText (f : Fields) : String :=
  "*(uint48 *) (r" ++ toString f.dst ++ " + " ++ toString f.offset ++ ") = r" ++ toString f.src

theorem loadText_eq (h : f.inputs = [f.src]) : loadText f = .ok (wideLoadText f) := by
  unfold loadText
  rw [h, Position.get_first]
  rfl

theorem storeText_eq (h : f.inputs = [f.src, f.dst]) : storeText f = .ok (wideStoreText f) := by
  unfold storeText
  rw [h, Position.get_first, Position.get_second]
  rfl

/-! ## Entries -/

/-- An entry as a load of six bytes. -/
def Entry.wideLoad (e : Entry) (low : Int) : Entry :=
  { e with word := e.word.wideLoad low, text := wideLoadText (unpacked (e.word.wideLoad low)) }

/-- The store of six bytes in place of a gathered store. -/
def Entry.wideStore (e : Entry) (low : Int) (f : Fields) : Entry :=
  { e with word := e.word.wideStore low, text := wideStoreText f }

section
variable {low : Int} (hw : Proper w) (hlow : Field.offset.Takes low)
include hw hlow

theorem wideLoad_spec :
    Word.setOffset (w.setOpcode Opcode.load48) low = .ok (w.wideLoad low)
      ∧ unpacked (w.wideLoad low) = { unpacked w with opcode := Opcode.load48, offset := low }
      ∧ Fields.decode (w.wideLoad low) = .ok (unpacked (w.wideLoad low))
      ∧ loadText (unpacked (w.wideLoad low)) = .ok (wideLoadText (unpacked (w.wideLoad low))) := by
  obtain ⟨hset, hfields⟩ := Word.redirected_spec Opcode.load48 hw (by decide) hlow
  refine ⟨hset, hfields, Word.decode_proper (Word.proper_redirected ..), ?_⟩
  apply loadText_eq
  unfold Word.wideLoad
  rw [hfields]
  rfl

theorem wideStore_spec :
    Word.setOffset (w.setOpcode Opcode.store48) low = .ok (w.wideStore low)
      ∧ unpacked (w.wideStore low) = { unpacked w with opcode := Opcode.store48, offset := low }
      ∧ Fields.decode (w.wideStore low) = .ok (unpacked (w.wideStore low))
      ∧ storeText (unpacked (w.wideStore low))
          = .ok (wideStoreText (unpacked (w.wideStore low))) := by
  obtain ⟨hset, hfields⟩ := Word.redirected_spec Opcode.store48 hw (by decide) hlow
  refine ⟨hset, hfields, Word.decode_proper (Word.proper_redirected ..), ?_⟩
  apply storeText_eq
  unfold Word.wideStore
  rw [hfields]
  rfl

end

end Peephole
end BpfLanes
