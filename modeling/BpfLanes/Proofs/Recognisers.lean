import BpfLanes.Removal
import BpfLanes.Proofs.Runs
import BpfLanes.Proofs.WordFields

/-! # What recognisers ask for

A recogniser gathers the instructions of a copy or of a zero fill and says what
becomes of them. What it asks for is a load, a store or an instruction that does
nothing, and these are no jumps.
-/

namespace BpfLanes

variable {f : Fields} {o : Int} {w : Word}

/-! ## Words that are no jumps -/

/-- A word that is no jump. -/
def Word.NoJump (w : Word) : Prop :=
  ∀ f, Fields.decode w = .ok f → f.isJump = false

/-- An instruction that neither jumps nor leaves the program. -/
def Word.Straight (w : Word) : Prop := ∃ f, Fields.decode w = .ok f ∧ f.isBranch = false

namespace Word

theorem noJump_of_unpacked (h : (unpacked w).isJump = false) : NoJump w := by
  intro f hf
  obtain ⟨_, rfl⟩ := decode_eq_ok_iff.mp hf
  exact h

theorem noJump_nop : NoJump nop :=
  noJump_of_unpacked (by decide)

theorem straight_nop : Straight nop := ⟨_, rfl, by decide⟩

theorem straight_of_unpacked (hw : Proper w) (h : (unpacked w).isBranch = false) : Straight w :=
  ⟨_, decode_eq_ok_iff.mpr ⟨hw, rfl⟩, h⟩

theorem Straight.noJump (h : Straight w) : NoJump w := by
  obtain ⟨f, hf, hbranch⟩ := h
  intro g hg
  obtain rfl := Except.ok.inj (hf.symm.trans hg)
  unfold Fields.isJump
  rw [hbranch]
  rfl

theorem noJump_setOpcode (h : ∀ f : Fields, f.opcode = o % 2 ^ 8 → f.isJump = false) :
    NoJump (setOpcode w o) := by
  apply noJump_of_unpacked
  apply h
  unfold setOpcode
  rw [unpacked_writeOpcode]

end Word

namespace Fields

theorem not_jump_of_opcode (hf : f.opcode = o)
    (h : Opcode.branches.contains o = false ∨ Opcode.exits.contains o = true) :
    f.isJump = false := by
  unfold isJump isBranch isExit
  rw [hf]
  rcases h with h | h
  · rw [h]
    rfl
  · rw [h]
    simp

theorem mem_of_lookup {l : List (Int × Int)} {k v : Int} (h : l.lookup k = some v) :
    (k, v) ∈ l := by
  obtain ⟨l₁, l₂, rfl, _⟩ := List.lookup_eq_some_iff.mp h
  simp

/-- A load or a store. -/
def IsAccess (f : Fields) : Prop := f.isLoad = true ∨ f.isStore = true

theorem IsAccess.not_branch (h : f.IsAccess) : f.isBranch = false := by
  have hall : ∀ o ∈ Opcode.loads ++ Opcode.stores, Opcode.branches.contains o = false := by decide
  exact hall f.opcode (by simpa [IsAccess, isLoad, isStore] using h)

end Fields

namespace Peephole

/-! ## Groups without jumps -/

theorem Group.mem_insert {e x : Entry} {g : Group} (h : x ∈ g.insert e) : x = e ∨ x ∈ g := by
  induction g with
  | nil => exact .inl (List.mem_singleton.mp h)
  | cons f rest ih =>
    unfold Group.insert at h
    split at h
    · exact List.mem_cons.mp h
    split at h
    · rcases List.mem_cons.mp h with h | h
      · exact .inl h
      · exact .inr (List.mem_cons_of_mem _ h)
    · rcases List.mem_cons.mp h with rfl | h
      · exact .inr List.mem_cons_self
      · rcases ih h with h | h
        · exact .inl h
        · exact .inr (List.mem_cons_of_mem _ h)

theorem Group.mem_insert_self (g : Group) (e : Entry) : e ∈ g.insert e := by
  induction g with
  | nil => exact List.mem_singleton.mpr rfl
  | cons f g ih =>
    unfold Group.insert
    repeat' split
    · exact List.mem_cons_self
    · exact List.mem_cons_self
    · exact List.mem_cons_of_mem _ ih

theorem Group.mem_insert_of_ne {g : Group} {e x : Entry} (hx : x ∈ g) (hid : x.id ≠ e.id) :
    x ∈ g.insert e := by
  induction g with
  | nil => cases hx
  | cons f g ih =>
    unfold Group.insert
    repeat' split
    · exact List.mem_cons_of_mem _ hx
    · next heq =>
      rcases List.mem_cons.mp hx with rfl | hx
      · exact absurd heq.symm hid
      · exact List.mem_cons_of_mem _ hx
    · rcases List.mem_cons.mp hx with rfl | hx
      · exact List.mem_cons_self
      · exact List.mem_cons_of_mem _ (ih hx)

/-- No entry of the group is a jump. -/
def Group.Quiet (g : Group) : Prop :=
  ∀ e ∈ g, Word.NoJump e.word

end Peephole

end BpfLanes
