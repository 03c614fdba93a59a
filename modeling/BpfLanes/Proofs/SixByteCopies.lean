import BpfLanes.Proofs.GroupMoves
import BpfLanes.Proofs.PieceTiling

/-! # Copies of six bytes

What it takes for a finished group to be a copy of six bytes: its loads and its
stores each cover six bytes, each of them once, every piece is stored where it was
loaded from, counted from the lowest offset, and nothing sets its register in
between. A load and a store of six bytes then do the same.
-/

namespace BpfLanes

open Word (Proper unpacked)

/-- Sets a register. A helper call sets all registers that it may use. -/
def Fields.sets (f : Fields) (r : Int) : Bool :=
  !f.isStore && if f.isCall then decide (0 ≤ r ∧ r ≤ 5) else f.output? == some r

theorem Fields.sets_of_isStore {f : Fields} (h : f.isStore = true) (r : Int) :
    f.sets r = false := by
  simp [Fields.sets, h]

namespace Peephole

/-- Instructions with proper words in ascending order of their positions. -/
structure Ascending (fed : List (Word × Int)) : Prop where
  proper : ∀ x ∈ fed, Proper x.1
  ascending : (fed.map Prod.snd).Pairwise (· < ·)

namespace Ascending

variable {fed : List (Word × Int)} {w : Word} {id : Int}

theorem distinct (h : Ascending fed) : Distinct fed :=
  ⟨h.proper, h.ascending.imp fun hlt => ne_of_lt hlt⟩

theorem init (h : Ascending (fed ++ [(w, id)])) : Ascending fed := by
  refine ⟨fun x hx => h.proper x (List.mem_append_left _ hx), ?_⟩
  have hall := h.ascending
  rw [List.map_append] at hall
  exact hall.sublist (List.sublist_append_left ..)

theorem last (h : Ascending (fed ++ [(w, id)])) : ∀ x ∈ fed, x.2 < id := by
  have hall := h.ascending
  rw [List.map_append, List.pairwise_append] at hall
  intro x hx
  exact hall.2.2 x.2 (List.mem_map_of_mem hx) id (by simp)

end Ascending

/-! ## The instructions of a group -/

/-- Offset and size of a load. -/
def loadPiece (x : Word × Int) : Int × Int := ((unpacked x.1).offset, (unpacked x.1).loadSize)

/-- Offset and size of a store. -/
def storePiece (x : Word × Int) : Int × Int := ((unpacked x.1).offset, (unpacked x.1).storeSize)

/-- The group that gathers some instructions. -/
def gatheredAll (xs : List (Word × Int)) : Group := xs.map fun x => .gathered x.1 x.2

@[simp] theorem ids_gatheredAll (xs : List (Word × Int)) :
    (gatheredAll xs).ids = xs.map Prod.snd := by
  simp [gatheredAll, Group.ids, Function.comp_def]

theorem insert_gatheredAll {xs : List (Word × Int)} {w : Word} {id : Int}
    (h : ∀ x ∈ xs, x.2 < id) :
    Group.insert (.gathered w id) (gatheredAll xs) = gatheredAll (xs ++ [(w, id)]) := by
  rw [Group.insert_of_lt]
  · simp [gatheredAll]
  · rw [ids_gatheredAll]
    exact List.forall_mem_map.mpr h

end Peephole
end BpfLanes
