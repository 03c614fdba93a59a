import BpfLanes.Proofs.Recognisers

/-! # Classes of loads and stores

What the opcode tables say about loads and stores: which registers they read, how
many bytes they move, and which of them are narrow enough to be gathered into an
access of six bytes. A store of an immediate and a load that does not go through a
register have no size here.
-/

namespace BpfLanes

variable {α : Type}

/-! ## Positions in short lists -/

namespace Position

theorem get_first (a : α) (as : List α) : get (a :: as).toArray 0 = .ok a := by
  simp [get, get?, resolve]

theorem get_second (a b : α) (as : List α) : get (a :: b :: as).toArray 1 = .ok b := by
  simp [get, get?, resolve]

theorem get_second_singleton (a : α) : get [a].toArray 1 = .error .outOfRange := by
  simp [get, get?, resolve]

end Position

namespace Fields

variable {bits size : Int}

variable {f : Fields}

/-! ## Stores -/

/-- A store of an immediate, which has no size. -/
def isImmediateStore (f : Fields) : Bool := f.isStore && f.storeBits?.isNone

theorem storeBits?_of_isStore (h : f.isStore = true) (himm : f.isImmediateStore = false) :
    ∃ bits, f.storeBits? = some bits := by
  rw [isImmediateStore, h, Bool.true_and] at himm
  exact Option.isSome_iff_exists.mp (by simpa using himm)

theorem isStore_of_storeBits? (h : f.storeBits? = some bits) : f.isStore = true := by
  have hall : ∀ e ∈ Opcode.storeBits, Opcode.stores.contains e.1 = true := by decide
  exact hall (f.opcode, bits) (mem_of_lookup h)

theorem storeBits?_of_not_isStore (h : f.isStore = false) : f.storeBits? = none := by
  cases hbits : f.storeBits? with
  | none => rfl
  | some bits =>
    rw [isStore_of_storeBits? hbits] at h
    cases h

theorem inputs_of_storeBits? (h : f.storeBits? = some bits) : f.inputs = [f.src, f.dst] := by
  have hall : ∀ e ∈ Opcode.storeBits, Opcode.readsSource.contains e.1 = false
      ∧ Opcode.readsTarget.contains e.1 = false ∧ Opcode.readsBoth.contains e.1 = true := by decide
  obtain ⟨hsource, htarget, hboth⟩ := hall (f.opcode, bits) (mem_of_lookup h)
  unfold inputs
  rw [hsource, htarget, hboth]
  rfl

theorem inputs_of_isImmediateStore (h : f.isImmediateStore = true) : f.inputs = [f.dst] := by
  have hall : ∀ o ∈ Opcode.stores, (Opcode.storeBits.lookup o).isNone = true →
      Opcode.readsSource.contains o = false ∧ Opcode.readsTarget.contains o = true := by decide
  simp only [isImmediateStore, Bool.and_eq_true] at h
  obtain ⟨hsource, htarget⟩ := hall f.opcode (by simpa [isStore] using h.1) h.2
  unfold inputs
  rw [hsource, htarget]
  rfl

theorem isImmediateStore_of_storeBits? (h : f.storeBits? = some bits) :
    f.isImmediateStore = false := by
  simp [isImmediateStore, h]

theorem classes_of_isStore (h : f.isStore = true) :
    f.isMoveImmediate = false ∧ f.isLoad = false ∧ f.isNarrowLoad = false := by
  have hall : ∀ o ∈ Opcode.stores, (o == Opcode.moveImmediate) = false
      ∧ Opcode.loads.contains o = false ∧ Opcode.narrowLoads.contains o = false := by decide
  exact hall f.opcode (by simpa [isStore] using h)

/-! ## Loads -/

theorem isLoad_of_loadBits? (h : f.loadBits? = some bits) : f.isLoad = true := by
  have hall : ∀ e ∈ Opcode.loadBits, Opcode.loads.contains e.1 = true := by decide
  exact hall (f.opcode, bits) (mem_of_lookup h)

theorem classes_of_isLoad (h : f.isLoad = true) :
    f.isMoveImmediate = false ∧ f.isStore = false ∧ f.isNarrowStore = false := by
  have hall : ∀ o ∈ Opcode.loads, (o == Opcode.moveImmediate) = false
      ∧ Opcode.stores.contains o = false ∧ Opcode.narrowStores.contains o = false := by decide
  exact hall f.opcode (by simpa [isLoad] using h)

/-! ## Sizes -/

/-- How many bytes a load moves. -/
def loadBytes? (f : Fields) : Option Int := f.loadBits?.map (Int.tdiv · 8)

/-- How many bytes a store moves. -/
def storeBytes? (f : Fields) : Option Int := f.storeBits?.map (Int.tdiv · 8)

/-- The number of bytes of an access with a size. -/
def IsWidth (size : Int) : Prop := size ∈ [1, 2, 4, 6, 8]

theorem IsWidth.pos (h : IsWidth size) : 0 < size := by
  have hall : ∀ n ∈ [1, 2, 4, 6, 8], (0 : Int) < n := by decide
  exact hall size h

theorem isWidth_loadBytes? (h : f.loadBytes? = some size) : IsWidth size := by
  have hall : ∀ e ∈ Opcode.loadBits, Int.tdiv e.2 8 ∈ [1, 2, 4, 6, 8] := by decide
  obtain ⟨bits, hbits, rfl⟩ := Option.map_eq_some_iff.mp h
  exact hall (f.opcode, bits) (mem_of_lookup hbits)

theorem isWidth_storeBytes? (h : f.storeBytes? = some size) : IsWidth size := by
  have hall : ∀ e ∈ Opcode.storeBits, Int.tdiv e.2 8 ∈ [1, 2, 4, 6, 8] := by decide
  obtain ⟨bits, hbits, rfl⟩ := Option.map_eq_some_iff.mp h
  exact hall (f.opcode, bits) (mem_of_lookup hbits)

theorem loadBytes?_pos (h : f.loadBytes? = some size) : 0 < size := (isWidth_loadBytes? h).pos

theorem isLoad_of_loadBytes? (h : f.loadBytes? = some size) : f.isLoad = true := by
  obtain ⟨bits, hbits, _⟩ := Option.map_eq_some_iff.mp h
  exact isLoad_of_loadBits? hbits

theorem not_isStore_of_loadBytes? (h : f.loadBytes? = some size) : f.isStore = false :=
  (classes_of_isLoad (isLoad_of_loadBytes? h)).2.1

theorem loadBytes?_of_isNarrowLoad (h : f.isNarrowLoad = true) :
    ∃ size, f.loadBytes? = some size ∧ (size = 1 ∨ size = 2) := by
  have hall : ∀ o ∈ Opcode.narrowLoads,
      (Opcode.loadBits.lookup o).map (Int.tdiv · 8) = some 1
        ∨ (Opcode.loadBits.lookup o).map (Int.tdiv · 8) = some 2 := by decide
  rcases hall f.opcode (by simpa [isNarrowLoad] using h) with h | h
  · exact ⟨1, h, .inl rfl⟩
  · exact ⟨2, h, .inr rfl⟩

theorem storeBytes?_of_isNarrowStore (h : f.isNarrowStore = true) :
    ∃ size, f.storeBytes? = some size ∧ (size = 1 ∨ size = 2) := by
  have hall : ∀ o ∈ Opcode.narrowStores,
      (Opcode.storeBits.lookup o).map (Int.tdiv · 8) = some 1
        ∨ (Opcode.storeBits.lookup o).map (Int.tdiv · 8) = some 2 := by decide
  rcases hall f.opcode (by simpa [isNarrowStore] using h) with h | h
  · exact ⟨1, h, .inl rfl⟩
  · exact ⟨2, h, .inr rfl⟩

/-- How many bytes a load moves, or 0. -/
def loadSize (f : Fields) : Int := f.loadBytes?.getD 0

/-- How many bytes a store moves, or 0. -/
def storeSize (f : Fields) : Int := f.storeBytes?.getD 0

theorem loadBytes?_eq_loadSize (h : f.isNarrowLoad = true) : f.loadBytes? = some f.loadSize := by
  obtain ⟨size, hsize, _⟩ := loadBytes?_of_isNarrowLoad h
  rw [loadSize, hsize, Option.getD_some]

theorem loadSize_pos (h : f.isNarrowLoad = true) : 0 < f.loadSize :=
  loadBytes?_pos (loadBytes?_eq_loadSize h)

theorem storeBytes?_eq_storeSize (h : f.isStore = true) (himm : f.isImmediateStore = false) :
    f.storeBytes? = some f.storeSize ∧ 0 < f.storeSize := by
  obtain ⟨bits, hbits⟩ := storeBits?_of_isStore h himm
  have hbytes : f.storeBytes? = some (Int.tdiv bits 8) := by rw [storeBytes?, hbits, Option.map_some]
  have hsize : f.storeSize = Int.tdiv bits 8 := by rw [storeSize, hbytes, Option.getD_some]
  exact ⟨by rw [hbytes, hsize], hsize ▸ (isWidth_storeBytes? hbytes).pos⟩

theorem isWidth_storeSize (h : f.isStore = true) (himm : f.isImmediateStore = false) :
    IsWidth f.storeSize :=
  isWidth_storeBytes? (storeBytes?_eq_storeSize h himm).1

theorem isLoad_of_isNarrowLoad (h : f.isNarrowLoad = true) : f.isLoad = true :=
  isLoad_of_loadBytes? (loadBytes?_eq_loadSize h)

section
variable (h : f.isNarrowStore = true)
include h

theorem storeBits?_of_isNarrowStore :
    ∃ bits, f.storeBits? = some bits ∧ Int.tdiv bits 8 = f.storeSize := by
  obtain ⟨size, hsize, _⟩ := storeBytes?_of_isNarrowStore h
  obtain ⟨bits, hbits, rfl⟩ := Option.map_eq_some_iff.mp hsize
  exact ⟨bits, hbits, by rw [storeSize, hsize, Option.getD_some]⟩

theorem isStore_of_isNarrowStore : f.isStore = true := by
  obtain ⟨bits, hbits, -⟩ := storeBits?_of_isNarrowStore h
  exact isStore_of_storeBits? hbits

theorem isImmediateStore_of_isNarrowStore :
    f.isImmediateStore = false := by
  obtain ⟨bits, hbits, -⟩ := storeBits?_of_isNarrowStore h
  exact isImmediateStore_of_storeBits? hbits

theorem storeSize_pos : 0 < f.storeSize :=
  (storeBytes?_eq_storeSize (isStore_of_isNarrowStore h) (isImmediateStore_of_isNarrowStore h)).2

end

end Fields

namespace Peephole

theorem bytesOfBits_load (f : Fields) : bytesOfBits f.loadBits? = need f.loadBytes? := by
  unfold bytesOfBits Fields.loadBytes?
  cases f.loadBits? <;> rfl

theorem bytesOfBits_store (f : Fields) : bytesOfBits f.storeBits? = need f.storeBytes? := by
  unfold bytesOfBits Fields.storeBytes?
  cases f.storeBits? <;> rfl

end Peephole
end BpfLanes
