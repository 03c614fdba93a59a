import BpfLanes.Proofs.FirstSlots

/-! # The order of memory accesses

Dependences between instructions are dependences between registers. A load or store
that touches what an earlier store of its block wrote therefore does not wait for it.
Unless it is put off, it stands behind the store exactly if every slot that was open to
it is in a later row.
-/

namespace BpfLanes

open Compilation BpfLanes.Flow Dependence

/-! ## Accesses -/

/-- The memory that an instruction accesses: some bytes from an offset on, counted from
    the address in a register. -/
structure MemoryAccess where
  base : Int
  offset : Int
  bytes : Int
  deriving DecidableEq, Repr

/-- Two accesses through the same register that have a byte in common. -/
def MemoryAccess.Overlaps (a a' : MemoryAccess) : Prop :=
  a.base = a'.base ∧ a.offset < a'.offset + a'.bytes ∧ a'.offset < a.offset + a.bytes

instance (a a' : MemoryAccess) : Decidable (a.Overlaps a') :=
  inferInstanceAs (Decidable (_ ∧ _ ∧ _))

/-- How many bits a store of an immediate writes. -/
def Opcode.immediateStoreBits : List (Int × Int) := [(0x62, 32), (0x6a, 16), (0x72, 8), (0x7a, 64)]

namespace Fields

/-- What a store writes to. -/
def stored? (f : Fields) : Option MemoryAccess :=
  ((Opcode.storeBits ++ Opcode.immediateStoreBits).lookup f.opcode).map fun bits =>
    { base := f.dst, offset := f.offset, bytes := bits / 8 }

/-- What a load reads from. -/
def loaded? (f : Fields) : Option MemoryAccess :=
  f.loadBits?.map fun bits => { base := f.src, offset := f.offset, bytes := bits / 8 }

theorem plain_of_access {f : Fields} {a : MemoryAccess} (h : f.stored? = some a ∨ f.loaded? = some a) :
    f.isNop = false ∧ f.isBranch = false := by
  have hall : ∀ p ∈ Opcode.storeBits ++ Opcode.immediateStoreBits ++ Opcode.loadBits,
      (p.1 == Opcode.nop) = false ∧ Opcode.branches.contains p.1 = false := by decide
  have hop : ∃ p ∈ Opcode.storeBits ++ Opcode.immediateStoreBits ++ Opcode.loadBits,
      f.opcode = p.1 := by
    rcases h with h | h
    · obtain ⟨bits, hbits, _⟩ := Option.map_eq_some_iff.mp h
      obtain ⟨p, hp, heq⟩ := List.lookup_isSome_iff.mp (Option.isSome_of_eq_some hbits)
      exact ⟨p, List.mem_append_left _ hp, beq_iff_eq.mp heq⟩
    · obtain ⟨bits, hbits, _⟩ := Option.map_eq_some_iff.mp h
      obtain ⟨p, hp, heq⟩ := List.lookup_isSome_iff.mp (Option.isSome_of_eq_some hbits)
      exact ⟨p, List.mem_append_right _ hp, beq_iff_eq.mp heq⟩
  obtain ⟨p, hp, heq⟩ := hop
  unfold isNop isBranch
  rw [heq]
  exact hall p hp

end Fields

namespace Schedule

/-- Instruction `i` of a block stores what a later instruction `j` loads or overwrites,
    at least in part: both use the same register, which nothing in between writes. -/
def MemoryClash (c : Compilation) (blk : Block) (i j : Nat) : Prop :=
  i < j ∧ ∃ f f' a a', FieldsAt c blk i f ∧ FieldsAt c blk j f' ∧ f.stored? = some a ∧
    (f'.stored? = some a' ∨ f'.loaded? = some a') ∧ a.Overlaps a' ∧
    ∀ k, i < k → k < j → ¬ WritesAt c blk k a.base

/-! ## A whole compilation -/

/-- Memory order. Let `top` be the row where the blocks before a block end. An instruction
    that accesses what an earlier store of the block wrote stands behind that store if all
    slots that are open to it do: those behind `top`, behind what it reads from the block,
    and right behind what was looked up for it before the block only in the same lane. The
    converse holds if it is not put off, as in every block that overwrites registers in
    place only. Then it stands in the first row with an open slot, whether or not the store
    comes before it. If it is put off, it stands behind the value that was in its way. -/
theorem memory_order_kept_iff {target : Target} {options : Options} {words : Array Word}
    {texts : Array String} (hwords : NoJumpBefore words) {c e : Compilation}
    (hprep : Runs Optimize.prepare (start target options words texts) () c)
    (hrun : Runs Optimize.run (start target options words texts) () e) {b : Nat} {blk : Block}
    (hb : c.blocks[b]? = some blk) (hkind : blk.kind = .basic) :
    ∃ (g : Digraph) (top : Int), ListScheduled c e b blk g top ∧
      ∀ i j, MemoryClash c blk i j →
        ∃ (r : Reach) (x : Compilation) (arrival : Option (Int × Int)) (ri li rj lj : Int),
          ComesNext c b j blk g top r x ∧ Arrives x b blk g j arrival ∧ StandsAt e blk i ri li ∧
          PlacedFirst c e b blk g top r x arrival j rj lj ∧
          ((∀ row lane, OpenTo c e blk top arrival j row lane → ri < row) → ri < rj) ∧
          ((∀ floor, ¬ PutOff x b blk g top r j floor) →
            (ri < rj ↔ ∀ row lane, OpenTo c e blk top arrival j row lane → ri < row)) := by
  obtain ⟨c', d₀, d, parsed, order, r, hprep', hready, hplace, hd₀, hlists, hd, hrows⟩ :=
    Optimize.runs_run hwords hrun
  obtain ⟨_, rfl⟩ := hprep.unique hprep'
  have hc := hready.laid
  have ht := hready.sized
  rw [← hready.size] at ht
  have hall := allPlaced_of_retargeted hc hlists hd hrows.retargeted
  obtain ⟨g, top, hlist₀⟩ := listScheduled_of_placeAll hc hready.nextUses hready.unplaced ht hplace
    hb hkind
  have hlist : ListScheduled c e b blk g top := by
    refine hlist₀.congr fun k _ => ?_
    unfold placeIn
    rw [hrows.retargeted.rest, hd₀]
  refine ⟨g, top, hlist, fun i j hclash => ?_⟩
  obtain ⟨_, f, f', a, a', hf, hf', hstore, haccess, _⟩ := hclash
  obtain ⟨hnop, _⟩ := Fields.plain_of_access (Or.inl hstore)
  obtain ⟨hnop', hbranch'⟩ := Fields.plain_of_access haccess
  obtain ⟨ri, li, hi⟩ :=
    (hall.finished b blk hb hkind).placed i hf.index_lt ⟨f, hf, hnop⟩
  obtain ⟨r, x, arrival, rj, lj, hnext, harrives, hj⟩ := hlist.first j f' hf' hnop' hbranch'
  have hafter : (∀ row lane, OpenTo c e blk top arrival j row lane → ri < row) → ri < rj :=
    fun hopen => hopen rj lj hj.isOpen
  refine ⟨r, x, arrival, ri, li, rj, lj, hnext, harrives, hi, hj, hafter, fun hnever => ?_⟩
  refine ⟨?_, hafter⟩
  intro hlt row lane hopen
  have hle := hj.first hnever row lane hopen
  omega

/-- A store to the stack and a load from the same place. -/
def storeThenLoad : Array Word :=
  #[0xb701000005000000, 0x631afcff00000000, 0x61a2fcff00000000, 0x0500000000000000,
    0x9500000000000000]

/-- The store waits for the value that it stores. The load reads nothing that the block
    writes, so a slot before the store is open to it, and there it stands. -/
theorem memory_order_kept_iff_storeThenLoad :
    ∃ (c e : Compilation) (blk : Block) (g : Digraph) (top : Int) (r : Reach) (x : Compilation)
      (arrival : Option (Int × Int)) (row lane : Int),
      NoJumpBefore storeThenLoad ∧ Runs Optimize.prepare (quietStart storeThenLoad) () c ∧
      Runs Optimize.run (quietStart storeThenLoad) () e ∧ c.blocks[1]? = some blk ∧
      blk.kind = .basic ∧ ListScheduled c e 1 blk g top ∧ MemoryClash c blk 1 2 ∧
      ComesNext c 1 2 blk g top r x ∧ Arrives x 1 blk g 2 arrival ∧
      (∀ floor, ¬ PutOff x 1 blk g top r 2 floor) ∧ StandsAt e blk 1 1 0 ∧ StandsAt e blk 2 0 1 ∧
      OpenTo c e blk top arrival 2 row lane ∧ row ≤ 1 := by
  obtain ⟨c, e, hc, he, blk, hblk, hkind, hin, hstore, hload, hi, hj⟩ :=
    exists_compiled (s := quietStart storeThenLoad) (P := fun c e => ∃ blk, blk ∈ c.blocks[1]? ∧
      blk.kind = .basic ∧ InPlace (c.bodyOf blk) ∧
      FieldsAt c blk 1 { opcode := 0x63, dst := 10, src := 1, offset := -4, immediate := 0 } ∧
      FieldsAt c blk 2 { opcode := 0x61, dst := 2, src := 10, offset := -4, immediate := 0 } ∧
      StandsAt e blk 1 1 0 ∧ StandsAt e blk 2 0 1)
      (by decide +kernel) (by decide +kernel) (by decide +kernel)
  have hwords : NoJumpBefore storeThenLoad := by decide +kernel
  have hclash : MemoryClash c blk 1 2 :=
    ⟨by decide, _, _, _, _, hstore, hload, rfl, Or.inr rfl, by decide, by omega⟩
  obtain ⟨g, top, hlist, hpairs⟩ := memory_order_kept_iff hwords hc he hblk hkind
  obtain ⟨r, x, arrival, ri, li, rj, lj, hnext, harrives, hi', hplaced, _, hiff⟩ :=
    hpairs 1 2 hclash
  obtain ⟨rfl, _⟩ := hi.unique hi'
  obtain ⟨rfl, _⟩ := hj.unique hplaced.stands
  have hopen : ∃ row lane, OpenTo c e blk top arrival 2 row lane ∧ row ≤ 1 := by
    by_contra hnone
    have hlt := (hiff (hplaced.inPlace hin)).mpr fun row lane hopen =>
      Int.not_le.mp fun hle => hnone ⟨row, lane, hopen, hle⟩
    exact absurd hlt (by decide)
  obtain ⟨row, lane, hopen, hle⟩ := hopen
  exact ⟨c, e, blk, g, top, r, x, arrival, row, lane, hwords, hc, he, hblk, hkind, hlist, hclash,
    hnext, harrives, hplaced.inPlace hin, hi, hj, hopen, hle⟩

end Schedule
end BpfLanes
