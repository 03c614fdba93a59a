import BpfLanes.Proofs.Annotations
import BpfLanes.Proofs.SlotSearch

/-! # Slots and places

The table of rows and the schedule say the same thing in two ways: a slot holds
the number of an instruction exactly if the schedule puts that instruction there.
This holds before anything is placed, and placing an instruction in a free slot
keeps it.
-/

namespace BpfLanes

open Compilation BpfLanes.Flow

variable {words : Array Word} {blk blk' : Block} {lane row : Int} {b b' id id' k q : Nat}
  {pl : Place} {s : Placement.Slot}

/-! ## Instructions of blocks -/

/-- The instruction at position `q` has the number `id` in the store. Instructions of
    an earlier cut may still be in the store; they belong to no block. -/
def Numbered (blocks : Array Block) (q id : Nat) : Prop :=
  ∃ (b : Nat) (blk : Block) (k : Nat), blocks[b]? = some blk ∧ blk.kind = .basic ∧
    blk.body[k]? = some id ∧ q = blk.start.toNat + k

theorem Flow.CutWell.disjoint {blocks : Array Block} (h : CutWell words blocks)
    (hb : blocks[b]? = some blk) (hb' : blocks[b']? = some blk') (hkind : blk.kind = .basic)
    (hkind' : blk'.kind = .basic) (hlt : b < b') : blk.stop ≤ blk'.start := by
  have hord := h.ordered
  rw [List.pairwise_iff_getElem] at hord
  rw [Array.getElem?_eq_some_iff] at hb hb'
  obtain ⟨hsize, rfl⟩ := hb
  obtain ⟨hsize', rfl⟩ := hb'
  exact ((hord b b' (by simpa using hsize) (by simpa using hsize') hlt).2 hkind').2

variable {Q : Instr → Prop} {c : Compilation}

section
variable (h : Laid Q words c) (hb : c.blocks[b]? = some blk) (hkind : blk.kind = .basic)
  (hk : blk.body[k]? = some id)
include h hb hkind hk

theorem Flow.Laid.index_lt : blk.start + k < blk.stop := by
  have hsize := (h.holds b blk hb hkind).size
  have hspan := h.cut.span b blk hb hkind
  have hlt : k < blk.body.size := lt_size hk
  unfold Block.stop at hspan ⊢
  omega

theorem Flow.Laid.unique_index {k' : Nat} (hb' : c.blocks[b']? = some blk')
    (hkind' : blk'.kind = .basic) (hk' : blk'.body[k']? = some id')
    (heq : blk.start.toNat + k = blk'.start.toNat + k') : b = b' ∧ k = k' := by
  have hlt := h.index_lt hb hkind hk
  have hlt' := h.index_lt hb' hkind' hk'
  have hspan := h.cut.span b blk hb hkind
  have hspan' := h.cut.span b' blk' hb' hkind'
  rcases Nat.lt_trichotomy b b' with hbb | hbb | hbb
  · have := h.cut.disjoint hb hb' hkind hkind' hbb
    omega
  · subst hbb
    rw [hb] at hb'
    cases hb'
    omega
  · have := h.cut.disjoint hb' hb hkind' hkind hbb
    omega

end

theorem Flow.Laid.numbered_unique (h : Laid Q words c) (hq : Numbered c.blocks q id)
    (hq' : Numbered c.blocks q id') : id = id' := by
  obtain ⟨b, blk, k, hb, hkind, hk, rfl⟩ := hq
  obtain ⟨b', blk', k', hb', hkind', hk', heq⟩ := hq'
  obtain ⟨rfl, rfl⟩ := h.unique_index hb hkind hk hb' hkind' hk' heq
  rw [hb] at hb'
  cases hb'
  rw [hk] at hk'
  cases hk'
  rfl

theorem Flow.Laid.standsFor (h : Laid Q words c) (hq : Numbered c.blocks q id) :
    ∃ i, c.store[id]? = some i ∧ i.StandsFor words q := by
  obtain ⟨b, blk, k, hb, hkind, hk, rfl⟩ := hq
  obtain ⟨i, hi, hstands, _⟩ := (h.holds b blk hb hkind).instr k id hk
  exact ⟨i, hi, hstands⟩

/-! ## The invariant -/

/-- The table and the schedule agree. -/
structure Tabled (c : Compilation) : Prop where
  instr : ∀ q id, Numbered c.blocks q id →
    ∃ i : Instr, c.store[id]? = some i ∧ i.position = some (q : Int)
  unique : ∀ q id id', Numbered c.blocks q id → Numbered c.blocks q id' → id = id'
  slot : ∀ row lane id, Table.entry c.table row lane = some (some id) ↔
    ∃ (q : Nat) (pl : Place), Numbered c.blocks q id ∧ c.schedule[q]? = some pl ∧
      pl.time = row ∧ pl.lane = some lane
  numbered : ∀ (q : Nat) (pl : Place) (lane : Int), c.schedule[q]? = some pl →
    pl.lane = some lane → ∃ id, Numbered c.blocks q id

variable {q' : Nat}
variable {d : Compilation}

theorem Tabled.position_unique (h : Tabled c) (hq : Numbered c.blocks q id)
    (hq' : Numbered c.blocks q' id) : q = q' := by
  obtain ⟨i, hi, hpos⟩ := h.instr q id hq
  obtain ⟨i', hi', hpos'⟩ := h.instr q' id hq'
  rw [hi] at hi'
  cases hi'
  rw [hpos] at hpos'
  have := Option.some.inj hpos'
  omega

theorem Tabled.placed_slot (h : Tabled c) (hpl : c.schedule[q]? = some pl)
    (hlane : pl.lane = some lane) :
    ∃ id, Numbered c.blocks q id ∧ Table.entry c.table pl.time lane = some (some id) := by
  obtain ⟨id, hid⟩ := h.numbered q pl lane hpl hlane
  exact ⟨id, hid, (h.slot pl.time lane id).mpr ⟨q, pl, hid, hpl, rfl, hlane⟩⟩

theorem Tabled.lanesNonneg (h : Tabled c) : Placement.LanesNonneg c := by
  intro p pl lane hpl hlane
  obtain ⟨q, _, hq⟩ := Position.get_eq_ok_iff.mp hpl
  obtain ⟨id, _, hslot⟩ := h.placed_slot hq hlane
  exact (Table.entry_eq_some_iff.mp hslot).2.1

theorem Tabled.slot_unique (h : Tabled c) {row' lane' : Int}
    (hs : Table.entry c.table row lane = some (some id))
    (hs' : Table.entry c.table row' lane' = some (some id)) : row = row' ∧ lane = lane' := by
  obtain ⟨q, pl, hq, hpl, rfl, hlane⟩ := (h.slot row lane id).mp hs
  obtain ⟨q', pl', hq', hpl', rfl, hlane'⟩ := (h.slot row' lane' id).mp hs'
  obtain rfl := h.position_unique hq hq'
  rw [hpl] at hpl'
  cases hpl'
  rw [hlane] at hlane'
  exact ⟨rfl, Option.some.inj hlane'⟩

theorem Tabled.place_inj (h : Tabled c) {pl' : Place} (hpl : c.schedule[q]? = some pl)
    (hpl' : c.schedule[q']? = some pl') (htime : pl.time = pl'.time) (hlane : pl.lane = some lane)
    (hlane' : pl'.lane = some lane) : q = q' := by
  obtain ⟨id, hid, hslot⟩ := h.placed_slot hpl hlane
  obtain ⟨id', hid', hslot'⟩ := h.placed_slot hpl' hlane'
  rw [htime, hslot'] at hslot
  cases hslot
  exact h.position_unique hid hid'

/-- Nothing is placed, and no value is on record. -/
structure NothingPlaced (c : Compilation) : Prop where
  vacant : ∀ row lane id, Table.entry c.table row lane ≠ some (some id)
  ranges : c.ranges = []

theorem tabled_of_laid (h : Laid Q words c) (hempty : NothingPlaced c) :
    Tabled c := by
  have hlane : ∀ (q : Nat) (pl : Place) (lane : Int), c.schedule[q]? = some pl →
      pl.lane ≠ some lane := by
    intro q pl lane hpl heq
    rw [(h.fresh q pl hpl).2] at heq
    cases heq
  refine ⟨?_, fun q id id' => h.numbered_unique, ?_, ?_⟩
  · intro q id hq
    obtain ⟨i, hi, hstands⟩ := h.standsFor hq
    exact ⟨i, hi, hstands.position⟩
  · intro row lane id
    constructor
    · intro hs
      exact absurd hs (hempty.vacant row lane id)
    · rintro ⟨q, pl, _, hpl, _, heq⟩
      exact absurd heq (hlane q pl lane hpl)
  · intro q pl lane hpl heq
    exact absurd heq (hlane q pl lane hpl)

/-! ## Placing an instruction -/

/-- The instruction with number `id` at position `q` is put into the slot `s`. -/
structure PutAt (c : Compilation) (q id : Nat) (s : Placement.Slot) (d : Compilation) : Prop where
  free : s.Free c.table
  place : ∀ q', d.schedule[q']? = if q' = q then
      (c.schedule[q]?).map fun pl => { pl with time := s.row, lane := some s.lane }
    else c.schedule[q']?
  entry : ∀ r l, Table.entry d.table r l =
    if r = s.row ∧ l = s.lane then some (some id) else Table.entry c.table r l
  rest : d = { c with ranges := d.ranges, schedule := d.schedule, table := d.table }

theorem PutAt.kept (h : PutAt c q id s d) (hs : Table.entry c.table row lane = some (some id')) :
    Table.entry d.table row lane = some (some id') := by
  rw [h.entry, if_neg]
  · exact hs
  · rintro ⟨rfl, rfl⟩
    have hfree := h.free
    unfold Placement.Slot.Free at hfree
    rw [hs] at hfree
    cases hfree

/-- Putting an instruction that has no place yet into a free slot keeps table and
    schedule in agreement. -/
theorem Tabled.put (h : Tabled c) (hq : Numbered c.blocks q id) (hpl : c.schedule[q]? = some pl)
    (hlane : pl.lane = none) (hput : PutAt c q id s d) : Tabled d := by
  have hblocks : d.blocks = c.blocks := by rw [hput.rest]
  have hstore : d.store = c.store := by rw [hput.rest]
  have hself : d.schedule[q]? = some { pl with time := s.row, lane := some s.lane } := by
    rw [hput.place, if_pos rfl, hpl]
    rfl
  refine ⟨?_, ?_, ?_, ?_⟩
  · rw [hblocks, hstore]
    exact h.instr
  · rw [hblocks]
    exact h.unique
  · intro row lane id'
    rw [hput.entry, hblocks]
    constructor
    · intro hs
      split at hs
      · next heq =>
        obtain ⟨rfl, rfl⟩ := heq
        obtain rfl : id = id' := Option.some.inj (Option.some.inj hs)
        exact ⟨q, _, hq, hself, rfl, rfl⟩
      · obtain ⟨q', pl', hq', hpl', hrow, hlane'⟩ := (h.slot row lane id').mp hs
        have hne : q' ≠ q := by
          rintro rfl
          rw [hpl] at hpl'
          cases hpl'
          rw [hlane] at hlane'
          cases hlane'
        refine ⟨q', pl', hq', ?_, hrow, hlane'⟩
        rwa [hput.place, if_neg hne]
    · rintro ⟨q', pl', hq', hpl', rfl, hlane'⟩
      by_cases hne : q' = q
      · subst hne
        rw [hself] at hpl'
        cases hpl'
        obtain rfl := h.unique q' id id' hq hq'
        rw [if_pos ⟨rfl, (Option.some.inj hlane').symm⟩]
      · rw [hput.place, if_neg hne] at hpl'
        have hs := (h.slot pl'.time lane id').mpr ⟨q', pl', hq', hpl', rfl, hlane'⟩
        rw [if_neg]
        · exact hs
        · -- the slot was free, so nothing else stands in it
          rintro ⟨hrow, hlane''⟩
          have hfree := hput.free
          unfold Placement.Slot.Free at hfree
          rw [← hrow, ← hlane'', hs] at hfree
          cases hfree
  · intro q' pl' lane hpl' hlane'
    rw [hblocks]
    by_cases hne : q' = q
    · subst hne
      exact ⟨id, hq⟩
    · rw [hput.place, if_neg hne] at hpl'
      exact h.numbered q' pl' lane hpl' hlane'

end BpfLanes
