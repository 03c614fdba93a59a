import BpfLanes.Proofs.ListSchedule

/-! # Slots, places and dependences of a schedule

Two results about every program that is placed. Slots and places are in bijection:
every instruction that does something stands in exactly one slot, and no slot is
ever given away twice. And an instruction stands behind the one whose result it
reads, in the same lane if it comes in the very next row.
-/

namespace BpfLanes.Schedule

open Compilation BpfLanes.Flow

variable {texts : Array String} {words : Array Word} {c : Compilation} {options : Options}
  {target : Target}

/-! ## Starting from a prepared program -/

theorem start_empty (row lane : Int) (id : Nat) :
    Table.entry (start target options words texts).table row lane ≠ some (some id) := by
  intro h
  obtain ⟨_, _, r, hr, hid⟩ := Table.entry_eq_some_iff.mp h
  have htable : (start target options words texts).table =
      words.map fun _ => Array.replicate target.lanes.toNat none := rfl
  rw [htable, Array.getElem?_map] at hr
  obtain ⟨_, _, rfl⟩ := Option.map_eq_some_iff.mp hr
  rw [Array.getElem?_replicate] at hid
  split at hid
  · cases hid
  · cases hid

/-- A program that is ready to be placed: it is cut into blocks in which the next uses of
    values are noted, and nothing of it is placed. There are as many rows as words. -/
structure Placeable (target : Target) (words parsed : Array Word) (c : Compilation) : Prop where
  jumps : JumpsFrom words parsed
  laid : Laid (fun _ => True) parsed c
  nextUses : ∀ (b : Nat) (blk : Block), c.blocks[b]? = some blk → blk.kind = .basic →
    NextUses c blk
  unplaced : NothingPlaced c
  sized : Table.Sized words.size c.target.lanes c.table
  size : parsed.size = words.size
  target : c.target = target

theorem placeable_of_prepare (hwords : NoJumpBefore words)
    (h : Runs Optimize.prepare (start target options words texts) () c) :
    ∃ parsed, Placeable target words parsed c := by
  obtain ⟨parsed, fresh, marked, hjumps, ⟨hparsed, hsize⟩, hprep, hset⟩ :=
    Optimize.runs_prepare (Optimize.uncut_start hwords) h
  refine ⟨parsed, hjumps, hprep.blocks, fun _ _ => hprep.nextUses, ⟨?_, hset.ranges⟩, ?_, ?_,
    hset.target⟩
  · rw [hset.table]
    exact start_empty
  · rw [hset.table, hset.target]
    exact Table.sized_of_words
  · rw [hparsed]
    split
    · exact hsize
    · rfl

/-! ## Slots -/

/-- While the blocks of `c` are placed, one instruction is placed in the state `x`, and
    `y` is the state after it. -/
def Placing (c x y : Compilation) : Prop :=
  ∃ (blocks done order earlier : List Int) (b n : Int) (blk : Block) (g : Digraph)
    (r r₁ r₂ : Reach) (d d' : Compilation),
    Runs blockOrder c blocks c ∧ done ++ [b] <+: blocks ∧
    Runs (done.foldlM placeNext { row := -1, position := -1 }) c r d ∧
    Position.get d.blocks b = .ok blk ∧
    Dependence.graph blk.liveIn blk.liveOut (d.bodyOf blk) = .ok g ∧
    d' = { d with drawings := d'.drawings } ∧ Runs (placementOrder blk g) d' order d' ∧
    earlier ++ [n] <+: order ∧ Runs (earlier.foldlM (placeInstr b blk g r.row) r) d' r₁ x ∧
    Runs (placeInstr b blk g r.row r₁ n) x r₂ y

theorem placing_kept {Q : Instr → Prop} {x y : Compilation} (hc : Laid Q words c)
    (hempty : NothingPlaced c) (h : Placing c x y) {row lane : Int} {id : Nat}
    (hs : Table.entry x.table row lane = some (some id)) :
    Table.entry y.table row lane = some (some id) := by
  obtain ⟨blocks, done, order, earlier, b, n, blk, g, r, r₁, r₂, d, d', hblocks, hdone, hrun,
    hblk, hg, hd', horder, hearlier, hplaced, hstep⟩ := h
  -- the state before the block, and the one before the instruction
  obtain ⟨b, rfl, -, -, ho⟩ := opened_after hc hempty hrun hblocks hdone hblk hg hd' horder
  have hx := runs_placeInstrs ho.ready ho.edges ho.places ho.last
    ((List.prefix_append _ _).trans hearlier) hplaced
  obtain ⟨rest, rfl⟩ := hearlier
  obtain ⟨k, rfl, _⟩ := ho.places.index (by simp : n ∈ earlier ++ [n] ++ rest)
  obtain ⟨_, _, _, _, hin⟩ := ho.inserted hx (List.append_assoc ..) hstep
  exact hin.kept hs

/-- Slots and places are in bijection once the blocks of a program are placed, which stay
    as they are. Every instruction that does something is in the slot of its place and in
    no other, every slot that is filled holds such an instruction, and no placement on the
    way overwrites a slot that was filled. -/
theorem slots_match_places {target : Target} {options : Options} {words : Array Word}
    {texts : Array String} (hwords : NoJumpBefore words) {c d : Compilation}
    (hprep : Runs Optimize.prepare (start target options words texts) () c)
    (hplace : Runs placeAll c () d) :
    d.blocks = c.blocks ∧
    (∀ (b : Nat) (blk : Block) (k id : Nat), c.blocks[b]? = some blk → blk.kind = .basic →
      blk.body[k]? = some id → Active c blk k →
      ∃ i : Instr, d.store[id]? = some i ∧ i.position = some ((blk.start.toNat + k : Nat) : Int) ∧
      ∃ row lane, StandsAt d blk k row lane ∧
        ∀ row' lane', Table.entry d.table row' lane' = some (some id) ↔
          row' = row ∧ lane' = lane) ∧
    (∀ (row lane : Int) (id : Nat), Table.entry d.table row lane = some (some id) →
      ∃ (b : Nat) (blk : Block) (k : Nat), c.blocks[b]? = some blk ∧ blk.kind = .basic ∧
        blk.body[k]? = some id ∧ Active c blk k ∧ StandsAt d blk k row lane) ∧
    (∀ (x y : Compilation), Placing c x y → ∀ (row lane : Int) (id : Nat),
      Table.entry x.table row lane = some (some id) →
      Table.entry y.table row lane = some (some id)) := by
  obtain ⟨parsed, hready⟩ := placeable_of_prepare hwords hprep
  have hc := hready.laid
  obtain ⟨order, r, hlists, hd⟩ := progress_of_placeAll hc hready.unplaced hplace
  have hblocks := hd.frame.blocks
  refine ⟨hblocks, ?_, ?_, fun x y h row lane id hs => placing_kept hc hready.unplaced h hs⟩
  · intro b blk k id hb hkind hk hact
    have hnum : Numbered d.blocks (blk.start.toNat + k) id :=
      ⟨b, blk, k, hblocks ▸ hb, hkind, hk, rfl⟩
    obtain ⟨i, hi, hpos⟩ := hd.tabled.instr _ id hnum
    obtain ⟨row, lane, hs⟩ :=
      (hd.finished b blk (hlists.all b blk hb hkind) hb hkind).placed k (lt_size hk) hact
    refine ⟨i, hi, hpos, row, lane, hs, ?_⟩
    obtain ⟨pl, hpl, hrow, hlane⟩ := hs
    have hslot := (hd.tabled.slot row lane id).mpr ⟨_, pl, hnum, hpl, hrow, hlane⟩
    intro row' lane'
    constructor
    · intro hslot'
      exact hd.tabled.slot_unique hslot' hslot
    · rintro ⟨rfl, rfl⟩
      exact hslot
  · intro row lane id hs
    obtain ⟨q, pl, ⟨b, blk, k, hb, hkind, hk, rfl⟩, hpl, hrow, hlane⟩ :=
      (hd.tabled.slot row lane id).mp hs
    rw [hblocks] at hb
    have hstands : StandsAt d blk k row lane := ⟨pl, hpl, hrow, hlane⟩
    exact ⟨b, blk, k, hb, hkind, hk, (hd.finished b blk (hlists.all b blk hb hkind) hb
      hkind).active k row lane (lt_size hk) hstands, hstands⟩

/-- A load, an addition to what was loaded, and a jump over one instruction. -/
def loadAndTest : Array Word :=
  #[0x6112000000000000, 0x0702000001000000, 0x1502010000000000, 0xb700000002000000,
    0x9500000000000000]

/-- A compilation of a program without texts that prints no table. -/
def quietStart (words : Array Word) : Compilation :=
  start {} { printTable := false } words (words.map fun _ => "")

theorem exists_compiled {s : Compilation} {P : Compilation → Compilation → Prop}
    (hc : finishes Optimize.prepare s = true) (he : finishes Optimize.run s = true)
    (h : P (stateAfter Optimize.prepare s) (stateAfter Optimize.run s)) :
    ∃ c e, Runs Optimize.prepare s () c ∧ Runs Optimize.run s () e ∧ P c e :=
  ⟨_, _, runs_after hc, runs_after he, h⟩

/-- The addition stands in the second row, in the lane of the load. -/
theorem slots_match_places_loadAndTest :
    ∃ (c d : Compilation) (b k : Nat) (blk : Block),
      Runs Optimize.prepare (quietStart loadAndTest) () c ∧ Runs placeAll c () d ∧
      Table.entry d.table 1 0 = some (some 1) ∧ c.blocks[b]? = some blk ∧ blk.kind = .basic ∧
      blk.body[k]? = some 1 ∧ Active c blk k ∧ StandsAt d blk k 1 0 ∧
      ∀ row lane, Table.entry d.table row lane = some (some 1) ↔ row = 1 ∧ lane = 0 := by
  obtain ⟨c, d, hc, hd, hslot⟩ := exists_chain (m := Optimize.prepare) (n := placeAll)
    (s := quietStart loadAndTest) (P := fun _ d => Table.entry d.table 1 0 = some (some 1))
    (by decide +kernel) (by decide +kernel) (by decide +kernel)
  obtain ⟨_, hplaced, hslots, _⟩ := slots_match_places (by decide +kernel) hc hd
  obtain ⟨b, blk, k, hb, hkind, hk, hact, hstands⟩ := hslots 1 0 1 hslot
  obtain ⟨_, _, _, row, lane, _, hall⟩ := hplaced b blk k 1 hb hkind hk hact
  obtain ⟨rfl, rfl⟩ := (hall 1 0).mp hslot
  exact ⟨c, d, b, k, blk, hc, hd, hslot, hb, hkind, hk, hact, hstands, hall⟩

/-! ## Dependences -/

/-- An instruction stands behind the one whose result it reads, and in its lane if it
    comes in the very next row. This holds for every block that was placed, also when
    the schedule stops at a later one. -/
theorem readers_wait_for_writers {target : Target} {options : Options} {words : Array Word}
    {texts : Array String} (hwords : NoJumpBefore words) {c d : Compilation}
    (hprep : Runs Optimize.prepare (start target options words texts) () c)
    {order done : List Int} (horder : Runs blockOrder c order c) (hdone : done <+: order)
    {r : Reach} (hplace : Runs (done.foldlM placeNext { row := -1, position := -1 }) c r d)
    {b : Nat} {blk : Block} (hb : c.blocks[b]? = some blk) (hmem : (b : Int) ∈ done)
    {register : Int} {i j : Nat} (hfeeds : Dependence.Feeds (c.bodyOf blk) register i j) :
    ∃ row lane row' lane', StandsAt d blk i row lane ∧ StandsAt d blk j row' lane' ∧
      row < row' ∧ (row' = row + 1 → lane' = lane) := by
  obtain ⟨parsed, hready⟩ := placeable_of_prepare hwords hprep
  have hc := hready.laid
  obtain ⟨_, hlists⟩ := blockOrder_spec hc horder
  have hd := runs_placeBlocks hc hready.unplaced hplace hlists hdone
  obtain ⟨b', blk', hbb, hb', hkind⟩ := hlists.basic b (hdone.subset hmem)
  obtain rfl : b = b' := by omega
  rw [hb] at hb'
  cases hb'
  have hfinished := hd.finished b blk hmem hb hkind
  obtain ⟨hj, hacti, hactj⟩ := hc.active_of_feeds hb hkind hfeeds
  have hlt := hfeeds.lt
  obtain ⟨row, lane, hi⟩ := hfinished.placed i (by omega) hacti
  obtain ⟨row', lane', hj⟩ := hfinished.placed j hj hactj
  exact ⟨row, lane, row', lane', hi, hj, hfinished.waits hfeeds hi hj⟩

theorem readers_wait_for_writers_loadAndTest :
    ∃ (c d : Compilation) (order : List Int) (r : Reach) (blk : Block) (register : Int),
      Runs Optimize.prepare (quietStart loadAndTest) () c ∧ Runs blockOrder c order c ∧
      Runs (order.foldlM placeNext { row := -1, position := -1 }) c r d ∧
      c.blocks[1]? = some blk ∧ Dependence.Feeds (c.bodyOf blk) register 0 1 ∧
      ∃ row lane row' lane', StandsAt d blk 0 row lane ∧ StandsAt d blk 1 row' lane' ∧
        row < row' ∧ (row' = row + 1 → lane' = lane) := by
  have hc := runs_after (m := Optimize.prepare) (s := quietStart loadAndTest) (by decide +kernel)
  have horder := runs_after (m := blockOrder)
    (s := stateAfter Optimize.prepare (quietStart loadAndTest)) (by decide +kernel)
  have hplace := runs_after
    (m := (resultAfter blockOrder
      (stateAfter Optimize.prepare (quietStart loadAndTest))).foldlM placeNext ⟨-1, -1⟩)
    (s := stateAfter Optimize.prepare (quietStart loadAndTest)) (by decide +kernel)
  have hedge : ((stateAfter Optimize.prepare (quietStart loadAndTest)).blocks[1]?).any (fun blk =>
      (Dependence.innerEdges 0
        ((stateAfter Optimize.prepare (quietStart loadAndTest)).bodyOf blk)).contains (0, 1)) = true :=
    by decide +kernel
  have hfirst : (1 : Int) ∈ resultAfter blockOrder
      (stateAfter Optimize.prepare (quietStart loadAndTest)) := by decide +kernel
  generalize stateAfter Optimize.prepare (quietStart loadAndTest) = c at *
  have hwords : NoJumpBefore loadAndTest := by decide +kernel
  obtain ⟨_, hready⟩ := placeable_of_prepare hwords hc
  rw [(blockOrder_spec hready.laid horder).1] at horder
  obtain ⟨blk, hblk, hmem⟩ := (Option.any_eq_true _ _).mp hedge
  obtain ⟨i, j, register, hi, hj, hfeeds⟩ := Dependence.mem_innerEdges.mp (List.contains_iff_mem.mp hmem)
  obtain ⟨rfl, rfl⟩ : i = 0 ∧ j = 1 := by omega
  exact ⟨c, _, _, _, blk, register, hc, horder, hplace, hblk, hfeeds,
    readers_wait_for_writers hwords hc horder (List.prefix_refl _) hplace hblk hfirst hfeeds⟩

end BpfLanes.Schedule
