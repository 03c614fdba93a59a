import BpfLanes.Proofs.PlacementStep

/-! # Placing a block

The instructions of a block are placed one after another. After each step the ones
that were placed stand in rows behind the blocks before, each behind those it
depends on, and nothing that was placed earlier has moved.
-/

namespace BpfLanes.Schedule

open Compilation Placement

variable {g : Digraph} {body : List Instr} {order : List Int} {pl : Place} {r : Reach} {s : Slot}

variable {c d : Compilation} {blk : Block} {id b k : Nat}

/-- Everything but instructions, live ranges, places, slots and reports is as in `c`. -/
def OnlyPlaced (c d : Compilation) : Prop :=
  d = { c with
    store := d.store, schedule := d.schedule, table := d.table, ranges := d.ranges
    bounds := d.bounds, fusedMoves := d.fusedMoves, fusedExits := d.fusedExits
    printed := d.printed, drawings := d.drawings }

theorem OnlyPlaced.trans {e : Compilation} (h : OnlyPlaced c d) (h' : OnlyPlaced d e) :
    OnlyPlaced c e := by
  unfold OnlyPlaced at h h' ⊢
  rw [h', h]

theorem OnlyPlaced.blocks (h : OnlyPlaced c d) : d.blocks = c.blocks := by
  rw [h]

theorem onlyPlaced_of_renamed (h : Renamed blk c d) : OnlyPlaced c d := by
  unfold OnlyPlaced
  rw [h.rest]

theorem onlyPlaced_of_put {q : Nat} (h : PutAt c q id s d) : OnlyPlaced c d := by
  unfold OnlyPlaced
  rw [h.rest]

/-- The place of instruction `k` of a block. -/
def placeIn (c : Compilation) (blk : Block) (k : Nat) : Option Place :=
  c.schedule[blk.start.toNat + k]?

theorem placeIn_of_renamed (h : Renamed blk c d) (k : Nat) : placeIn d blk k = placeIn c blk k := by
  unfold placeIn
  rw [h.schedule]

theorem placeAt_iff (hc : Tabled c) (hb : c.blocks[b]? = some blk) (hkind : blk.kind = .basic)
    (hk : k < blk.body.size) {q : Option Int} : PlaceAt c blk k q pl ↔
      q = some ((blk.start.toNat + k : Nat) : Int) ∧ placeIn c blk k = some pl := by
  have hid := Array.getElem?_eq_getElem hk
  obtain ⟨i, hi, hpos⟩ := hc.instr _ _ ⟨b, blk, k, hb, hkind, hid, rfl⟩
  constructor
  · rintro ⟨id', i', hid', hi', rfl, p, hp, hpl⟩
    rw [Position.get_natCast, hid] at hid'
    cases hid'
    rw [hi] at hi'
    cases hi'
    rw [hpos] at hp
    cases hp
    exact ⟨hpos, Position.get_natCast.mp hpl⟩
  · rintro ⟨rfl, hpl⟩
    exact ⟨_, i, Position.get_natCast.mpr hid, hi, hpos, _, rfl, Position.get_natCast.mpr hpl⟩

theorem placeIn_put (h : PutAt c (blk.start.toNat + k) id s d) (hpl : placeIn c blk k = some pl) :
    placeIn d blk k = some { pl with time := s.row, lane := some s.lane } := by
  unfold placeIn at hpl ⊢
  rw [h.place, if_pos rfl, hpl]
  rfl

theorem Inserted.placeIn_of_ne {k' : Nat} {lastRow : Int} {r' : Reach} {e : Compilation} {s₀ : Slot}
    (h : Inserted c d b blk g lastRow r r' k id e s₀ s) (hne : k' ≠ k) :
    placeIn d blk k' = placeIn c blk k' := by
  unfold placeIn
  rw [h.put.place, if_neg (by omega), h.renamed.schedule]

/-- A block that is about to be placed: none of its instructions has a slot. -/
structure Ready (c : Compilation) (b : Nat) (blk : Block) : Prop where
  tabled : Tabled c
  block : c.blocks[b]? = some blk
  basic : blk.kind = .basic
  unplaced : ∀ k : Nat, k < blk.body.size →
    ∃ pl, placeIn c blk k = some pl ∧ pl.block = some (b : Int) ∧ pl.lane = none

/-- One instruction stands behind another, in the same lane if it comes right after it. -/
def Place.Behind (pl pl' : Place) : Prop :=
  pl.time < pl'.time ∧ (pl'.time = pl.time + 1 → pl'.lane = pl.lane)

/-- Position `p` is one of the block. -/
def InBlock (blk : Block) (p : Int) : Prop :=
  ∃ k : Nat, k < blk.body.size ∧ p = ((blk.start.toNat + k : Nat) : Int)

/-- The instructions in `done` of a block were placed behind row `lastRow`. -/
structure Partly (c : Compilation) (b : Nat) (blk : Block) (g : Digraph) (lastRow : Int)
    (order done : List Int) (r : Reach) (d : Compilation) : Prop where
  tabled : Tabled d
  frame : OnlyPlaced c d
  store : SameOperations (fun id => id ∈ blk.body) c.store d.store
  row : lastRow ≤ r.row
  others : ∀ q : Nat, (∀ k : Nat, (k : Int) ∈ done → q ≠ blk.start.toNat + k) →
    d.schedule[q]? = c.schedule[q]?
  placed : ∀ k : Nat, (k : Int) ∈ done → ∃ pl lane, placeIn d blk k = some pl ∧
    pl.lane = some lane ∧ pl.block = some (b : Int) ∧ lastRow < pl.time ∧ pl.time ≤ r.row
  kept : ∀ row lane id, Table.entry c.table row lane = some (some id) →
    Table.entry d.table row lane = some (some id)
  waits : ∀ k p : Nat, (k : Int) ∈ done → (p : Int) ∈ g.before k → (p : Int) ∈ order →
    ∃ pl pl', placeIn d blk p = some pl ∧ placeIn d blk k = some pl' ∧ Place.Behind pl pl'
  records : c.ranges.ComesFrom (InBlock blk) d.ranges
  listed : done <+: order
  run : ∃ r₀ : Reach, r₀.row = lastRow ∧ Runs (done.foldlM (placeInstr b blk g lastRow) r₀) c r d

theorem Partly.start (hc : Tabled c) : Partly c b blk g r.row order [] r c where
  tabled := hc
  frame := rfl
  store := .refl _ _
  row := Int.le_refl _
  others := fun _ _ => rfl
  placed := fun k hk => absurd hk (by simp)
  kept := fun _ _ _ h => h
  waits := fun k p hk => absurd hk (by simp)
  records := .refl _ _
  listed := List.nil_prefix
  run := ⟨r, rfl, runs_pure.mpr ⟨rfl, rfl⟩⟩

variable {e : Compilation} {lastRow : Int} {done rest : List Int} {n : Int} {r' : Reach}

theorem mem_done_of_edge (horder : order = done ++ n :: rest)
    (hforward : Digraph.Forward g.edges order) (hascend : ∀ e ∈ g.edges, e.1 < e.2) {p : Int}
    (hp : p ∈ g.before n) (hmem : p ∈ order) : p ∈ done := by
  have hedge := Digraph.mem_before.mp hp
  have hlt : p < n := hascend (p, n) hedge
  rw [horder] at hmem hforward
  rcases List.mem_append.mp hmem with hmem | hmem
  · exact hmem
  rcases List.mem_cons.mp hmem with rfl | hmem
  · omega
  · have hback := (List.pairwise_cons.mp (List.pairwise_append.mp hforward).2.1).1 p hmem
    exact absurd hedge hback

theorem not_mem_before_done (horder : order = done ++ n :: rest)
    (hforward : Digraph.Forward g.edges order) {k : Int} (hk : k ∈ done) : n ∉ g.before k := by
  intro hn
  rw [horder] at hforward
  have hback := (List.pairwise_append.mp hforward).2.2 k hk n (by simp)
  exact hback (Digraph.mem_before.mp hn)

theorem mem_snoc {xs : List Int} {k n : Nat} :
    (k : Int) ∈ xs ++ [(n : Int)] ↔ (k : Int) ∈ xs ∨ k = n := by
  rw [List.mem_append, List.mem_singleton, Int.natCast_inj]

/-- One more instruction of the block. -/
theorem Partly.step (hready : Ready c b blk) (hg : Dependence.EdgesOf body g)
    (hplaces : PlacesAll c blk g order) (hlast : -1 ≤ lastRow) (horder : order = done ++ n :: rest)
    (hd : Partly c b blk g lastRow order done r d)
    (h : Runs (placeInstr b blk g lastRow r n) d r' e) :
    Partly c b blk g lastRow order (done ++ [n]) r' e := by
  obtain ⟨k, rfl, hk⟩ := hplaces.next horder
  have hnew := hplaces.not_mem_done horder
  have hblk : d.blocks[b]? = some blk := by
    rw [hd.frame.blocks]
    exact hready.block
  obtain ⟨e', _, s, hin⟩ := runs_placeInstr hd.tabled hblk hready.basic
    (Array.getElem?_eq_getElem hk) hlast (hg.entryFirst k) h
  have hren := hin.renamed
  have hput := hin.put
  have hrow := hin.row
  -- the instruction had no slot yet
  have hself : ∀ k' : Nat, (k' : Int) ∈ done → blk.start.toNat + k ≠ blk.start.toNat + k' := by
    intro k' hk' heq
    obtain rfl : k = k' := by omega
    exact hnew hk'
  obtain ⟨pl₀, hpl₀, hblock₀, hlane₀⟩ := hready.unplaced k hk
  have hpl : e'.schedule[blk.start.toNat + k]? = some pl₀ := by
    rwa [hren.schedule, hd.others _ hself]
  have hplaced : placeIn e blk k = some { pl₀ with time := s.row, lane := some s.lane } :=
    placeIn_put hput hpl
  have hother : ∀ k' : Nat, k' ≠ k → placeIn e blk k' = placeIn d blk k' :=
    fun _ => hin.placeIn_of_ne
  have hnum : Numbered e'.blocks (blk.start.toNat + k) blk.body[k] := by
    rw [hren.blocks]
    exact ⟨b, blk, k, hblk, hready.basic, Array.getElem?_eq_getElem hk, rfl⟩
  have hafter := hin.slot.after
  refine
    { tabled := (hren.tabled hd.tabled).put hnum hpl hlane₀ hput
      frame := (hd.frame.trans (onlyPlaced_of_renamed hren)).trans (onlyPlaced_of_put hput)
      store := ?_
      row := by omega
      others := ?_
      placed := ?_
      kept := ?_
      waits := ?_
      records := hd.records.trans (hin.records.mono fun p hp => ⟨k, hk, hp⟩)
      listed := ⟨rest, by simp [horder]⟩
      run := ?_ }
  · have hstore : e.store = e'.store := by rw [hput.rest]
    rw [hstore]
    exact hd.store.trans hren.store
  · intro q hq
    have hne : q ≠ blk.start.toNat + k := hq k (by simp)
    rw [hput.place, if_neg hne, hren.schedule]
    exact hd.others q fun k' hk' => hq k' (by simp [hk'])
  · intro k' hk'
    by_cases hne : k' = k
    · subst hne
      exact ⟨_, _, hplaced, rfl, hblock₀, hafter, by show s.row ≤ r'.row; omega⟩
    · have hmem := (mem_snoc.mp hk').resolve_right hne
      obtain ⟨pl, lane, hpl', hlane', hblock', hlow', hhigh'⟩ := hd.placed k' hmem
      exact ⟨pl, lane, (hother k' hne).trans hpl', hlane', hblock', hlow', by omega⟩
  · intro row lane id hs
    exact hin.kept (hd.kept row lane id hs)
  · intro k' p hk' hp hmem
    by_cases hne : k' = k
    · subst hne
      have hpdone := mem_done_of_edge horder hplaces.forward hg.ascend hp hmem
      obtain ⟨pl, lane, hplp, hlane', hblock', hlow', _⟩ := hd.placed p hpdone
      have hpne : p ≠ k' := by
        rintro rfl
        exact hnew hpdone
      refine ⟨pl, _, (hother p hpne).trans hplp, hplaced, ?_⟩
      obtain ⟨_, hpsize, _⟩ := (hplaces.mem p).mp hmem
      have hblk' : e'.blocks[b]? = some blk := by
        rwa [hren.blocks]
      have hplace := (placeAt_iff (hren.tabled hd.tabled) hblk' hready.basic (by omega)).mpr
        ⟨rfl, (placeIn_of_renamed hren p).trans hplp⟩
      obtain ⟨hlt, hforward⟩ := hin.slot.waits p hp (by omega) _ pl hplace
      refine ⟨hlt, ?_⟩
      intro heq
      exact (hforward heq (by omega) hblock').symm
    · have hmem' := (mem_snoc.mp hk').resolve_right hne
      have hpne : p ≠ k := by
        rintro rfl
        exact not_mem_before_done horder hplaces.forward hmem' hp
      obtain ⟨pl, pl', hpl', hpl'', hbehind⟩ := hd.waits k' p hmem' hp hmem
      exact ⟨pl, pl', (hother p hpne).trans hpl', (hother k' hne).trans hpl'', hbehind⟩
  · obtain ⟨r₀, hr₀, hrun⟩ := hd.run
    exact ⟨r₀, hr₀, runs_foldlM_snoc hrun h⟩

/-! ## The whole block -/

theorem keeps_drawDependences {b : Int} :
    Keeps (fun c' => c' = { c with drawings := c'.drawings }) (Dependence.draw b blk g) := by
  refine keeps_bind keeps_get fun c => ?_
  refine keeps_bind (keeps_mapM fun n _ => ?_) fun nodes => ?_
  · refine keeps_ite (keeps_bind (keeps_lift _) fun i => ?_) (keeps_pure _)
    exact keeps_bind keeps_fieldsOf fun f => keeps_pure _
  · refine keeps_modify fun c' hc' => ?_
    rw [hc']

/-- The last instruction of a block is its only branch. -/
def BranchLast (c : Compilation) (blk : Block) : Prop :=
  ∀ (n : Int) (f : Fields), 0 ≤ n → n < blk.body.size → FieldsAt c blk n f → f.isBranch = true →
    n = (blk.body.size : Int) - 1

theorem runs_placeInstrs {r₀ : Reach} (hready : Ready c b blk) (hg : Dependence.EdgesOf body g)
    (hplaces : PlacesAll c blk g order) (hlast : -1 ≤ r₀.row) (hdone : done <+: order)
    (h : Runs (done.foldlM (placeInstr b blk g r₀.row) r₀) c r d) :
    Partly c b blk g r₀.row order done r d := by
  obtain ⟨rest, hrest⟩ := hdone
  apply runs_foldlM_induct (fun done r d => Partly c b blk g r₀.row order done r d) h
    (Partly.start hready.tabled)
  intro before n after r d r' e hsplit hd hr
  have horder : order = before ++ n :: (after ++ rest) := by
    rw [← hrest, hsplit]
    simp
  exact hd.step hready hg hplaces hlast horder hr

theorem runs_placeBlock {b lastRow lastPosition : Int}
    (h : Runs (placeBlock b lastRow lastPosition) c (r, g) d) :
    ∃ blk c' order r', Position.get c.blocks b = .ok blk ∧
      Dependence.graph blk.liveIn blk.liveOut (c.bodyOf blk) = .ok g ∧
      c' = { c with drawings := c'.drawings } ∧ Runs (placementOrder blk g) c' order c' ∧
      Runs (order.foldlM (placeInstr b blk g lastRow)
        { row := lastRow, position := lastPosition }) c' r' d ∧
      r.row = if lastRow < r'.row then r'.row else r'.row + 1 := by
  unfold placeBlock Dependence.ofBlock at h
  rw [runs_block_bind] at h
  obtain ⟨blk, hblk, h⟩ := h
  rw [bind_assoc, runs_body_bind, runs_lift_bind] at h
  obtain ⟨g', hg, h⟩ := h
  rw [runs_get_bind] at h
  dsimp only at h
  have hdrawn : ∃ c', c' = { c with drawings := c'.drawings } ∧ Runs (do
      let order ← placementOrder blk g'
      let r ← order.foldlM (placeInstr b blk g' lastRow) ⟨lastRow, lastPosition⟩
      pure ({ r with row := if lastRow < r.row then r.row else r.row + 1 }, g')) c' (r, g) d := by
    split at h
    · obtain ⟨_, c', hdraw, h⟩ := runs_bind.mp h
      exact ⟨c', keeps_drawDependences.runs hdraw rfl, h⟩
    · exact ⟨c, rfl, h⟩
  obtain ⟨c', hc', h⟩ := hdrawn
  obtain ⟨order, c'', horder, hplace⟩ := runs_bind.mp h
  obtain ⟨rfl, _⟩ := placementOrder_sorted horder
  obtain ⟨r', d', hrun, hret⟩ := runs_bind.mp hplace
  obtain ⟨heq, rfl⟩ := runs_pure.mp hret
  obtain ⟨rfl, rfl⟩ := Prod.mk.inj heq
  exact ⟨blk, c'', order, r', hblk, hg, hc', horder, hrun, rfl⟩

end BpfLanes.Schedule
