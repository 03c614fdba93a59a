import BpfLanes.Proofs.LiveEntries

/-! # The lane of an instruction

The row of an instruction depends on what it waits for. In that row it takes the first
lane that is free, with one exception: if what it waits for stands in the row above,
it takes that lane. Only a target on which branches are bound to the first lane makes
a difference for branches; the setting of the same name is never asked.

Across a block boundary, one instruction of the block before is looked up for all that an
instruction reads. The lane is kept for that one only.
-/

namespace BpfLanes

open Compilation BpfLanes.Flow

variable {cells : Array (Option Nat)} {c d : Compilation} {f : Fields} {a : Instr}
  {b l lane row : Int} {xs ys : List Instr} {id j : Nat} {source : Option Int}

namespace Placement

variable {s : Slot}

/-! ## The first lane that is free -/

theorem slotFrom_lane {isBranch : Bool} (ht : Table.Shaped c.target.lanes c.table)
    (hlanes : LanesNonneg c) (hrow : 0 ≤ row)
    (hany : c.target.branchAnyLane = false → isBranch = false)
    (h : Runs (slotFrom b row source isBranch) c s d) :
    s.Leftmost c.table ∨ Runs (isForwarded b s.row source) c true c ∧
      ∃ p pl, source = some p ∧ Position.get c.schedule p = .ok pl ∧ pl.time = s.row - 1 ∧
        pl.lane = some s.lane := by
  obtain ⟨rfl, first, forward, hfirst, hforward, hchosen⟩ := runs_slotFrom h
  have hge := firstOpen_ge hfirst
  rcases (hchosen.first ht hlanes (by omega) hany).1 with hleft | ⟨rfl, rfl⟩
  · exact .inl hleft
  · obtain ⟨-, p, pl, _, hp, hpl, htime, -⟩ := runs_isForwarded hforward
    exact .inr ⟨hforward, p, pl, hp, hpl, by omega,
      (hchosen.spec (by omega) hlanes).2.2 rfl rfl p pl hp hpl⟩

theorem slotFrom_bound (hbound : c.target.branchAnyLane = false)
    (h : Runs (slotFrom b row source true) c s d) : s.lane = 0 := by
  obtain ⟨_, _, _, _, _, hchosen⟩ := runs_slotFrom h
  cases hchosen with
  | branch => rfl
  | follow hany => cases hany hbound
  | anywhere hany => cases hany hbound

end Placement

namespace Schedule

open Placement Dependence

variable {s : Slot} {Q : Instr → Prop} {words : Array Word} {c₀ d' e : Compilation} {b m k : Nat}
  {blk blk₀ : Block} {g : Digraph} {lastRow maxRow : Int} {order done rest : List Int}
  {r r' : Reach} {registers : List Int}

/-! ## Where the lane comes from -/

/-- The lane of the slot that is found for an instruction: the first one that is free in its
    row, or that of what it waits for in the row above, which is an instruction of the block
    or one that wrote a register in an earlier block. -/
inductive LaneFrom (c d : Compilation) (b : Nat) (blk : Block) (g : Digraph) (k : Nat) (s : Slot) :
    Prop where
  | leftmost (h : s.Leftmost d.table)
  | inside {reg : Int} {i : Nat} (hfeeds : Feeds (c.bodyOf blk) reg i k)
    (h : StandsAt d blk i (s.row - 1) s.lane)
  | before {id : Nat} {a : Instr} {p : Int} {pl : Place} (hentry : -1 ∈ g.before k)
    (ha : InstrAt d blk k id a)
    (hp : Runs (LastUse.definition (a.inputs.map Operand.register) b) d (some p) d)
    (hpl : Position.get d.schedule p = .ok pl) (htime : pl.time = s.row - 1)
    (hlane : pl.lane = some s.lane)

section
variable (hc : Laid Q words c) (ho : Opened c c₀ b blk g lastRow order)
  (hd : Partly c₀ b blk g lastRow order done r d) (horder : order = done ++ (k : Int) :: rest)
include hc ho hd horder

variable (hs : Stacked words.size c r d) (hf : FieldsAt c blk k f)
  (h : Runs (find b g lastRow maxRow k) d s d)
include hs hf h

theorem Opened.laneFrom (hany : c.target.branchAnyLane = false → f.isBranch = false) :
    LaneFrom c d b blk g k s := by
  have hblk := ho.block_eq hd
  have hfirst := ho.edges.entryFirst k
  have hlast := ho.last
  have htarget : d.target = c.target := by rw [hd.frame, ho.target]
  have ht := hs.sized
  rw [← htarget] at ht
  obtain ⟨w, id, i, f', hw, hi, hdec, hslot⟩ := runs_find hblk hfirst h
  obtain ⟨_, hle, _⟩ := awaitAll_spec hfirst hw
  obtain ⟨f₁, hf₁, hbranch⟩ := ho.fieldsAt_branch hd hf
  obtain rfl := hf₁.unique ⟨id, i, hi, hdec⟩
  rw [← htarget, ← hbranch] at hany
  rcases slotFrom_lane ht.shaped hd.tabled.lanesNonneg (by split <;> omega) hany hslot with
    hleft | ⟨hforward, p, pl, hp, hpl, htime, hlane⟩
  · exact .leftmost hleft
  cases awaitAll_source hw with
  | last hsource =>
    refine absurd hforward (ho.not_forwarded hc hd horder hs ?_ (ht.row_lt (ho.found hd h).free).1)
    intro p' hp'
    exact Option.mem_unique hp' hsource
  | before hentry ha hdef =>
    rw [hp] at hdef
    exact .before hentry ha hdef hpl htime hlane
  | @inside p' pl' hmem hne hplace =>
    obtain ⟨reg, i', rfl, hfeeds⟩ := ho.feeds_of_mem hc horder hmem hne
    obtain ⟨hlt, _⟩ := ho.feeder hc hd horder hfeeds
    obtain ⟨hq, hpl'⟩ := (placeAt_iff hd.tabled hblk ho.basic hlt).mp hplace
    obtain ⟨_, _, _, _, _, q, hq', hplq⟩ := hplace
    obtain rfl := Option.mem_unique hp hq'
    obtain rfl := Except.ok.inj (hpl.symm.trans hplq)
    exact .inside hfeeds ⟨pl, hpl', htime, hlane⟩

theorem Opened.find_branch (hbranch : f.isBranch = true) :
    if c.target.branchAnyLane then LaneFrom c d b blk g k s else s.lane = 0 := by
  split
  · next hany =>
    exact ho.laneFrom hc hd horder hs hf h (fun hbound => by rw [hany] at hbound; cases hbound)
  next hbound =>
  obtain ⟨w, id, i, f', _, hi, hdec, hslot⟩ :=
    runs_find (ho.block_eq hd) (ho.edges.entryFirst k) h
  obtain ⟨_, hdec'⟩ := ho.branch_kept hc hd horder hf hbranch hi
  obtain rfl := Except.ok.inj (hdec.symm.trans hdec')
  rw [hbranch] at hslot
  refine slotFrom_bound ?_ hslot
  rw [hd.frame, ho.target]
  simpa using hbound

end

/-! ## Branches -/

/-- Instruction `k` of a block waits for what stands in a slot: an instruction of the block
    whose result it reads, or what arrives from before the block. -/
def WaitsFor (c d : Compilation) (blk : Block) (k : Nat) (arrival : Option (Int × Int))
    (row lane : Int) : Prop :=
  (∃ reg i, Feeds (c.bodyOf blk) reg i k ∧ StandsAt d blk i row lane) ∨ arrival = some (row, lane)

/-- Branch `m` of a block stands in a slot. If branches are bound to the first lane, it is in
    it. If not, it is unless an earlier instruction of the block took it, or what the branch
    waits for stands in the row above and in another lane. -/
structure BranchAt (c d : Compilation) (b : Nat) (blk : Block) (m : Nat)
    (arrival : Option (Int × Int)) (row lane : Int) : Prop where
  stands : StandsAt d blk m row lane
  outside : ∀ ra la, arrival = some (ra, la) →
    (∀ reg i, ¬ Feeds (c.bodyOf blk) reg i m) ∧ FromEarlier c d b blk m ra la
  bound : c.target.branchAnyLane = false → lane = 0
  first_iff : c.target.branchAnyLane = true → (lane = 0 ↔
    (∀ i, i < m → ¬ StandsAt d blk i row 0) ∧
      ∀ la, WaitsFor c d blk m arrival (row - 1) la → la = 0)

theorem BranchAt.congr {arrival : Option (Int × Int)} (h : BranchAt c d b blk m arrival row lane)
    (hsame : ∀ k, k ≤ m → placeIn e blk k = placeIn d blk k)
    (hkept : ∀ row lane id, Table.entry d.table row lane = some (some id) →
      Table.entry e.table row lane = some (some id)) : BranchAt c e b blk m arrival row lane := by
  have hwaits : ∀ la, WaitsFor c e blk m arrival (row - 1) la ↔
      WaitsFor c d blk m arrival (row - 1) la := by
    intro la
    refine or_congr_left (exists_congr fun reg => exists_congr fun i => and_congr_right ?_)
    intro hfeeds
    exact standsAt_congr (hsame i (Nat.le_of_lt hfeeds.lt))
  refine ⟨(standsAt_congr (hsame m (Nat.le_refl m))).mpr h.stands, ?_, h.bound, ?_⟩
  · intro ra la harrival
    obtain ⟨hnone, b', blk', id, t, reg, hlt, hb', hid, hdefs, hreads, hslot⟩ :=
      h.outside ra la harrival
    exact ⟨hnone, b', blk', id, t, reg, hlt, hb', hid, hdefs, hreads, hkept ra la id hslot⟩
  · intro hany
    simp only [h.first_iff hany, hwaits]
    refine and_congr_left fun _ => forall_congr' fun i => forall_congr' fun hi => ?_
    rw [standsAt_congr (hsame i (Nat.le_of_lt hi))]

section
variable (hc : Laid Q words c) (ho : Opened c c₀ b blk g lastRow order)
  (hd : Partly c₀ b blk g lastRow order done r d) (horder : order = done ++ (k : Int) :: rest)
include hc ho hd horder

theorem Opened.branchAt (hs : Stacked words.size c r d) (hf : FieldsAt c blk k f)
    (hbranch : f.isBranch = true) (h : Runs (placeInstr b blk g lastRow r k) d r' e) :
    ∃ arrival row lane, Arrives d b blk g k arrival ∧ BranchAt c e b blk k arrival row lane := by
  have ht := hs.sized.shaped
  obtain ⟨_, x, s₀, s, hin⟩ := ho.inserted hd horder h
  obtain rfl := ho.keeps_slot hc hd hf hbranch hin
  have hfind := hin.found
  have hfound := hin.renamed.found_iff.mp hin.slot
  obtain ⟨arrival, ha⟩ := exists_arrives d b blk g k
  have hopen := ho.open_of_found hc hd horder ht hfound (ho.follows hc hd horder hs ha hfind)
  have hlane := hfound.free.lane_nonneg
  have hplace : ∀ k', k' < k → placeIn e blk k' = placeIn d blk k' :=
    fun _ hlt => hin.placeIn_of_ne hlt.ne
  have hfollows : ∀ la, WaitsFor c e blk k arrival (s.row - 1) la → la = s.lane := by
    rintro la (⟨reg, i, hfeeds, hi⟩ | harrival)
    · rw [standsAt_congr (hplace i hfeeds.lt)] at hi
      exact ((hopen.waits reg i _ la hfeeds hi).2 (by omega)).symm
    · exact (hopen.arrives _ la harrival (by omega)).symm
  have hcase := ho.find_branch hc hd horder hs hf hfind hbranch
  refine ⟨arrival, s.row, s.lane, ha, ho.stands hd horder hin, ?_, ?_,
    fun hany => ⟨fun hzero => ⟨?_, fun la hwaits => (hfollows la hwaits).trans hzero⟩, ?_⟩⟩
  · intro ra la harrival
    obtain ⟨_, hnone, b', blk', id', t, reg, hlt, hb', hid', hdefs, hreads, hheld⟩ :=
      ho.arrived hc hd horder ha harrival
    exact ⟨hnone, b', blk', id', t, reg, hlt, hb', hid', hdefs, hreads, hin.kept hheld⟩
  · intro hbound
    rwa [if_neg (by simp [hbound])] at hcase
  · intro i hi hi'
    rw [standsAt_congr (hplace i hi), ← hzero] at hi'
    exact hopen.free i hi hi'
  · rintro ⟨hfree, hwaits⟩
    rw [if_pos hany] at hcase
    cases hcase with
    | leftmost hleft =>
      have hfirst : Slot.Free d.table { lane := 0, row := s.row } :=
        ho.free_of_untaken hd horder ht hfound.after ⟨Int.le_refl 0, by have := hopen.lanes; omega⟩
          (fun i hi hi' => hfree i hi ((standsAt_congr (hplace i hi)).mpr hi')) hfound.free
          (Int.le_refl _)
      have := hleft 0 hfirst
      omega
    | @inside reg i hfeeds hi =>
      exact hwaits s.lane (.inl ⟨reg, i, hfeeds, (standsAt_congr (hplace i hfeeds.lt)).mpr hi⟩)
    | @before id a p pl hentry hi hp hpl htime hpl' =>
      obtain ⟨hi', _⟩ := ho.branch_kept hc hd horder hf hbranch hi
      have hbody : (c.bodyOf blk)[k]? = some a := by
        rw [hc.bodyOf_getElem? ho.block ho.basic, Position.get_natCast.mp hi'.1]
        exact hi'.2
      have hle := (ho.fromEarlier hc hd horder hbody hp hpl hpl').1
      have hall := ho.all_entry hc hd horder hfound (by omega)
      exact hwaits s.lane (.inr ((ha _ _).mpr ⟨before_eq_entry ho.edges hentry hall, id, a, p, pl, hi,
        hp, hpl, htime, hpl'⟩))

end

theorem branchAt_of_placeAll (hc : Laid Q words c) (hempty : NothingPlaced c)
    (ht : Table.Sized words.size c.target.lanes c.table) (hplace : Runs placeAll c () d)
    (hb : c.blocks[b]? = some blk) (hkind : blk.kind = .basic) (hf : FieldsAt c blk m f)
    (hbranch : f.isBranch = true) :
    ∃ g top r x arrival row lane, ComesNext c b m blk g top r x ∧ Arrives x b blk g m arrival ∧
      BranchAt c d b blk m arrival row lane := by
  refine forall_entered_of_placeAll
    (P := fun d b blk => FieldsAt c blk m f → ∃ g top r x arrival row lane,
      ComesNext c b m blk g top r x ∧ Arrives x b blk g m arrival ∧
        BranchAt c d b blk m arrival row lane) hc hempty ht ?_ ?_ hplace hb hkind hf
  · intro b blk g order r r' c₀ e hin hr hf
    have ho := hin.opened
    obtain ⟨_, _, r₁, _, d, _, hm⟩ := ho.reached hc hin.stacked hr
      (ho.lists.mpr ⟨f, hf, Fields.not_isNop_of_isBranch hbranch⟩)
    obtain ⟨arrival, row, lane, ha, hat⟩ :=
      ho.branchAt hc hm.partly hm.split hm.stacked hf hbranch hm.run
    exact ⟨g, r.row, r₁, d, arrival, row, lane, hm.next hin.each, ha,
      hat.congr (fun _ => hm.place) hm.settled.table⟩
  · intro d e b blk hsame _ hkept h hf
    obtain ⟨g, top, r, x, arrival, row, lane, hnext, ha, hat⟩ := h hf
    have hm := hf.index_lt
    exact ⟨g, top, r, x, arrival, row, lane, hnext, ha,
      hat.congr (fun k hk => hsame k (by omega)) hkept⟩

/-- The lane of a branch, whatever the settings of the compilation say. If the target binds
    branches to the first lane, it is the first. If not, it is the first exactly if no
    earlier instruction of the block took that slot, and what the branch waits for does not
    stand in another lane of the row above: an instruction of the block, or the one that is
    looked up for it in the blocks before. -/
theorem branch_in_first_lane_iff {target : Target} {options : Options} {words : Array Word}
    {texts : Array String} (hwords : NoJumpBefore words) {e : Compilation}
    (hrun : Runs Optimize.run (start target options words texts) () e) {row lane : Int} {id : Nat}
    {j : Instr} {f : Fields} (hslot : Table.entry e.table row lane = some (some id))
    (hj : e.store[id]? = some j) (hf : Fields.decode j.word = .ok f) (hbranch : f.isBranch = true) :
    ∃ (c : Compilation) (b m : Nat) (blk : Block) (g : Digraph) (top : Int) (r : Reach)
      (x : Compilation) (arrival : Option (Int × Int)),
      Runs Optimize.prepare (start target options words texts) () c ∧ c.blocks[b]? = some blk ∧
      blk.kind = .basic ∧ blk.body[m]? = some id ∧ StandsAt e blk m row lane ∧
      ComesNext c b m blk g top r x ∧ Arrives x b blk g m arrival ∧
      (∀ ra la, arrival = some (ra, la) →
        (∀ reg i, ¬ Feeds (c.bodyOf blk) reg i m) ∧ FromEarlier c e b blk m ra la) ∧
      (target.branchAnyLane = false → lane = 0) ∧
      (target.branchAnyLane = true → (lane = 0 ↔ (∀ i, i < m → ¬ StandsAt e blk i row 0) ∧
        ∀ la, WaitsFor c e blk m arrival (row - 1) la → la = 0)) := by
  obtain ⟨c, d₀, d, parsed, order, r, hprep, hready, hplace, hd₀, hlists, hd, hrows⟩ :=
    Optimize.runs_run hwords hrun
  have hc := hready.laid
  have ht := hready.sized
  rw [← hready.size] at ht
  have htable : e.table = d.table := by rw [hrows.retargeted.rest]
  have hplaces : ∀ blk k, placeIn e blk k = placeIn d₀ blk k := by
    intro blk k
    unfold placeIn
    rw [hrows.retargeted.rest, hd₀]
  rw [htable] at hslot
  obtain ⟨q, pl, hnum, hpl, htime, hlane⟩ := (hd.tabled.slot row lane id).mp hslot
  rw [hd.frame.blocks] at hnum
  -- the instruction as it was parsed is a branch as well
  obtain ⟨i₀, hi₀, hstands⟩ := hc.standsFor hnum
  obtain ⟨f₀, hf₀, _⟩ := hstands.operands
  obtain ⟨i₁, hi₁, hop⟩ := hd.store.operation id i₀ hi₀
  obtain ⟨f₁, hf₁, hopcode, _⟩ := hop.fields f₀ hf₀
  obtain ⟨j', hj', hsame⟩ := hrows.retargeted.same id i₁ hi₁
  obtain rfl := Option.mem_unique hj hj'
  obtain ⟨o, ho⟩ := hsame.fields f₁ hf₁
  obtain rfl := Except.ok.inj (hf.symm.trans ho)
  replace hbranch : f₀.isBranch = true := by
    rw [← hbranch]
    simp only [Fields.isBranch, hopcode]
  obtain ⟨b₀, blk, m, hb₀, hkind, hm, rfl⟩ := hnum
  have hfields : FieldsAt c blk m f₀ := ⟨id, i₀, ⟨Position.get_natCast.mpr hm, hi₀⟩, hf₀⟩
  obtain ⟨g, top, r', x, arrival, row', lane', hnext, harrives, hat⟩ :=
    branchAt_of_placeAll hc hready.unplaced ht hplace hb₀ hkind hfields hbranch
  have hkept : ∀ row lane id, Table.entry d₀.table row lane = some (some id) →
      Table.entry e.table row lane = some (some id) := by
    intro row lane id hslot
    rw [htable, hd₀]
    exact hslot
  replace hat := hat.congr (fun k _ => hplaces blk k) hkept
  have hstands : StandsAt e blk m row lane := by
    refine ⟨pl, ?_, htime, hlane⟩
    rw [hplaces, ← hpl, hd₀]
    rfl
  obtain ⟨rfl, rfl⟩ := hat.stands.unique hstands
  have htarget := hready.target
  subst htarget
  exact ⟨c, b₀, m, blk, g, top, r', x, arrival, hprep, hb₀, hkind, hm, hstands, hnext, harrives,
    hat.outside, hat.bound, hat.first_iff⟩

/-- Branches are asked to stand in the first lane, which the load of a constant takes. -/
def valueThenJump : Compilation :=
  start {} { branchAllLanes := false, printTable := false }
    #[0xb701000001000000, 0x0500000000000000, 0x9500000000000000] #["", "", ""]

theorem branch_in_first_lane_iff_valueThenJump :
    ∃ (e : Compilation) (blk : Block) (m i : Nat), Runs Optimize.run valueThenJump () e ∧
      Table.entry e.table 0 1 = some (some 1) ∧ blk.body[m]? = some 1 ∧ StandsAt e blk m 0 1 ∧
      i < m ∧ StandsAt e blk i 0 0 := by
  have he := runs_after (m := Optimize.run) (s := valueThenJump) (by decide +kernel)
  have hslot : Table.entry (stateAfter Optimize.run valueThenJump).table 0 1 = some (some 1) := by
    decide +kernel
  have hjump : ((stateAfter Optimize.run valueThenJump).store[1]?).any (fun j =>
      (Fields.decode j.word).toOption.any Fields.isBranch) = true := by decide +kernel
  have hrows : ∀ pl ∈ (stateAfter Optimize.run valueThenJump).schedule, 0 ≤ pl.time := by
    decide +kernel
  generalize stateAfter Optimize.run valueThenJump = e at *
  obtain ⟨j, hj, hjump⟩ := (Option.any_eq_true _ _).mp hjump
  obtain ⟨f, hf, hjump⟩ := (Option.any_eq_true _ _).mp hjump
  obtain ⟨c, b, m, blk, _, _, _, _, arrival, _, _, _, hm, hstands, _, _, hout, _, hiff⟩ :=
    branch_in_first_lane_iff (by decide +kernel) he hslot hj (eq_ok_of_toOption hf) hjump
  -- there is no row above the first
  have hwaits : ∀ la, ¬ WaitsFor c e blk m arrival (0 - 1) la := by
    rintro la (⟨_, i, _, pl, hpl, htime, _⟩ | harrival)
    · have := hrows pl (Array.mem_of_getElem? hpl)
      omega
    · obtain ⟨_, _, _, _, _, _, _, _, _, _, _, hheld⟩ := hout _ _ harrival
      have := (Table.entry_eq_some_iff.mp hheld).1
      omega
  by_contra hnone
  have hfirst := (hiff rfl).mpr
    ⟨fun i hi hsi => hnone ⟨e, blk, m, i, he, hslot, hm, hstands, hi, hsi⟩,
      fun la h => absurd h (hwaits la)⟩
  cases hfirst

/-! ## Across a block boundary -/

/-- The instruction of a block that is looked up for some registers: the last one that
    writes the first of them which the block is known to write. -/
def lookedUp? (defs : RegMap) (body : List Instr) (registers : List Int) : Option Nat :=
  registers.findSome? fun r => if defs.has r then lastWriter? r body else none

theorem lastWriter?_congr {r : Int} (h : xs.map Instr.output = ys.map Instr.output) :
    lastWriter? r xs = lastWriter? r ys := by
  have hout : ∀ zs : List Instr, lastWriter? r zs = ((zs.map Instr.output).zipIdx.reverse.find?
      fun o => o.1.any fun o => o.register == r).map Prod.snd := by
    intro zs
    rw [List.zipIdx_map, ← List.map_reverse, List.find?_map, Option.map_map]
    rfl
  rw [hout, hout, h]

theorem lookedUp?_congr (h : xs.map Instr.output = ys.map Instr.output) (defs : RegMap)
    (registers : List Int) : lookedUp? defs xs registers = lookedUp? defs ys registers := by
  unfold lookedUp?
  simp only [lastWriter?_congr h]

theorem find?_writes_reverse (r : Int) (body : List Instr) :
    (lastWriter? r body = none ∧ body.reverse.find? (fun i => i.writes r) = none) ∨
    ∃ q i, lastWriter? r body = some q ∧ body[q]? = some i ∧
      body.reverse.find? (fun i => i.writes r) = some i := by
  have hfst : body.reverse = body.zipIdx.reverse.map Prod.fst := by
    rw [List.map_reverse, List.zipIdx_map_fst]
  rw [hfst, List.find?_map]
  unfold lastWriter?
  simp only [Function.comp_def]
  cases hfound : body.zipIdx.reverse.find? fun x => x.1.writes r with
  | none => exact .inl ⟨rfl, rfl⟩
  | some x =>
    have hmem := List.mem_reverse.mp (List.mem_of_find?_eq_some hfound)
    exact .inr ⟨x.2, x.1, rfl, List.mk_mem_zipIdx_iff_getElem?.mp hmem, rfl⟩

theorem lookedUp?_lt {q : Nat} (h : lookedUp? blk.defs (d.bodyOf blk) registers = some q) :
    q < blk.body.size := by
  obtain ⟨_, r, _, _, hr, _⟩ := List.findSome?_eq_some_iff.mp h
  split at hr
  · rcases find?_writes_reverse r (d.bodyOf blk) with ⟨hnone, _⟩ | ⟨q', i, hq', hi, _⟩
    · cases hnone.symm.trans hr
    · obtain rfl := Option.mem_unique hq' hr
      have hle : (d.bodyOf blk).length ≤ blk.body.size := List.length_filterMap_le ..
      have := (List.getElem?_eq_some_iff.mp hi).1
      omega
  · cases hr

theorem runs_definitionIn_lookedUp {x : Option Instr} (hkind : blk.kind = .basic)
    (h : Runs (LastUse.definitionIn blk registers) d x d') :
    (lookedUp? blk.defs (d.bodyOf blk) registers = none ∧ x = none) ∨
    ∃ q i, lookedUp? blk.defs (d.bodyOf blk) registers = some q ∧
      (d.bodyOf blk)[q]? = some i ∧ x = some i := by
  induction registers with
  | nil => exact .inl ⟨rfl, (runs_pure.mp h).1⟩
  | cons r rest ih =>
    unfold LastUse.definitionIn at h
    unfold lookedUp? at ih ⊢
    rw [List.findSome?_cons]
    by_cases hdefs : blk.defs.has r = true
    · rw [if_pos (by simp [hdefs, hkind])] at h
      unfold LastUse.writerIn at h
      rw [bind_assoc, runs_body_bind, pure_bind] at h
      rw [if_pos hdefs]
      rcases find?_writes_reverse r (d.bodyOf blk) with ⟨hnone, hfind⟩ | ⟨q, i, hq, hi, hfind⟩
      · rw [hfind] at h
        rw [hnone]
        exact ih h
      · rw [hfind] at h
        rw [hq]
        exact .inr ⟨q, i, rfl, hi, (runs_pure.mp h).1⟩
    · rw [if_neg (by simp [hdefs])] at h
      rw [if_neg hdefs]
      exact ih h

theorem runs_definition_succ (hb : d.blocks[b + 1]? = some blk)
    (hkind : blk.kind = .basic)
    (h : Runs (LastUse.definition registers ((b + 2 : Nat) : Int)) d source d') :
    (∃ q i, lookedUp? blk.defs (d.bodyOf blk) registers = some q ∧ (d.bodyOf blk)[q]? = some i ∧
      source = i.position) ∨
    lookedUp? blk.defs (d.bodyOf blk) registers = none ∧
      Runs (LastUse.definition registers ((b + 1 : Nat) : Int)) d source d' := by
  unfold LastUse.definition at h ⊢
  by_cases hempty : registers.isEmpty = true
  · rw [if_pos hempty] at h ⊢
    rw [List.isEmpty_iff] at hempty
    exact .inr ⟨by rw [hempty]; rfl, h⟩
  · rw [if_neg hempty] at h ⊢
    have hnum : (((b + 2 : Nat) : Int) - 1).toNat = b + 1 := by omega
    have hnum' : (((b + 1 : Nat) : Int) - 1).toNat = b := by omega
    rw [hnum] at h
    rw [hnum']
    unfold LastUse.definitionBefore at h
    rw [runs_block_bind] at h
    obtain ⟨blk', hblk', h⟩ := h
    obtain rfl := Option.mem_unique hb (Position.get_natCast.mp hblk')
    obtain ⟨x, d₁, hx, h⟩ := runs_bind.mp h
    obtain rfl := Placement.looks_definitionIn.eq hx
    rcases runs_definitionIn_lookedUp hkind hx with ⟨hnone, rfl⟩ | ⟨q, i, hq, hi, rfl⟩
    · exact .inr ⟨hnone, h⟩
    · exact .inl ⟨q, i, hq, hi, (runs_pure.mp h).1⟩

theorem bodyOf_getElem?_of_tabled (h : Tabled d) (hb : d.blocks[b]? = some blk)
    (hkind : blk.kind = .basic) (k : Nat) :
    (d.bodyOf blk)[k]? = blk.body[k]?.bind fun id => d.store[id]? := by
  have hall : ∀ id ∈ blk.body.toList, ∃ i, d.store[id]? = some i := by
    intro id hid
    obtain ⟨k, hk⟩ := Array.mem_iff_getElem?.mp (Array.mem_toList_iff.mp hid)
    obtain ⟨i, hi, _⟩ := h.instr _ id ⟨b, blk, k, hb, hkind, hk, rfl⟩
    exact ⟨i, hi⟩
  unfold bodyOf
  rw [(getElem?_filterMap_total hall).1, Array.getElem?_toList]

/-- The first lane of a row that no instruction of a block took before its instruction `j`. -/
def FirstUntaken (d : Compilation) (blk : Block) (j : Nat) (row lane : Int) : Prop :=
  (∀ n, n < j → ¬ StandsAt d blk n row lane) ∧
    ∀ l, 0 ≤ l → l < lane → ∃ n, n < j ∧ StandsAt d blk n row l

theorem FirstUntaken.unique {lane' : Int} (h : FirstUntaken d blk j row lane)
    (h' : FirstUntaken d blk j row lane') (hlane : 0 ≤ lane) (hlane' : 0 ≤ lane') :
    lane = lane' := by
  rcases Int.lt_trichotomy lane lane' with hlt | heq | hlt
  · obtain ⟨n, hn, hat⟩ := h'.2 lane hlane hlt
    exact absurd hat (h.1 n hn)
  · exact heq
  · obtain ⟨n, hn, hat⟩ := h.2 lane' hlane' hlt
    exact absurd hat (h'.1 n hn)

/-- When instruction `j` of a block (as it is in `d`) stands in the lane of one in the row above
    it that belongs to the block before (as it is in `x`). -/
def LaneAcross (x d : Compilation) (blk₀ blk : Block) (j : Nat) (registers : List Int) : Prop :=
  ∀ i ri li lj, i < blk₀.body.size → StandsAt x blk₀ i ri li → StandsAt d blk j (ri + 1) lj →
    (lj = li ↔ lookedUp? blk₀.defs (x.bodyOf blk₀) registers = some i ∨
      (∀ q l, lookedUp? blk₀.defs (x.bodyOf blk₀) registers = some q →
        ¬ StandsAt x blk₀ q ri l) ∧ FirstUntaken d blk j (ri + 1) li)

theorem LaneAcross.congr {x x' : Compilation} (h : LaneAcross x d blk₀ blk j registers)
    (hplaces₀ : ∀ k, k < blk₀.body.size → placeIn x' blk₀ k = placeIn x blk₀ k)
    (hbody : (x'.bodyOf blk₀).map Instr.output = (x.bodyOf blk₀).map Instr.output)
    (hplaces : ∀ k, k ≤ j → placeIn e blk k = placeIn d blk k) :
    LaneAcross x' e blk₀ blk j registers := by
  intro i ri li lj hi hsi hsj
  rw [standsAt_congr (hplaces₀ i hi)] at hsi
  rw [standsAt_congr (hplaces j (Nat.le_refl j))] at hsj
  have hfirst : FirstUntaken e blk j (ri + 1) li ↔ FirstUntaken d blk j (ri + 1) li := by
    refine and_congr (forall_congr' fun n => forall_congr' fun hn => ?_)
      (forall_congr' fun l => forall_congr' fun _ => forall_congr' fun _ => exists_congr fun n =>
        and_congr_right fun hn => standsAt_congr (hplaces n (Nat.le_of_lt hn)))
    rw [standsAt_congr (hplaces n (Nat.le_of_lt hn))]
  rw [h i ri li lj hi hsi hsj, lookedUp?_congr hbody, hfirst]
  refine or_congr_right (and_congr_left fun _ => forall_congr' fun q => forall_congr' fun l =>
    forall_congr' fun hq => ?_)
  rw [standsAt_congr (hplaces₀ q (lookedUp?_lt hq))]

section
variable (hc : Laid Q words c) (ho : Opened c c₀ (b + 2) blk g lastRow order)
  (hb₀ : c.blocks[b + 1]? = some blk₀) (hkind₀ : blk₀.kind = .basic)
  (hd : Partly c₀ (b + 2) blk g lastRow order done r d) (horder : order = done ++ (k : Int) :: rest)
  (hs : Stacked words.size c r d) (hf : FieldsAt c blk k f)
  (hany : c.target.branchAnyLane = false → f.isBranch = false) (ha : (c.bodyOf blk)[k]? = some a)
  (hedge : ((-1 : Int), (k : Int)) ∈ g.edges)
include hc ho hb₀ hkind₀ hd horder hs hf hany ha hedge

/-- Where the lane of an instruction in the first row of its block comes from: from what is
    looked up in the block before, if that stands in its last row. -/
theorem Opened.laneAcross (hapart : ∀ (b₁ : Nat) (blk₁ : Block) (k₁ : Nat) (l : Int),
      b₁ < b + 1 → c.blocks[b₁]? = some blk₁ → blk₁.kind = .basic → k₁ < blk₁.body.size →
      ¬ StandsAt d blk₁ k₁ lastRow l) (h : Runs (find (b + 2 : Nat) g lastRow maxRow k) d s d)
    (hrow : s.row = lastRow + 1) :
    (∃ q, lookedUp? blk₀.defs (d.bodyOf blk₀) (a.inputs.map Operand.register) = some q ∧
      StandsAt d blk₀ q lastRow s.lane) ∨
    s.Leftmost d.table ∧ ∀ q l,
      lookedUp? blk₀.defs (d.bodyOf blk₀) (a.inputs.map Operand.register) = some q →
      ¬ StandsAt d blk₀ q lastRow l := by
  have hb₀' : d.blocks[b + 1]? = some blk₀ := by rw [hd.frame.blocks, ho.blocks, hb₀]
  have hall := ho.all_entry hc hd horder (ho.found hd h) (by omega)
  have hentry := before_eq_entry ho.edges (Digraph.mem_before.mpr hedge) hall
  have hposition : ∀ {q i}, (d.bodyOf blk₀)[q]? = some i →
      i.position = some ((blk₀.start.toNat + q : Nat) : Int) := by
    intro q i hi
    rw [bodyOf_getElem?_of_tabled hd.tabled hb₀' hkind₀] at hi
    obtain ⟨id, hid, hi⟩ := Option.bind_eq_some_iff.mp hi
    obtain ⟨i', hi', hpos⟩ := hd.tabled.instr _ id ⟨b + 1, blk₀, q, hb₀', hkind₀, hid, rfl⟩
    obtain rfl := Option.mem_unique hi hi'
    exact hpos
  by_cases hstands : ∃ q l, lookedUp? blk₀.defs (d.bodyOf blk₀) (a.inputs.map Operand.register) =
      some q ∧ StandsAt d blk₀ q lastRow l
  · -- it is what arrives, and its lane is followed
    obtain ⟨q, l, hq, hat⟩ := hstands
    obtain ⟨w, _, _, _, hw, _⟩ := runs_find (ho.block_eq hd) (ho.edges.entryFirst k) h
    obtain ⟨_, id, i, hi, hdef⟩ := awaitAll_entry (by simp [hentry]) hall hw
    have hinputs := ho.inputs_kept hc hd hall ha hi
    obtain ⟨arrival, harrives⟩ := exists_arrives d (b + 2 : Nat) blk g k
    obtain ⟨pl, hpl, htime, hlane⟩ := hat
    rcases runs_definition_succ hb₀' hkind₀ (hinputs ▸ hdef) with
      ⟨q', i', hq', hi', hsource⟩ | ⟨hnone, _⟩
    · obtain rfl := Option.mem_unique hq hq'
      rw [hsource, hposition hi'] at hdef
      have hfollows := ho.follows hc hd horder hs harrives h lastRow l ((harrives _ _).mpr
        ⟨hentry, id, i, _, pl, hi, hdef, Position.get_natCast.mpr hpl, htime, hlane⟩) hrow
      exact .inl ⟨q, hq, pl, hpl, htime, hfollows ▸ hlane⟩
    · cases hnone.symm.trans hq
  · refine .inr ⟨?_, fun q l hq hat => hstands ⟨q, l, hq, hat⟩⟩
    cases ho.laneFrom hc hd horder hs hf h hany with
    | leftmost hleft => exact hleft
    | @inside _ m hfeeds _ =>
      have := hall m (Digraph.mem_before.mpr (ho.edges.feeds hfeeds))
      omega
    | before _ hi hdef hpl htime hlane =>
      -- what is looked up further back does not stand in that row
      exfalso
      rw [ho.inputs_kept hc hd hall ha hi] at hdef
      rcases runs_definition_succ hb₀' hkind₀ hdef with ⟨q, i', hq, hi', hsource⟩ | ⟨_, hdef'⟩
      · rw [hposition hi'] at hsource
        cases hsource
        exact hstands ⟨q, s.lane, hq, _, Position.get_natCast.mp hpl, by omega, hlane⟩
      · obtain ⟨b₁, blk₁, k₁, _, _, hlt, hb₁, hk₁, _, hwrites, rfl⟩ :=
          hd.tabled.runs_definition hdef'
        rw [hd.frame.blocks, ho.blocks] at hb₁
        exact hapart b₁ blk₁ k₁ s.lane hlt hb₁ hwrites.basic (lt_size hk₁)
          ⟨_, Position.get_natCast.mp hpl, by omega, hlane⟩

theorem Opened.laneAcross_step
    (hbound : ∀ i row lane, i < blk₀.body.size → StandsAt c₀ blk₀ i row lane → row ≤ lastRow)
    (hapart : ∀ i li, i < blk₀.body.size → StandsAt c₀ blk₀ i lastRow li →
      ∀ (b₁ : Nat) (blk₁ : Block) (k₁ : Nat) (l : Int), b₁ < b + 1 → c.blocks[b₁]? = some blk₁ →
      blk₁.kind = .basic → k₁ < blk₁.body.size → ¬ StandsAt c₀ blk₁ k₁ lastRow l)
    (h : Runs (placeInstr (b + 2 : Nat) blk g lastRow r k) d r' e) :
    LaneAcross c₀ e blk₀ blk k (a.inputs.map Operand.register) := by
  intro i ri li lj hi hsi hsj
  have ht := hs.sized.shaped
  obtain ⟨_, y, s₀, s, hin⟩ := ho.inserted hd horder h
  have hafter₀ := (ho.found hd hin.found).after
  have hfound := hin.renamed.found_iff.mp hin.slot
  have hstands := ho.stands hd horder hin
  obtain ⟨hrow, rfl⟩ := hstands.unique hsj
  have hle := hbound i ri li hi hsi
  have hafter := hfound.after
  obtain rfl : ri = lastRow := by omega
  -- it was not put off
  obtain rfl : s = s₀ := hin.later.resolve_right (by omega)
  have hplace : ∀ k', k' < k → placeIn e blk k' = placeIn d blk k' :=
    fun _ hlt => hin.placeIn_of_ne hlt.ne
  -- the other blocks are as they were when the block was opened
  have hother : ∀ {b₁ : Nat} {blk₁ : Block} {k₁ : Nat}, b₁ < b + 2 → c.blocks[b₁]? = some blk₁ →
      blk₁.kind = .basic → k₁ < blk₁.body.size → placeIn d blk₁ k₁ = placeIn c₀ blk₁ k₁ :=
    fun hlt hb₁ hkind₁ hk₁ => placeIn_other hc ho hb₁ hkind₁ (by omega)
      (fun x hx => by rw [horder]; exact List.mem_append_left _ hx) hd hk₁
  have hbody : SameBody c₀ d blk₀ := by
    intro id hid
    apply hd.store.untouched
    intro hmem
    have := hc.unique_block ho.block hb₀ ho.basic hkind₀ hmem hid
    omega
  have hsi' := (standsAt_congr (hother (by omega) hb₀ hkind₀ hi)).mpr hsi
  obtain ⟨pl, hpl, htime, hlane⟩ := hsi'
  obtain ⟨_, _, hslot⟩ := hd.tabled.placed_slot hpl hlane
  obtain ⟨_, hlane₀, _⟩ := Table.entry_eq_some_iff.mp hslot
  have hcase := ho.laneAcross hc hb₀ hkind₀ hd horder hs hf hany ha hedge
    (fun b₁ blk₁ k₁ l hlt hb₁ hkind₁ hk₁ hat => hapart i li hi hsi b₁ blk₁ k₁ l hlt hb₁ hkind₁ hk₁
      ((standsAt_congr (hother (by omega) hb₁ hkind₁ hk₁)).mp hat)) hin.found hrow
  rw [hbody.bodyOf] at hcase
  have hlanes := (ht.lane_lt hfound.free.isSome : s.lane < c.target.lanes)
  have hfirst : s.Leftmost d.table → FirstUntaken e blk k (ri + 1) s.lane := by
    intro hleft
    refine ⟨fun n hn hat => ?_, fun l hl hlt => ?_⟩
    · obtain ⟨pl', hpl', htime', hlane'⟩ := (standsAt_congr (hplace n hn)).mp hat
      obtain ⟨_, _, hheld⟩ := hd.tabled.placed_slot hpl' hlane'
      rw [htime', ← hrow, (hfound.free : Table.entry d.table s.row s.lane = some none)] at hheld
      cases hheld
    · by_contra hnone
      have hfree := ho.free_of_untaken hd horder ht hafter ⟨hl, by omega⟩
        (fun n hn hat => hnone ⟨n, hn, (standsAt_congr (hplace n hn)).mpr (hrow ▸ hat)⟩)
        hfound.free (Int.le_refl _)
      have := hleft l hfree
      omega
  generalize a.inputs.map Operand.register = registers at *
  rcases hcase with ⟨q, hq, hat⟩ | ⟨hleft, hnone⟩
  · -- it follows what is looked up, and two instructions do not share a slot
    have hat₀ := (standsAt_congr (hother (by omega) hb₀ hkind₀ (lookedUp?_lt hq))).mp hat
    obtain ⟨pl', hpl', htime', hlane'⟩ := hat
    constructor
    · intro heq
      rw [heq] at hlane'
      have := hd.tabled.place_inj hpl hpl' (htime.trans htime'.symm) hlane hlane'
      obtain rfl : i = q := by omega
      exact .inl hq
    · rintro (heq | ⟨hnot, _⟩)
      · obtain rfl := Option.mem_unique hq heq
        exact (hat₀.unique hsi).2
      · exact absurd hat₀ (hnot q s.lane hq)
  · have hnone₀ : ∀ q l, lookedUp? blk₀.defs (c₀.bodyOf blk₀) registers = some q →
        ¬ StandsAt c₀ blk₀ q ri l := fun q l hq hat => hnone q l hq
      ((standsAt_congr (hother (by omega) hb₀ hkind₀ (lookedUp?_lt hq))).mpr hat)
    constructor
    · intro heq
      exact .inr ⟨hnone₀, heq ▸ hfirst hleft⟩
    · rintro (heq | ⟨_, huntaken⟩)
      · exact absurd hsi (hnone₀ i li heq)
      · exact (hfirst hleft).unique huntaken hfound.free.lane_nonneg hlane₀

end

theorem Progress.mem_of_standsAt (hc : Laid Q words c) (hd : Progress c done r d)
    (hb : c.blocks[b]? = some blk) (hkind : blk.kind = .basic) (hk : k < blk.body.size)
    (hs : StandsAt d blk k row lane) : (b : Int) ∈ done := by
  by_contra hnew
  obtain ⟨pl, hpl, _, hlane⟩ := hs
  rw [hd.waiting b blk hb hkind hnew k hk] at hpl
  rw [(hc.fresh _ pl hpl).2] at hlane
  cases hlane

/-- The step from block to block: what holds of two neighbouring blocks as soon as both are
    placed. -/
theorem laneAcross_of_placeAll {u : Unit} (hc : Laid Q words c) (hempty : NothingPlaced c)
    (ht : Table.Sized words.size c.target.lanes c.table) (h : Runs placeAll c u e)
    (hb₀ : c.blocks[b + 1]? = some blk₀) (hkind₀ : blk₀.kind = .basic)
    (hb : c.blocks[b + 2]? = some blk) (hkind : blk.kind = .basic) (hf : FieldsAt c blk k f)
    (hany : c.target.branchAnyLane = false → f.isBranch = false) (ha : (c.bodyOf blk)[k]? = some a)
    (hnop : f.isNop = false)
    (hedge : ∀ g, Dependence.graph blk.liveIn blk.liveOut (c.bodyOf blk) = .ok g →
      ((-1 : Int), (k : Int)) ∈ g.edges) :
    LaneAcross e e blk₀ blk k (a.inputs.map Operand.register) := by
  obtain ⟨order, r, d₁, printed, _, hlists, hrun, rfl⟩ := runs_placeAll hc h
  have hk := hf.index_lt
  have hall := hlists.induct hc hempty hrun (fun done r d => Stacked words.size c r d ∧
    (((b + 1 : Nat) : Int) ∈ done → ((b + 2 : Nat) : Int) ∈ done →
      LaneAcross d d blk₀ blk k (a.inputs.map Operand.register))) (List.prefix_refl _)
    ⟨stacked_start hempty ht, fun hm => absurd hm (by simp)⟩ ?_
  · exact (hall.2.2 (hlists.all _ _ hb₀ hkind₀) (hlists.all _ _ hb hkind)).congr
      (fun _ _ => rfl) rfl (fun _ _ => rfl)
  intro done rest n blkₙ r r' d e _ hn hkindₙ hnew hd hI hr
  obtain ⟨hs, hdone⟩ := hI
  refine ⟨(hd.fills_next hc hn hkindₙ hnew hs hr).1, fun hm₀ hm => ?_⟩
  have hold : ∀ {m : Nat}, (m : Int) ∈ done ++ [(n : Int)] → m ≠ n → (m : Int) ∈ done := by
    intro m hm hne
    simpa [show (m : Int) ≠ n by omega] using hm
  by_cases heq : n = b + 2
  · subst heq
    obtain rfl := Option.mem_unique hb hn
    obtain ⟨hplaces₀, hbody₀⟩ := hd.other_next hc hn hkindₙ hnew hr hb₀ hkind₀ (by omega)
    obtain ⟨g, x, placed, r₁, e₁, ranges, ho, hplaced, _, _, _, rfl, _⟩ :=
      hd.runs_next hc hn hkindₙ hnew hr
    obtain ⟨_, _, _, _, _, _, hat⟩ :=
      ho.reached hc (hs.setDrawings x) hplaced (ho.lists.mpr ⟨f, hf, hnop⟩)
    refine (ho.laneAcross_step hc hb₀ hkind₀ hat.partly hat.split hat.stacked hf hany ha
      (hedge g ho.graph) (fun i row lane hi hat => hd.bound _ blk₀ i row lane hb₀ hkind₀ hi hat) ?_
      hat.run).congr hplaces₀ (congrArg _ hbody₀.bodyOf) fun _ => hat.place
    -- no other block has an instruction in the last row of the block before
    intro i li hi hat b₁ blk₁ k₁ l hlt hb₁ hkind₁ hk₁ hat₁
    rcases hd.apart b₁ (b + 1) blk₁ blk₀ (by omega)
      (hd.mem_of_standsAt hc hb₁ hkind₁ hk₁ hat₁) (hold hm₀ (by omega)) hb₁ hb₀ hkind₁ hkind₀ with
      ⟨last, hle, hgt⟩ | ⟨last, hle, hgt⟩
    · have := hle k₁ _ l hk₁ hat₁
      have := hgt i _ li hi hat
      omega
    · have := hle i _ li hi hat
      have := hgt k₁ _ l hk₁ hat₁
      omega
  · obtain ⟨hplaces, hbody⟩ := hd.other_next hc hn hkindₙ hnew hr hb hkind (by omega)
    by_cases heq₀ : n = b + 1
    · -- it comes behind the other one
      subst heq₀
      obtain rfl := Option.mem_unique hb₀ hn
      intro i ri li lj hi hsi hsj
      rw [standsAt_congr (hplaces k hk)] at hsj
      have hle := hd.bound _ blk k _ lj hb hkind hk hsj
      obtain ⟨g, x, placed, r₁, e₁, ranges, ho, _, hpartly, _, _, rfl, _⟩ :=
        hd.runs_next hc hn hkindₙ hnew hr
      have := (rows_of_standsAt ho.ready hpartly hi hsi).1
      omega
    · obtain ⟨hplaces₀, hbody₀⟩ := hd.other_next hc hn hkindₙ hnew hr hb₀ hkind₀ (by omega)
      exact (hdone (hold hm₀ (by omega)) (hold hm (by omega))).congr hplaces₀
        (congrArg _ hbody₀.bodyOf) fun k' hk' => hplaces k' (by omega)

/-! ## Lanes kept from one block to the next -/

/-- When the reader of a register stands in the lane of an instruction of the block before that
    stands in the row above it. For all registers that the reader reads, one instruction of
    that block is looked up. The lanes agree if it is the one that is looked up. They agree as
    well if what is looked up is in no slot of that row, and the lane is the first that no
    earlier instruction of the reader's own block took. A branch on a target that binds
    branches to the first lane is in the first. -/
theorem lane_kept_across_blocks_iff {target : Target} {options : Options} {words : Array Word}
    {texts : Array String} (hwords : NoJumpBefore words) {c e : Compilation}
    (hprep : Runs Optimize.prepare (start target options words texts) () c)
    (hrun : Runs Optimize.run (start target options words texts) () e)
    {b i j : Nat} {blk₀ blk : Block} {a : Instr} {f : Fields} {reg row lane lane' : Int}
    (hb₀ : c.blocks[b + 1]? = some blk₀) (hkind₀ : blk₀.kind = .basic)
    (hb : c.blocks[b + 2]? = some blk) (hkind : blk.kind = .basic)
    (ha : (c.bodyOf blk)[j]? = some a) (hf : Fields.decode a.word = .ok f)
    (hreads : a.reads reg = true)
    (hfirst : ∀ n x, n < j → (c.bodyOf blk)[n]? = some x → x.writes reg = false)
    (hi : i < blk₀.body.size) (habove : StandsAt e blk₀ i row lane)
    (hbelow : StandsAt e blk j (row + 1) lane') :
    if target.branchAnyLane = false ∧ f.isBranch = true then lane' = 0
    else (lane' = lane ↔
      let found := lookedUp? blk₀.defs (e.bodyOf blk₀) (a.inputs.map Operand.register)
      found = some i ∨
        (∀ q l, found = some q → ¬ StandsAt e blk₀ q row l) ∧
          FirstUntaken e blk j (row + 1) lane) := by
  obtain ⟨c', d, d₁, parsed, order, r, hprep', hready, hplace, hd, hlists, hprogress, hrows⟩ :=
    Optimize.runs_run hwords hrun
  obtain ⟨_, rfl⟩ := hprep.unique hprep'
  obtain ⟨_, fresh, marked, _, _, hprepared, _⟩ :=
    Optimize.runs_prepare (Optimize.uncut_start hwords) hprep
  have hc := hready.laid
  have ht := hready.sized
  rw [← hready.size] at ht
  have htarget := hready.target
  subst htarget
  -- the last step changes offsets only
  have hplaces : ∀ blk k, placeIn e blk k = placeIn d blk k := by
    intro blk k
    unfold placeIn
    rw [hrows.retargeted.rest, hd]
  have houtputs : (e.bodyOf blk₀).map Instr.output = (d.bodyOf blk₀).map Instr.output := by
    unfold bodyOf
    rw [List.map_filterMap, List.map_filterMap]
    refine List.filterMap_congr fun id _ => ?_
    rw [hrows.retargeted.map_eq (fun _ _ h => h.operands.2) id, hd]
  have hfields : FieldsAt c blk j f := by
    rw [hc.bodyOf_getElem? hb hkind] at ha
    obtain ⟨id, hid, ha⟩ := Option.bind_eq_some_iff.mp ha
    exact ⟨id, a, ⟨Position.get_natCast.mpr hid, ha⟩, hf⟩
  split
  · next hbound =>
    obtain ⟨_, _, _, _, _, _, _, _, _, hat⟩ :=
      branchAt_of_placeAll hc hready.unplaced ht hplace hb hkind hfields hbound.2
    obtain ⟨_, rfl⟩ := ((standsAt_congr (hplaces blk j)).mpr hat.stands).unique hbelow
    exact hat.bound hbound.1
  · next hany =>
    have hnop : f.isNop = false := by
      obtain ⟨id, i, _, hid, hi, hstands, _⟩ := hc.standsFor_index hb hkind hfields.index_lt
      rw [hc.bodyOf_getElem? hb hkind, hid] at ha
      obtain rfl := Option.mem_unique hi ha
      obtain ⟨f', hf', hin, _⟩ := hstands.operands
      obtain rfl := Except.ok.inj (hf.symm.trans hf')
      by_contra hnop
      rw [Fields.inputs_of_isNop (by simpa using hnop), List.map_eq_nil_iff] at hin
      unfold Instr.reads at hreads
      rw [hin] at hreads
      cases hreads
    have hacross := laneAcross_of_placeAll hc hready.unplaced ht hplace hb₀ hkind₀ hb hkind hfields
      (fun h => by simpa [h] using hany) ha hnop (fun g hg => (mem_graph_edges hg).mpr (Or.inl
        ⟨j, reg, rfl, hprepared.liveIn_of_reads hb hkind ha hreads hfirst, ⟨a, ha, hreads⟩, hfirst⟩))
    exact hacross.congr (fun k _ => hplaces blk₀ k) houtputs (fun k _ => hplaces blk k) i row lane
      lane' hi habove hbelow

/-- A store behind a block boundary. Its value was written two rows above it, its address in the
    row above it, in the second lane. -/
def storeAfterMerge : Compilation :=
  quietStart #[0x1501040000000000, 0xb701000001000000, 0xb703000003000000, 0xbf14000000000000,
    0xbf32000000000000, 0x6312000000000000, 0x9500000000000000]

theorem lane_kept_across_blocks_iff_storeAfterMerge :
    ∃ (c e : Compilation) (blk₀ blk : Block) (lane : Int),
      Runs Optimize.prepare storeAfterMerge () c ∧ Runs Optimize.run storeAfterMerge () e ∧
      c.blocks[2]? = some blk₀ ∧ c.blocks[3]? = some blk ∧
      (∃ a, (c.bodyOf blk)[0]? = some a ∧ a.reads 2 = true) ∧
      lastWriter? 2 (e.bodyOf blk₀) = some 3 ∧ StandsAt e blk₀ 3 2 1 ∧ StandsAt e blk 0 3 lane ∧
      lane ≠ 1 := by
  obtain ⟨c, e, hprep, hrun, blk₀, hb₀, hkind₀, hsize, hwriter, hfound, habove, blk, hb, hkind,
      pl, hpl, htime, hlane, a, ha, hreads, hregs, hfields⟩ :=
    exists_compiled (s := storeAfterMerge) (P := fun c e => ∃ blk₀, blk₀ ∈ c.blocks[2]? ∧
      blk₀.kind = .basic ∧ blk₀.body.size = 4 ∧ lastWriter? 2 (e.bodyOf blk₀) = some 3 ∧
      lookedUp? blk₀.defs (e.bodyOf blk₀) [1, 2] = some 0 ∧ StandsAt e blk₀ 3 2 1 ∧
      ∃ blk, blk ∈ c.blocks[3]? ∧ blk.kind = .basic ∧ ∃ pl, pl ∈ placeIn e blk 0 ∧
      pl.time = 3 ∧ pl.lane.isSome = true ∧ ∃ a, a ∈ (c.bodyOf blk)[0]? ∧ a.reads 2 = true ∧
      a.inputs.map Operand.register = [1, 2] ∧ (Fields.decode a.word).toOption.isSome = true)
      (by decide +kernel) (by decide +kernel) (by decide +kernel)
  obtain ⟨f, hf⟩ := Option.isSome_iff_exists.mp hfields
  obtain ⟨lane, hlane⟩ := Option.isSome_iff_exists.mp hlane
  have hbelow : StandsAt e blk 0 3 lane := ⟨pl, hpl, htime, hlane⟩
  have hiff := lane_kept_across_blocks_iff (b := 1) (by decide +kernel) hprep hrun hb₀ hkind₀
    hb hkind ha (eq_ok_of_toOption hf) hreads (fun n _ hn => absurd hn (Nat.not_lt_zero n)) (by omega)
    habove hbelow
  refine ⟨c, e, blk₀, blk, lane, hprep, hrun, hb₀, hb, ⟨a, ha, hreads⟩, hwriter, habove, hbelow,
    fun heq => ?_⟩
  rw [if_neg (by rintro ⟨h, _⟩; cases h), hregs, hfound] at hiff
  -- the first lane is free, so a lane that is not looked up is not taken
  rcases hiff.mp heq with hsame | ⟨_, _, htaken⟩
  · cases hsame
  · obtain ⟨n, hn, _⟩ := htaken 0 (by omega) (by omega)
    omega

end Schedule
end BpfLanes
