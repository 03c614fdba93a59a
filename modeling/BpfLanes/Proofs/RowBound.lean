import BpfLanes.Proofs.AwaitedSources
import BpfLanes.Proofs.RenamingRegisters
import BpfLanes.Proofs.RowCredit
import BpfLanes.Proofs.RowSpans

/-! # A program needs no more rows than it has instructions

Every instruction of a program pays for one row. While a block is placed, what an
instruction waits for is near the last row that is used, so the slot that it gets is
near that row as well, and the rows that are used stay paid for. Hence a search for a
slot never gets to the end of the table: it finds a slot, or it stops at a source that
has no lane yet. This takes that a branch which is bound to the first lane comes
behind the blocks that write its registers; its source might have no lane otherwise.
-/

namespace BpfLanes

open Compilation BpfLanes.Flow

variable {blk' : Block} {i : Instr} {b' id k' q : Nat} {pl : Place}

namespace Schedule

open Placement Dependence

/-! ## A block that is being placed -/

/-- Position `q` belongs to one of the blocks `bs`. -/
def Owned (c : Compilation) (bs : List Int) (q : Nat) : Prop :=
  ∃ (b : Nat) (blk : Block) (k : Nat), (b : Int) ∈ bs ∧ c.blocks[b]? = some blk ∧
    blk.kind = .basic ∧ k < blk.body.size ∧ q = blk.start.toNat + k

/-- The positions of the instructions of some blocks, and of some instructions of one more
    block. -/
def OwnedWith (c : Compilation) (bs : List Int) (blk : Block) (ns : List Int) (q : Nat) : Prop :=
  Owned c bs q ∨ ∃ k : Nat, (k : Int) ∈ ns ∧ q = blk.start.toNat + k

/-- Blocks in front of block `b` that write a register which its branch reads are among
    those that were placed before. -/
def WritersBefore (c : Compilation) (earlier : List Int) (b : Nat) (blk : Block) : Prop :=
  ∀ (k id : Nat) (i : Instr) (f : Fields) (b' : Nat) (blk' : Block) (r : Int),
    InstrAt c blk k id i → Fields.decode i.word = .ok f → f.isBranch = true → b' < b →
    c.blocks[b']? = some blk' → blk'.kind = .basic → i.reads r = true → blk'.defs.has r = true →
    (b' : Int) ∈ earlier

/-- In the state `d` the blocks in `earlier` were placed, up to row `r₀.row`, and of block
    `b` the instructions in `done`, up to row `r.row`. -/
structure Midway (words : Array Word) (c : Compilation) (earlier : List Int) (r₀ : Reach)
    (c₀ : Compilation) (b : Nat) (blk : Block) (g : Digraph) (order done : List Int) (r : Reach)
    (d : Compilation) : Prop where
  before : Progress c earlier r₀ c₀
  unplaced : (b : Int) ∉ earlier
  opened : Opened c c₀ b blk g r₀.row order
  partly : Partly c₀ b blk g r₀.row order done r d
  stacked : Stacked words.size c r d
  paid : Paid (OwnedWith c earlier blk done) r.row d.table

variable {Q : Instr → Prop} {words : Array Word} {c c₀ d e : Compilation} {b k : Nat} {blk : Block}
  {g : Digraph} {earlier order done rest blocks : List Int} {r₀ r r' : Reach} {w : Wait} {f : Fields}

theorem done_subset (horder : order = done ++ (k : Int) :: rest) : done ⊆ order := by
  intro n hn
  rw [horder]
  exact List.mem_append_left _ hn

theorem position_lt (hc : Laid Q words c) (hb : c.blocks[b]? = some blk)
    (hkind : blk.kind = .basic) (hk : k < blk.body.size) : blk.start.toNat + k < words.size := by
  have hplace := (hc.holds b blk hb hkind).place k hk
  rw [← hc.size]
  exact lt_size hplace

theorem Owned.lt (hc : Laid Q words c) {bs : List Int} (h : Owned c bs q) : q < words.size := by
  obtain ⟨b, blk, k, _, hb, hkind, hk, rfl⟩ := h
  exact position_lt hc hb hkind hk

section
variable (hc : Laid Q words c) (hm : Midway words c earlier r₀ c₀ b blk g order done r d)
  (horder : order = done ++ (k : Int) :: rest)
include hc hm horder

theorem Midway.not_owned : ¬ OwnedWith c earlier blk done (blk.start.toNat + k) := by
  have hlt := hm.opened.index_lt horder
  rintro (⟨b', blk', k', hmem, hb', hkind', hk', heq⟩ | ⟨k', hmem, heq⟩)
  · obtain ⟨rfl, _⟩ := hc.unique_index hm.opened.block hm.opened.basic
      (Array.getElem?_eq_getElem hlt) hb' hkind' (Array.getElem?_eq_getElem hk') heq
    exact hm.unplaced hmem
  · have := ((hm.opened.places.mem_done horder).mp hmem).2
    omega

omit horder in
theorem Midway.owned_lt (hsub : done ⊆ order) (h : OwnedWith c earlier blk done q) :
    q < words.size := by
  rcases h with hq | ⟨k', hmem, rfl⟩
  · exact hq.lt hc
  · have hlt := ((hm.opened.places.mem k').mp (hsub hmem)).2.1
    exact position_lt hc hm.opened.block hm.opened.basic (by omega)

theorem Midway.room :
    r.row + 1 < words.size ∧ (d.table.Crowded r.row → r.row + 2 < words.size) := by
  have hlt := hm.opened.index_lt horder
  refine hm.paid.room (hm.not_owned hc horder) ?_ fun q hq => hm.owned_lt hc (done_subset horder) hq
  exact position_lt hc hm.opened.block hm.opened.basic hlt

omit hc horder in
theorem Midway.table_of_renamed (he : Renamed blk d e) :
    e.blocks[b]? = some blk ∧ e.target = c.target ∧
      Table.Sized words.size e.target.lanes e.table ∧ e.table.FilledTo r.row := by
  have htarget : e.target = c.target := by rw [he.rest, hm.partly.frame, hm.opened.target]
  rw [htarget, he.blocks, he.table]
  exact ⟨hm.opened.block_eq hm.partly, rfl, hm.stacked.sized, hm.stacked.filled⟩

theorem Midway.inside {p : Int} {q : Option Int} (hp : p ∈ g.before k) (hne : p ≠ -1)
    (hplace : PlaceAt d blk p q pl) : ∃ lane id, pl.lane = some lane ∧ pl.block = some (b : Int) ∧
      Table.entry d.table pl.time lane = some (some id) := by
  have hblk := hm.opened.block_eq hm.partly
  obtain ⟨reg, i, rfl, hfeeds⟩ := hm.opened.feeds_of_mem hc horder hp hne
  obtain ⟨hi, pl', lane, hpl', hlane, hblock, _⟩ := hm.opened.feeder hc hm.partly horder hfeeds
  obtain ⟨_, hpl⟩ := (placeAt_iff hm.partly.tabled hblk hm.opened.basic hi).mp hplace
  obtain rfl := Option.mem_unique hpl hpl'
  obtain ⟨id, _, hslot⟩ := hm.partly.tabled.placed_slot hpl hlane
  exact ⟨lane, id, hlane, hblock, hslot⟩

theorem Midway.wait_near (hw : Runs (awaitAll b blk r₀.row k (g.before k)) d w d) :
    w.Near d.table r.row := by
  have hrow := hm.partly.row
  obtain ⟨_, hexact⟩ := awaitAll_exact (hm.opened.awaited hc hm.partly horder) hw
  cases hexact with
  | entry _ hentry _ => exact .inl (by omega)
  | one hp hne hplace hone _ =>
    obtain ⟨lane, id, _, _, hslot⟩ := hm.inside hc horder hp hne hplace
    have := hm.stacked.filled _ _ _ hslot
    exact .inl (by omega)
  | @two p p' q q' pl pl' hp hp' hne hne' hdiffer hplace hplace' htime htwo _ =>
    -- two sources in one row push the instruction past it
    obtain ⟨lane, id, hlane, _, hslot⟩ := hm.inside hc horder hp hne hplace
    obtain ⟨lane', id', hlane', _, hslot'⟩ := hm.inside hc horder hp' hne' hplace'
    have hle := hm.stacked.filled _ _ _ hslot'
    by_cases hlt : pl'.time < r.row
    · exact .inl (by omega)
    -- of two lanes one is not the first
    have hlanes := (hm.opened.awaited hc hm.partly horder).differ p hp p' hp' hne hne' hdiffer
      q q' pl pl' hplace hplace' htime
    refine .inr ⟨by omega, ?_⟩
    have htop : pl'.time = r.row := by omega
    rw [htime, htop] at hslot
    rw [htop] at hslot'
    by_cases hzero : lane = 0
    · refine ⟨lane', id', ?_, hslot'⟩
      intro hzero'
      rw [hlane, hlane', hzero, hzero'] at hlanes
      exact hlanes rfl
    · exact ⟨lane, id, hzero, hslot⟩

theorem Midway.awaitAll_ok (he : Renamed blk d e) (lastRow : Int) :
    ∃ w, Runs (awaitAll b blk lastRow k (g.before k)) e w e := by
  have hblk := hm.opened.block_eq hm.partly
  have hk := Array.getElem?_eq_getElem (hm.opened.index_lt horder)
  obtain ⟨i, hi, _⟩ := (he.tabled hm.partly.tabled).instr _ _
    ⟨b, blk, k, by rw [he.blocks]; exact hblk, hm.opened.basic, hk, rfl⟩
  apply Placement.awaitAll_ok ⟨Position.get_natCast.mpr hk, hi⟩
  · intro registers
    apply definition_ok
    rw [he.blocks]
    exact (lt_size hblk).le
  · intro p hp hne
    obtain ⟨reg, i, rfl, hfeeds⟩ := hm.opened.feeds_of_mem hc horder hp hne
    obtain ⟨hlt, pl, _, hpl, _⟩ := hm.opened.feeder hc hm.partly horder hfeeds
    exact ⟨_, pl, he.placeAt_iff.mpr
      ((placeAt_iff hm.partly.tabled hblk hm.opened.basic hlt).mpr ⟨rfl, hpl⟩)⟩

theorem Midway.known (he : Renamed blk d e) {lastRow : Int}
    (hw : Runs (awaitAll b blk lastRow k (g.before k)) e w e) : Known e words.size w.source := by
  intro p hp
  have hblocks : d.blocks = c.blocks := by rw [hm.partly.frame.blocks, hm.opened.blocks]
  have hlast : ∃ pl, Position.get d.schedule (-1) = .ok pl := by
    obtain ⟨pl, hpl, _⟩ := hm.partly.placeIn_some hm.opened.ready (hm.opened.index_lt horder)
    have hlt := lt_size hpl
    exact ⟨_, Position.get_last.mpr (Array.getElem?_eq_getElem (by omega))⟩
  rw [he.schedule]
  cases awaitAll_source hw with
  | last hlastSource =>
    -- the last place of the schedule, which is looked at when nothing is found
    rw [hlastSource] at hp
    cases hp
    obtain ⟨pl, hpl⟩ := hlast
    refine ⟨pl, hpl, ?_⟩
    cases hlane : pl.lane with
    | none => exact .inl (hm.stacked.last_time hc hpl hlane)
    | some lane =>
      have hat := Position.get_last.mp hpl
      obtain ⟨id, hid⟩ := hm.partly.tabled.numbered _ pl lane hat hlane
      rw [hblocks] at hid
      obtain ⟨pl', b', hpl', hblock⟩ := hm.stacked.home hc hid
      obtain rfl := Option.mem_unique hat hpl'
      exact .inr ⟨b', hblock⟩
  | before _ _ hdef =>
    rw [hp] at hdef
    obtain ⟨b', blk', k', id', i', _, hb', hk', _, hwrites, rfl⟩ :=
      (he.tabled hm.partly.tabled).runs_definition hdef
    rw [he.blocks, hblocks] at hb'
    obtain ⟨pl, home, hpl, hblock⟩ :=
      hm.stacked.home hc ⟨b', blk', k', hb', hwrites.basic, hk', rfl⟩
    exact ⟨pl, Position.get_natCast.mpr hpl, .inr ⟨home, hblock⟩⟩
  | inside hmem hne hplace =>
    have hplace := he.placeAt_iff.mp hplace
    obtain ⟨_, _, _, hblock, _⟩ := hm.inside hc horder hmem hne hplace
    obtain ⟨_, _, _, _, _, q, hq, hpl⟩ := hplace
    rw [hp] at hq
    cases hq
    exact ⟨_, hpl, .inr ⟨b, hblock⟩⟩

omit hm horder in
theorem active_of_writes {touched : Nat → Prop} {id' : Nat} {i' : Instr} {reg : Int}
    (hsame : SameOperations touched c.store d.store) (hb' : c.blocks[b']? = some blk')
    (hkind' : blk'.kind = .basic) (hk' : blk'.body[k']? = some id') (hi' : d.store[id']? = some i')
    (hwrites : i'.writes reg = true) : Active c blk' k' := by
  obtain ⟨i, hi, hop⟩ := hsame.origin hi'
  obtain ⟨i₀, hi₀, hstands, _⟩ := (hc.holds b' blk' hb' hkind').instr k' id' hk'
  obtain rfl := Option.mem_unique hi hi₀
  obtain ⟨f, hf, _⟩ := hstands.operands
  refine ⟨f, ⟨id', i, ⟨Position.get_natCast.mpr hk', hi⟩, hf⟩, ?_⟩
  cases hout : i.output with
  | none =>
    unfold Instr.writes at hwrites
    rw [hop.silent hout] at hwrites
    cases hwrites
  | some o =>
    have hwrites' : i.writes o.register = true := by
      unfold Instr.writes
      rw [hout]
      simp
    exact hstands.not_nop_of_writes hf hwrites'

omit hc horder in
theorem Midway.sameOperations : SameOperations (fun _ => True) c.store d.store :=
  (hm.before.store.mono fun _ _ => trivial).trans (hm.partly.store.mono fun _ _ => trivial)

theorem Midway.lane_of_earlier (hmem : (b' : Int) ∈ earlier) (hb' : c.blocks[b']? = some blk')
    (hkind' : blk'.kind = .basic) (hact : Active c blk' k') (hpl : placeIn d blk' k' = some pl) :
    pl.lane ≠ none := by
  have hk' : k' < blk'.body.size := by
    obtain ⟨_, hf, _⟩ := hact
    exact hf.index_lt
  have hne : b' ≠ b := by
    rintro rfl
    exact hm.unplaced hmem
  obtain ⟨_, _, pl', hpl', _, hlane⟩ :=
    (hm.before.finished b' blk' hmem hb' hkind').placed k' hk' hact
  rw [placeIn_other hc hm.opened hb' hkind' hne (done_subset horder) hm.partly hk', hpl'] at hpl
  cases hpl
  simp [hlane]

theorem Midway.settled (hf : FieldsAt c blk k f) (hbranch : f.isBranch = true)
    (hwriters : WritersBefore c earlier b blk)
    (hw : Runs (awaitAll b blk r₀.row k (g.before k)) d w d) : Settled d words.size w.source := by
  intro p pl hp hpl hlane
  have hblocks : d.blocks = c.blocks := by rw [hm.partly.frame.blocks, hm.opened.blocks]
  cases awaitAll_source hw with
  | last hlast =>
    rw [hlast] at hp
    cases hp
    exact hm.stacked.last_time hc hpl hlane
  | @before id₁ i₁ _ hi₁ hdef =>
    exfalso
    rw [hp] at hdef
    obtain ⟨b', blk', k', id', i', hlt, hb', hk', hi', hwrites, rfl⟩ :=
      hm.partly.tabled.runs_definition hdef
    rw [hblocks] at hb'
    obtain ⟨reg, hreg, hdefs, hwrite⟩ := hwrites.writes
    obtain ⟨hi, hdecode⟩ := hm.opened.branch_kept hc hm.partly horder hf hbranch hi₁
    have hmem := hwriters k id₁ i₁ f b' blk' reg hi hdecode hbranch hlt hb' hwrites.basic
      (Instr.reads_iff.mpr hreg) hdefs
    -- so what it waits for was placed with its block
    have hact := active_of_writes hc hm.sameOperations hb' hwrites.basic hk' hi' hwrite
    exact hm.lane_of_earlier hc horder hmem hb' hwrites.basic hact (Position.get_natCast.mp hpl) hlane
  | inside hmem hne hplace =>
    obtain ⟨_, _, hlane', _⟩ := hm.inside hc horder hmem hne hplace
    obtain ⟨_, _, _, _, _, q, hq, hpl'⟩ := hplace
    rw [hp] at hq
    cases hq
    rw [hpl] at hpl'
    cases hpl'
    rw [hlane'] at hlane
    cases hlane

theorem Midway.silent (he : Renamed blk d e) (hf : FieldsAt e blk k f) (hbranch : f.isBranch = true)
    (hi : InstrAt d blk k id i) : i.output = none := by
  obtain ⟨id₀, i₀, f₀, hk, hi₀, -, hf₀⟩ :=
    hc.standsFor_index hm.opened.block hm.opened.basic (hm.opened.index_lt horder)
  have hfc : FieldsAt c blk k f₀ := ⟨id₀, i₀, ⟨Position.get_natCast.mpr hk, hi₀⟩, hf₀⟩
  have hsame := hm.sameOperations.trans (he.store.mono fun _ _ => trivial)
  rw [isBranch_of_sameOperations hsame hfc hf] at hbranch
  exact hm.opened.silent hc hm.partly hfc hbranch hi

end

/-! ## Searches -/

/-- A search for a slot of instruction `k` that starts behind row `lastRow` in the state
    `e`: it waits for a row near the last one, and the source of a branch that is bound to
    the first lane has a lane. -/
structure Orderly (words : Array Word) (c : Compilation) (b : Nat) (blk : Block) (g : Digraph)
    (r : Reach) (d : Compilation) (k : Nat) (lastRow : Int) (e : Compilation) : Prop where
  renamed : Renamed blk d e
  last : -1 ≤ lastRow
  near : ∀ w, Runs (awaitAll b blk lastRow k (g.before k)) e w e → w.Near d.table r.row
  settled : ∀ w f, Runs (awaitAll b blk lastRow k (g.before k)) e w e → FieldsAt e blk k f →
    c.target.branchAnyLane = false → f.isBranch = true → Settled e words.size w.source

section
variable (hc : Laid Q words c) (hm : Midway words c earlier r₀ c₀ b blk g order done r d)
  (horder : order = done ++ (k : Int) :: rest)
include hc hm horder

theorem Midway.orderly_first
    (hwriters : c.target.branchAnyLane = false → WritersBefore c earlier b blk) :
    Orderly words c b blk g r d k r₀.row d where
  renamed := .refl blk d
  last := hm.opened.last
  near := fun w hw => hm.wait_near hc horder hw
  settled := by
    intro w f hw hf hbound hbranch
    obtain ⟨f₀, hf₀, _⟩ := hm.opened.active horder
    rw [isBranch_of_sameOperations hm.sameOperations hf₀ hf] at hbranch
    exact hm.settled hc horder hf₀ hbranch (hwriters hbound) hw

theorem Midway.orderly_again (he : Renamed blk d e) {s₀ : Slot} {row : Int}
    (hs₀ : s₀.Found d b blk (g.before k) r₀.row) (hlt : s₀.row < row) (hle : row ≤ r.row)
    (hi : InstrAt d blk k id i) (hout : i.output ≠ none) : Orderly words c b blk g r d k row e where
  renamed := he
  last := by
    have hlast := hm.opened.last
    have hafter := hs₀.after
    omega
  near := by
    intro w hw
    -- all that it reads from stands before the slot that was given up
    have hrow := awaitAll_late (fun p hp hne q pl hplace => by
      have := (hs₀.waits p hp hne q pl (he.placeAt_iff.mp hplace)).1
      omega) hw
    exact .inl (by omega)
  settled := fun w f _ hf _ hbranch => absurd (hm.silent hc horder he hf hbranch hi) hout

variable {lastRow : Int} {s : Slot} (ho : Orderly words c b blk g r d k lastRow e)
include ho

omit hc horder in
theorem Orderly.slot_near (h : Runs (find b g lastRow r.row k) e s e) : s.Near d.table r.row := by
  have htabled := ho.renamed.tabled hm.partly.tabled
  obtain ⟨hblk, htarget, hsized, hfill⟩ := hm.table_of_renamed ho.renamed
  obtain ⟨w, f, hw, hf, hlands, _⟩ :=
    find_lands htabled hblk hsized hfill ho.last (hm.opened.edges.entryFirst k) h
  obtain ⟨_, hfound⟩ := find_spec hblk (hm.opened.edges.entryFirst k) h ho.last htabled.lanesNonneg
  have hnear := ho.near w hw
  rw [← ho.renamed.table] at hnear ⊢
  refine hlands.near htabled hfill hnear ?_ (hsized.row_lt hfound.free).1
  rw [htarget]
  exact ho.settled w f hw hf

theorem Orderly.ends (hlanes : 0 < c.target.lanes) :
    (∃ s, Runs (find b g lastRow r.row k) e s e ∧ 0 ≤ s.row ∧ s.row < words.size) ∨
      Fails (find b g lastRow r.row k) e .missingNumber e := by
  have htabled := ho.renamed.tabled hm.partly.tabled
  obtain ⟨hblk, htarget, hsized, hfill⟩ := hm.table_of_renamed ho.renamed
  have hfirst := hm.opened.edges.entryFirst k
  obtain ⟨w, hw⟩ := hm.awaitAll_ok hc horder ho.renamed lastRow
  obtain ⟨_, hlow, _⟩ := awaitAll_spec hfirst hw
  have hlast := ho.last
  obtain ⟨f₀, hf₀, _⟩ := hm.opened.active horder
  obtain ⟨f, hfields, _⟩ := (hm.opened.same.fieldsAt.mpr hf₀).renamed
    (hm.partly.store.trans ho.renamed.store)
  obtain ⟨hroom, hmore⟩ := hm.room hc horder
  have hnear := ho.near w hw
  rw [← ho.renamed.table] at hnear hmore
  have hnode : (k : Int) ∈ g.nodes := by
    apply hm.opened.edges.node
    rw [hc.bodyOf_length hm.opened.block hm.opened.basic]
    exact hm.opened.index_lt horder
  -- instructions that were not placed yet pay for the rows that the search may need
  have hends := slotFrom_room htabled hfill hnear (by rw [htarget]; exact ho.settled w f hw hfields)
    b ((if f.isBranch then max w.row (r.row - 1) else w.row) + 1) hsized
    (by rw [htarget]; exact hlanes) (by split <;> omega) (by split <;> omega)
    (hm.known hc horder ho.renamed hw) hroom hmore
  have heq := find_eq hblk hnode hw hfields r.row
  rcases hends with ⟨s, hs⟩ | hfails
  · have hfind : Runs (find b g lastRow r.row k) e s e := heq.trans hs
    obtain ⟨_, hfound⟩ := find_spec hblk hfirst hfind ho.last htabled.lanesNonneg
    exact .inl ⟨s, hfind, hfound.free.row_nonneg, (hsized.row_lt hfound.free).1⟩
  · exact .inr (heq.trans hfails)

end

/-! ## Placing instruction after instruction -/

theorem Midway.start (hd : Progress c earlier r₀ c₀) (hnew : (b : Int) ∉ earlier)
    (ho : Opened c c₀ b blk g r₀.row order) (hs : Stacked words.size c r₀ c₀)
    (hp : Paid (Owned c earlier) r₀.row c₀.table) :
    Midway words c earlier r₀ c₀ b blk g order [] r₀ c₀ where
  before := hd
  unplaced := hnew
  opened := ho
  partly := Partly.start ho.ready.tabled
  stacked := hs
  paid := hp.mono fun _ hq => .inl hq

section
variable (hc : Laid Q words c)
  (hwriters : c.target.branchAnyLane = false → WritersBefore c earlier b blk)
include hc hwriters

theorem Midway.step (hm : Midway words c earlier r₀ c₀ b blk g order done r d)
    (horder : order = done ++ (k : Int) :: rest) (h : Runs (placeInstr b blk g r₀.row r k) d r' e) :
    Midway words c earlier r₀ c₀ b blk g order (done ++ [(k : Int)]) r' e := by
  have ho := hm.opened
  refine ⟨hm.before, hm.unplaced, ho,
    hm.partly.step ho.ready ho.edges ho.places ho.last horder h,
    hm.stacked.step ho hm.partly horder h, ?_⟩
  · obtain ⟨_, y, s₀, s, hin⟩ := ho.inserted hm.partly horder h
    have hren := hin.renamed
    -- the slot that is found stays, or a value in its way sends the search further down
    have hnear : s.Near d.table r.row := by
      have hnear₀ := (hm.orderly_first hc horder hwriters).slot_near hm hin.found
      rcases (hm.stacked.moved ho hm.partly hin).1 with rfl | ⟨z, row, hz, hlt, hle, hfind⟩
      · exact hnear₀
      obtain ⟨id, i, hi, ⟨rfl, _⟩ | ⟨o, _, _, _, hwrites, _⟩⟩ := runs_placeOutput hin.output
      · exact hnear₀
      · have hagain := hm.orderly_again hc horder hz (ho.found hm.partly hin.found) hlt hle hi
          (by rw [hwrites]; simp)
        exact hagain.slot_near hm hfind
    rw [hin.row]
    have hpaid := hm.paid
    rw [← hren.table] at hpaid hnear
    -- the instruction pays for the row that it opens
    refine (hpaid.put (hm.not_owned hc horder) (by rw [hren.table]; exact hm.stacked.filled) hnear
      hin.put).mono ?_
    intro q hq
    rcases hq with (hq | ⟨k', hk', rfl⟩) | rfl
    · exact .inl hq
    · exact .inr ⟨k', by simp [hk'], rfl⟩
    · exact .inr ⟨k, by simp, rfl⟩

theorem Midway.run (hm : Midway words c earlier r₀ c₀ b blk g order [] r₀ c₀)
    (hdone : done <+: order) (h : Runs (done.foldlM (placeInstr b blk g r₀.row) r₀) c₀ r d) :
    Midway words c earlier r₀ c₀ b blk g order done r d :=
  (hm.opened.induct (fun done r d => Midway words c earlier r₀ c₀ b blk g order done r d) hdone h hm
    fun _ _ _ _ _ _ _ hsplit _ hm hr => hm.step hc hwriters hsplit hr).2

end

/-! ## Placing block after block -/

/-- Every block comes behind those in front of it in the program that write a register
    which its branch reads. -/
def WritersFirst (c : Compilation) (blocks : List Int) : Prop :=
  ∀ (earlier rest : List Int) (b : Nat) (blk : Block), blocks = earlier ++ (b : Int) :: rest →
    c.blocks[b]? = some blk → WritersBefore c earlier b blk

theorem writersFirst_of_ascending (h : ListsBlocks c blocks) (hascend : blocks.Pairwise (· < ·)) :
    WritersFirst c blocks := by
  intro earlier rest b blk hsplit _ k id i f b' blk' reg _ _ _ hlt hb' hkind' _ _
  have hmem := h.all b' blk' hb' hkind'
  rw [hsplit] at hmem hascend
  rcases List.mem_append.mp hmem with hmem | hmem
  · exact hmem
  · have hrest := (List.pairwise_append.mp hascend).2.1
    rcases List.mem_cons.mp hmem with heq | hmem
    · omega
    · have := List.rel_of_pairwise_cons hrest hmem
      omega

theorem paid_next (hc : Laid Q words c) (hb : c.blocks[b]? = some blk) (hkind : blk.kind = .basic)
    (hnew : (b : Int) ∉ done) (hd : Progress c done r d) (hs : Stacked words.size c r d)
    (hp : Paid (Owned c done) r.row d.table)
    (hwriters : c.target.branchAnyLane = false → WritersBefore c done b blk)
    (h : Runs (placeNext r b) d r' e) : Paid (Owned c (done ++ [(b : Int)])) r'.row e.table := by
  obtain ⟨g, x, order, r₁, e₁, ranges, ho, hrun, hpartly, hrow, _, rfl, _⟩ :=
    hd.runs_next hc hb hkind hnew h
  have hstart := Midway.start (hd.setReports d.ranges d.printed x) hnew ho (hs.setDrawings x) hp
  have hend := hstart.run hc hwriters (List.prefix_refl _) hrun
  have hmine : ∀ q, OwnedWith c done blk order q → Owned c (done ++ [(b : Int)]) q := by
    rintro q (⟨b', blk', k', hmem, hrest⟩ | ⟨k', hk', rfl⟩)
    · exact ⟨b', blk', k', by simp [hmem], hrest⟩
    · have := ((ho.places.mem k').mp hk').2.1
      exact ⟨b, blk, k', by simp, hb, hkind, by omega, rfl⟩
  show Paid _ _ e₁.table
  rw [hrow]
  split
  · exact hend.paid.mono hmine
  next hidle =>
  -- nothing was placed, and the first instruction pays for the empty row
  have hnil : order = [] := by
    by_contra hne
    obtain ⟨n, hn⟩ := List.exists_mem_of_ne_nil order hne
    obtain ⟨k', rfl, _⟩ := ho.places.index hn
    obtain ⟨_, _, _, hlow, hhigh⟩ := standsAt_of_placed hpartly hn
    omega
  have hbody : 0 < blk.body.size := by
    have hspan := hc.cut.span b blk hb hkind
    have hstop := stop_eq hc hb hkind
    omega
  have hfirst : ¬ OwnedWith c done blk order (blk.start.toNat + 0) := by
    rintro (⟨b', blk', k', hmem, hb', hkind', hk', heq⟩ | ⟨k', hk', _⟩)
    · obtain ⟨rfl, _⟩ := hc.unique_index hb hkind (Array.getElem?_eq_getElem hbody) hb' hkind'
        (Array.getElem?_eq_getElem hk') heq
      exact hnew hmem
    · rw [hnil] at hk'
      cases hk'
  refine (hend.paid.skip hfirst hend.stacked.filled).mono ?_
  rintro q (hq | rfl)
  · exact hmine q hq
  · exact ⟨b, blk, 0, by simp, hb, hkind, hbody, rfl⟩

theorem paid_of_placeBlocks (hc : Laid Q words c) (hempty : NothingPlaced c)
    (ht : Table.Sized words.size c.target.lanes c.table)
    (hblocks : ListsBlocks c blocks)
    (hwriters : c.target.branchAnyLane = false → WritersFirst c blocks) (hdone : done <+: blocks)
    (h : Runs (done.foldlM placeNext { row := -1, position := -1 }) c r d) :
    Progress c done r d ∧ Stacked words.size c r d ∧ Paid (Owned c done) r.row d.table := by
  refine hblocks.induct hc hempty h (fun done r d => Stacked words.size c r d ∧
    Paid (Owned c done) r.row d.table) hdone ?_ ?_
  · refine ⟨stacked_start hempty ht, ∅, by simp, by simp, ?_⟩
    rintro ⟨lane, id, _, hslot⟩
    exact absurd hslot (hempty.vacant _ lane id)
  · rintro done rest b blk r r' d e hsplit hb hkind hnew hd ⟨hs, hp⟩ hr
    exact ⟨(hd.fills_next hc hb hkind hnew hs hr).1, paid_next hc hb hkind hnew hd hs hp
      (fun hbound => hwriters hbound done rest b blk hsplit hb) hr⟩

/-! ## All searches of a schedule -/

/-- The searches for a slot while the blocks of `c` are placed: for instruction `n` of block
    `b`, behind row `lastRow` and with rows in use up to `maxRow`, in the state `x`. -/
inductive Searches (c : Compilation) (b : Int) (g : Digraph) (n : Int) :
    (lastRow maxRow : Int) → (x : Compilation) → Prop where
  /-- the search for an instruction that comes next -/
  | first {blk : Block} {lastRow : Int} {r : Reach} {x : Compilation}
    (h : ComesNext c b n blk g lastRow r x) : Searches c b g n lastRow r.row x
  /-- the search for a later slot, since the first one would overwrite the value `v` and
      renaming failed -/
  | again {blk : Block} {lastRow row : Int} {r : Reach} {x y : Compilation} {s : Slot} {id : Nat}
    {i : Instr} {o : Operand} {v : LiveRange} {fault : Fault} {printed : String}
    (h : ComesNext c b n blk g lastRow r x) (hfind : Runs (find b g lastRow r.row n) x s x)
    (hi : InstrAt x blk n id i) (ho : i.output = some o)
    (hv : x.ranges.conflict? o.register s.row = some v) (havoid : Runs (mustAvoid blk i v) x true x)
    (hrename : Fails (renameValue b blk g n s.row o.register (x.ranges.taken s.row)) x fault y)
    (hrow : v.endRow = some row) : Searches c b g n row r.row { y with printed }

section
variable {x : Compilation} {b n lastRow maxRow : Int}

variable (hc : Laid Q words c) (hempty : NothingPlaced c)
include hc hempty

theorem ComesNext.opened (h : ComesNext c b n blk g lastRow r x) :
    ∃ (b' k : Nat) (blocks done after order earlier rest : List Int) (r₀ : Reach)
      (d : Compilation) (z : Array Drawing), b = b' ∧ n = k ∧ lastRow = r₀.row ∧
      order = earlier ++ (k : Int) :: rest ∧ Runs blockOrder c blocks c ∧
      blocks = done ++ (b' : Int) :: after ∧
      Runs (done.foldlM placeNext { row := -1, position := -1 }) c r₀ d ∧
      Progress c done r₀ { d with drawings := z } ∧ (b' : Int) ∉ done ∧
      Opened c { d with drawings := z } b' blk g r₀.row order ∧
      Runs (earlier.foldlM (placeInstr b' blk g r₀.row) r₀) { d with drawings := z } r x := by
  obtain ⟨blocks, done, order, earlier, r₀, d, d', hblocks, hdone, hrun, hblk, hg, hd',
    horder, ⟨rest, hrest⟩, hplaced, hlast⟩ := h
  obtain ⟨b, rfl, hnew, hz, ho⟩ :=
    opened_after hc hempty hrun hblocks hdone hblk hg hd' horder
  obtain ⟨after, hafter⟩ := hdone
  have hsplit : blocks = done ++ (b : Int) :: after := by
    rw [← hafter]
    simp
  have hlisted : order = earlier ++ n :: rest := by
    rw [← hrest]
    simp
  obtain ⟨z, rfl⟩ : ∃ z, d' = { d with drawings := z } := ⟨_, hd'⟩
  obtain ⟨k, rfl, _⟩ := ho.places.next hlisted
  exact ⟨b, k, blocks, done, after, order, earlier, rest, r₀, d, z, rfl, rfl, hlast, hlisted, hblocks,
    hsplit, hrun, hz, hnew, ho, hplaced⟩

variable (ht : Table.Sized words.size c.target.lanes c.table) (hblocks : Runs blockOrder c blocks c)
  (hwriters : c.target.branchAnyLane = false → WritersFirst c blocks)
include ht hblocks hwriters

theorem ComesNext.midway (h : ComesNext c b n blk g lastRow r x) :
    ∃ (b' k : Nat) (done order earlier rest : List Int) (r₀ : Reach) (c₀ : Compilation),
      b = b' ∧ n = k ∧ lastRow = r₀.row ∧ order = earlier ++ (k : Int) :: rest ∧
      (c.target.branchAnyLane = false → WritersBefore c done b' blk) ∧
      Midway words c done r₀ c₀ b' blk g order earlier r x := by
  obtain ⟨b, k, blocks', done, after, order, earlier, rest, r₀, d, z, rfl, rfl, hlast, hlisted,
    hblocks', hsplit, hrun, hz, hnew, ho, hplaced⟩ := h.opened hc hempty
  obtain ⟨rfl, _⟩ := hblocks.unique hblocks'
  obtain ⟨_, hlists⟩ := blockOrder_spec hc hblocks
  obtain ⟨_, hs, hp⟩ := paid_of_placeBlocks hc hempty ht hlists hwriters
    ⟨_, hsplit.symm⟩ hrun
  have hbefore : c.target.branchAnyLane = false → WritersBefore c done b blk := fun hbound =>
    hwriters hbound done after b blk hsplit ho.block
  exact ⟨b, k, done, order, earlier, rest, r₀, _, rfl, rfl, hlast, hlisted, hbefore,
    (Midway.start hz hnew ho (hs.setDrawings z) hp).run hc hbefore ⟨_, hlisted.symm⟩ hplaced⟩

theorem Searches.ends (hlanes : 0 < c.target.lanes) (h : Searches c b g n lastRow maxRow x) :
    (∃ s, Runs (find b g lastRow maxRow n) x s x ∧ 0 ≤ s.row ∧ s.row < words.size) ∨
      Fails (find b g lastRow maxRow n) x .missingNumber x := by
  cases h with
  | first h =>
    obtain ⟨b, k, done, order, earlier, rest, r₀, c₀, rfl, rfl, rfl, horder, hbefore, hm⟩ :=
      h.midway hc hempty ht hblocks hwriters
    exact (hm.orderly_first hc horder hbefore).ends hc hm horder hlanes
  | @again blk _ _ r x y s _ _ _ v _ printed h hfind hi ho hv _ hrename hrow =>
    obtain ⟨b, k, done, order, earlier, rest, r₀, c₀, rfl, rfl, rfl, horder, hbefore, hm⟩ :=
      h.midway hc hempty ht hblocks hwriters
    have hblk := hm.opened.block_eq hm.partly
    -- a renaming that fails leaves the places and the table as they were
    have hy := (attempted_of_fails hm.partly.tabled hblk hm.opened.basic hrename).renamed
    have hy' : Renamed blk x { y with printed } :=
      renamed_inert y y.bounds y.fusedMoves y.fusedExits _ y.drawings hy
    have hfound := hm.opened.found hm.partly hfind
    -- the search goes on behind the last use of the value in its way, which is a row in use
    have hlt := LiveRanges.lt_of_outlives (LiveRanges.conflict_outlives hv) hrow
    have hle := hm.stacked.ends v (LiveRanges.conflict_mem hv).1 lastRow hrow
    exact (hm.orderly_again hc horder hy' hfound hlt hle hi (by rw [ho]; simp)).ends hc hm horder
      hlanes

end

/-- A program needs no more rows than it has instructions. Suppose that branches may stand
    in any lane, or that every block comes behind those in front of it which write a
    register that its branch reads. Then no search for a slot runs past the end of the
    table, after each block the rows in use are no more than there are instructions, and
    so many rows are left in the end. -/
theorem searches_stay_in_table {target : Target} {options : Options} {words : Array Word}
    {texts : Array String} (hwords : NoJumpBefore words) (hlanes : 1 ≤ target.lanes)
    {c : Compilation} (hprep : Runs Optimize.prepare (start target options words texts) () c)
    {blocks : List Int} (hblocks : Runs blockOrder c blocks c)
    (hfirst : target.branchAnyLane = true ∨ WritersFirst c blocks) :
    (∀ (b : Int) (g : Digraph) (n lastRow maxRow : Int) (x : Compilation),
      Searches c b g n lastRow maxRow x →
        (∃ s, Runs (find b g lastRow maxRow n) x s x ∧ 0 ≤ s.row ∧ s.row < words.size) ∨
          Fails (find b g lastRow maxRow n) x .missingNumber x) ∧
    (∀ (done : List Int) (r : Reach) (d : Compilation), done <+: blocks →
      Runs (done.foldlM placeNext { row := -1, position := -1 }) c r d →
        r.row + 1 ≤ words.size) ∧
    ∀ d, Runs placeAll c () d → ∃ (r : Reach) (e : Compilation),
      Runs (blocks.foldlM placeNext { row := -1, position := -1 }) c r e ∧
        (d.table.size : Int) = r.row + 1 ∧ d.table.size ≤ words.size := by
  obtain ⟨parsed, _, hc, _, hempty, ht, hsize, htarget⟩ := placeable_of_prepare hwords hprep
  rw [← hsize] at ht ⊢
  have hwriters : c.target.branchAnyLane = false → WritersFirst c blocks := by
    intro hbound
    rw [htarget] at hbound
    exact hfirst.resolve_left (by rw [hbound]; simp)
  obtain ⟨_, hlists⟩ := blockOrder_spec hc hblocks
  have hrows : ∀ (done : List Int) (r : Reach) (d : Compilation), done <+: blocks →
      Runs (done.foldlM placeNext { row := -1, position := -1 }) c r d →
      r.row + 1 ≤ parsed.size := by
    intro done r d hdone hrun
    obtain ⟨_, _, hp⟩ := paid_of_placeBlocks hc hempty ht hlists hwriters hdone hrun
    exact hp.le fun q hq => hq.lt hc
  refine ⟨?_, hrows, ?_⟩
  · intro b g n lastRow maxRow x h
    exact h.ends hc hempty ht hblocks hwriters (by rw [htarget]; omega)
  intro d hplace
  obtain ⟨order, r, d₁, printed, horder, _, hrun, rfl⟩ := runs_placeAll hc hplace
  obtain ⟨rfl, _⟩ := hblocks.unique horder
  have hle := hrows _ r d₁ (List.prefix_refl _) hrun
  obtain ⟨hd, hs, _⟩ := paid_of_placeBlocks hc hempty ht hlists hwriters
    (List.prefix_refl _) hrun
  have hsize := (hs.cutAt hd.row).2 (by rw [htarget]; omega) hle
  exact ⟨r, d₁, hrun, hsize, by dsimp only; omega⟩

/-- A table with two lanes of which branches may use the first one only. -/
def narrowStart (words : Array Word) : Compilation :=
  start { lanes := 2, branchAnyLane := false } { printTable := false } words
    (words.map fun _ => "")

theorem searches_stay_in_table_loadAndTest :
    ∃ (c d : Compilation) (blocks : List Int), Runs Optimize.prepare (narrowStart loadAndTest) () c ∧
      Runs blockOrder c blocks c ∧ WritersFirst c blocks ∧ Runs placeAll c () d ∧
      d.table.size ≤ loadAndTest.size := by
  have hc := runs_after (m := Optimize.prepare) (s := narrowStart loadAndTest) (by decide +kernel)
  have hblocks := runs_after (m := blockOrder)
    (s := stateAfter Optimize.prepare (narrowStart loadAndTest)) (by decide +kernel)
  have hd := runs_after (m := placeAll)
    (s := stateAfter Optimize.prepare (narrowStart loadAndTest)) (by decide +kernel)
  have hascend : (resultAfter blockOrder
      (stateAfter Optimize.prepare (narrowStart loadAndTest))).Pairwise (· < ·) := by decide +kernel
  have hwords : NoJumpBefore loadAndTest := by decide +kernel
  have hsame := (blockOrder_spec (placeable_of_prepare hwords hc).choose_spec.laid hblocks).1
  rw [hsame] at hblocks
  have hlists := (blockOrder_spec (placeable_of_prepare hwords hc).choose_spec.laid hblocks).2
  have hfirst := writersFirst_of_ascending hlists hascend
  obtain ⟨_, _, _, _, hle⟩ :=
    (searches_stay_in_table hwords (by decide) hc hblocks (Or.inr hfirst)).2.2 _ hd
  exact ⟨_, _, _, hc, hblocks, hfirst, hd, hle⟩

end Schedule
end BpfLanes
