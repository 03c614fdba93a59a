import BpfLanes.Proofs.AwaitedSources
import BpfLanes.Proofs.Dataflow
import BpfLanes.Proofs.ValueRecords

/-! # Slots found first

The instructions of a block are placed in their order, each in the first row that has a
slot open to it. If an instruction reads nothing that the block writes, one instruction
of the blocks before is looked up for all that it reads, and it waits for that one. An
instruction is put off only if a value is in its way which it would overwrite too early,
and if it cannot be given another register.
-/

namespace BpfLanes

open Compilation BpfLanes.Flow Dependence Placement

namespace Schedule

/-! ## Instructions that are put off -/

/-- Instruction `n` of a block, which comes next in `x`, is put off behind row `floor`: there
    the value in its way is used last, and renaming its own value fails. -/
def PutOff (x : Compilation) (b : Int) (blk : Block) (g : Digraph) (top : Int) (r : Reach) (n : Int)
    (floor : Int) : Prop :=
  ∃ s i v fault y, InTheWay x b blk g top r n s i v ∧
    Fails (renameValue b blk g n s.row v.register (x.ranges.taken s.row)) x fault y ∧
    v.endRow = some floor

/-! ## Values from before the block -/

theorem before_eq_entry {body : List Instr} {g : Digraph} {k : Int} (hg : EdgesOf body g)
    (hentry : -1 ∈ g.before k) (hall : ∀ p ∈ g.before k, p = -1) : g.before k = [-1] := by
  have hnodup := hg.simple.nodup_before k
  generalize g.before k = above at *
  cases above with
  | nil => cases hentry
  | cons p rest =>
    obtain rfl := hall p (by simp)
    cases rest with
    | nil => rfl
    | cons q rest =>
      obtain rfl := hall q (by simp)
      simp at hnodup

/-- A slot holds an instruction of a block before block `b` that writes a register which
    instruction `k` of that block reads. -/
def FromEarlier (c d : Compilation) (b : Nat) (blk : Block) (k : Nat) (row lane : Int) : Prop :=
  ∃ (b' : Nat) (blk' : Block) (id t : Nat) (reg : Int), b' < b ∧ c.blocks[b']? = some blk' ∧
    id ∈ blk'.body ∧ blk'.defs.has reg = true ∧ ReadsAt c blk k t reg ∧
    Table.entry d.table row lane = some (some id)

/-- Instruction `n` of block `b`, which comes next in `x`, waits for an instruction from
    before the block: the one that is looked up for all registers that `n` reads. It stands
    in the slot `arrival`. There is none if `n` reads from an instruction of the block, or
    if what is looked up has no slot. -/
def Arrives (x : Compilation) (b : Int) (blk : Block) (g : Digraph) (n : Int)
    (arrival : Option (Int × Int)) : Prop :=
  ∀ ra la, arrival = some (ra, la) ↔ g.before n = [-1] ∧ ∃ id i p pl, InstrAt x blk n id i ∧
    Runs (LastUse.definition (i.inputs.map Operand.register) b) x (some p) x ∧
    Position.get x.schedule p = .ok pl ∧ pl.time = ra ∧ pl.lane = some la

theorem exists_arrives (x : Compilation) (b : Int) (blk : Block) (g : Digraph) (n : Int) :
    ∃ arrival, Arrives x b blk g n arrival := by
  by_cases hsome : ∃ ra la, g.before n = [-1] ∧ ∃ id i p pl, InstrAt x blk n id i ∧
      Runs (LastUse.definition (i.inputs.map Operand.register) b) x (some p) x ∧
      Position.get x.schedule p = .ok pl ∧ pl.time = ra ∧ pl.lane = some la
  · obtain ⟨ra, la, hfrom⟩ := hsome
    refine ⟨some (ra, la), fun ra' la' => ⟨?_, ?_⟩⟩
    · rintro ⟨⟩
      exact hfrom
    -- the instruction, what is looked up for it and its place are all determined
    obtain ⟨_, id, i, p, pl, hi, hp, hpl, rfl, hla⟩ := hfrom
    rintro ⟨_, id', i', p', pl', hi', hp', hpl', rfl, hla'⟩
    obtain ⟨rfl, rfl⟩ := hi.unique hi'
    obtain rfl := Option.some.inj (hp.unique hp').1
    obtain rfl := Except.ok.inj (hpl.symm.trans hpl')
    rw [Option.mem_unique hla hla']
  · exact ⟨none, fun ra la => ⟨nofun, fun hfrom => absurd ⟨ra, la, hfrom⟩ hsome⟩⟩

theorem awaitAll_entry {b : Int} {d d' : Compilation} {blk : Block} {lastRow n : Int}
    {above : List Int} {w : Wait} (hne : above ≠ [])
    (hall : ∀ p ∈ above, p = -1) (h : Runs (awaitAll b blk lastRow n above) d w d') :
    w.row = lastRow ∧ ∃ id i, InstrAt d blk n id i ∧
      Runs (LastUse.definition (i.inputs.map Operand.register) b) d w.source d := by
  have hrun := runs_foldlM_induct (fun done w d' => d' = d ∧ w.row = lastRow ∧ (done ≠ [] →
    ∃ id i, InstrAt d blk n id i ∧
      Runs (LastUse.definition (i.inputs.map Operand.register) b) d w.source d)) h
    ⟨rfl, rfl, fun h => absurd rfl h⟩ ?_
  · exact ⟨hrun.2.1, hrun.2.2 hne⟩
  rintro done p rest w d₁ w' e hsplit ⟨rfl, _, _⟩ hr
  rw [runs_instrAt_bind] at hr
  obtain ⟨id, i, hid, hi, hr⟩ := hr
  obtain ⟨rfl, hawaits, hentry⟩ := runs_await hr
  obtain rfl := hall p (by rw [hsplit]; simp)
  cases hawaits with
  | entry heq _ => exact ⟨rfl, rfl, fun _ => ⟨id, i, ⟨hid, hi⟩, hentry heq⟩⟩
  | later hne _ _ => exact absurd rfl hne
  | level hne _ _ => exact absurd rfl hne
  | earlier hne _ _ => exact absurd rfl hne

variable {Q : Instr → Prop} {words : Array Word} {c c₀ d e x y : Compilation} {b k id : Nat}
  {blk : Block} {g : Digraph} {lastRow maxRow lane top : Int} {order done rest : List Int}
  {r r' : Reach} {s s₀ : Slot} {a : Instr} {f : Fields} {arrival : Option (Int × Int)}

theorem Opened.inputs_kept (hc : Laid Q words c) (ho : Opened c c₀ b blk g lastRow order)
    (hd : Partly c₀ b blk g lastRow order done r d) (hall : ∀ p ∈ g.before k, p = -1) {i : Instr}
    (ha : (c.bodyOf blk)[k]? = some a) (hi : InstrAt d blk k id i) : i.inputs = a.inputs := by
  have hid := Position.get_natCast.mp hi.1
  have hindex : ∀ m, blk.body[m]? = some id → m = k := fun _ => hc.index_eq ho.block ho.basic hid
  obtain ⟨r₀, rfl, hrun⟩ := hd.run
  have hstays := (ho.induct (fun _ _ d => Stays (fun i j => j.inputs = i.inputs) id c₀ d) hd.listed
    hrun (.of_same (fun _ => rfl) rfl rfl) ?_).2
  · rw [hc.bodyOf_getElem? ho.block ho.basic, hid] at ha
    obtain ⟨j, hj, hsame⟩ :=
      hstays.instr a ((ho.same id (Array.mem_of_getElem? hid)).trans ha)
    obtain rfl := Option.mem_unique hj hi.2
    exact hsame
  · intro done m rest r₁ d r₂ d' hsplit hd hstays hr
    refine hstays.trans (ho.stays (R := fun i j => j.inputs = i.inputs) hd hsplit (fun _ => rfl)
      (fun _ => ?_) ?_ hr) fun _ _ _ h h' => h'.trans h
    · intro old new i j _ hj
      cases hj <;> rfl
    · intro m' hedge _ hm'
      obtain rfl := hindex m' hm'
      have := hall m (Digraph.mem_before.mpr hedge)
      omega

section
variable (hc : Laid Q words c) (ho : Opened c c₀ b blk g lastRow order)
  (hd : Partly c₀ b blk g lastRow order done r d) (horder : order = done ++ (k : Int) :: rest)
include hc ho hd horder

/-- The last instruction of the program does not stand before another one. -/
theorem Opened.not_forwarded (hs : Stacked words.size c r d) {source : Option Int}
    (hsource : ∀ p, source = some p → p = -1) {row : Int} (hrow : row < words.size) :
    ¬ Runs (isForwarded b row source) d true d := by
  intro h
  obtain ⟨-, p, pl, b', hp, hpl, hat, hhome, hle⟩ := runs_isForwarded h
  obtain rfl := hsource p hp
  cases hlane : pl.lane with
  | none =>
    have := hs.last_time hc hpl hlane
    omega
  | some lane =>
    rw [Position.get_last, hs.schedule_size, hc.size] at hpl
    obtain ⟨id, b₁, blk₁, k₁, hb₁, hkind₁, hk₁, hq⟩ := hd.tabled.numbered _ pl lane hpl hlane
    rw [hd.frame.blocks, ho.blocks] at hb₁
    have hlt₁ : k₁ < blk₁.body.size := lt_size hk₁
    have hkid := Array.getElem?_eq_getElem (ho.index_lt horder)
    have hstop₁ := hc.index_lt hb₁ hkind₁ hk₁
    have hstop := hc.index_lt ho.block ho.basic hkid
    have hspan₁ := hc.cut.span b₁ blk₁ hb₁ hkind₁
    have hspan := hc.cut.span b blk ho.block ho.basic
    -- the block of that instruction
    have hblock : pl.block = some (b₁ : Int) := by
      have hhomes := hs.homes (words.size - 1)
      rw [hpl, hq, (hc.holds b₁ blk₁ hb₁ hkind₁).place k₁ hlt₁] at hhomes
      exact Option.some.inj hhomes
    obtain rfl : b' = (b₁ : Int) := Option.mem_unique hhome hblock
    rcases Nat.lt_or_eq_of_le (Int.ofNat_le.mp hle) with hlt | rfl
    · have := hc.cut.disjoint hb₁ ho.block hkind₁ ho.basic hlt
      omega
    · obtain rfl := Option.mem_unique hb₁ ho.block
      rw [hq] at hpl
      have hmem := mem_done_of_standsAt ho.ready hd hlt₁ ⟨pl, hpl, rfl, hlane⟩
      have := ((ho.places.mem_done horder).mp hmem).2
      omega

theorem Opened.fromEarlier {p : Int} {pl : Place} (ha : (c.bodyOf blk)[k]? = some a)
    (hp : Runs (LastUse.definition (a.inputs.map Operand.register) b) d (some p) d)
    (hpl : Position.get d.schedule p = .ok pl) (hlane : pl.lane = some lane) :
    pl.time ≤ lastRow ∧ FromEarlier c d b blk k pl.time lane := by
  obtain ⟨b', blk', k', id', i', hlt, hb', hk', _, hwrites, rfl⟩ := hd.tabled.runs_definition hp
  rw [Position.get_natCast] at hpl
  obtain ⟨id₁, hid₁, hslot⟩ := hd.tabled.placed_slot hpl hlane
  obtain rfl := hd.tabled.unique _ _ _ hid₁ ⟨b', blk', k', hb', hwrites.basic, hk', rfl⟩
  rw [hd.frame.blocks, ho.blocks] at hb'
  obtain ⟨reg, hreg, hdefs, _⟩ := hwrites.writes
  obtain ⟨o, ho', rfl⟩ := List.mem_map.mp hreg
  obtain ⟨t, ht⟩ := List.mem_iff_getElem?.mp ho'
  refine ⟨?_, b', blk', id₁, t, _, hlt, hb', Array.mem_of_getElem? hk', hdefs,
    ⟨a, o, ha, ht, rfl⟩, hslot⟩
  rcases ho.filled hd horder hslot with hle | ⟨k₁, _, hk₁, _⟩
  · exact hle
  · have := hc.unique_block hb' ho.block hwrites.basic ho.basic (Array.mem_of_getElem? hk')
      (Array.mem_of_getElem? hk₁)
    omega

/-- An instruction in the first row of its block waits for none of the block. -/
theorem Opened.all_entry (hs : s.Found d b blk (g.before k) lastRow) (hrow : s.row ≤ lastRow + 1) :
    ∀ p ∈ g.before k, p = -1 := by
  intro p hp
  by_contra hne
  obtain ⟨reg, m, rfl, hfeeds⟩ := ho.feeds_of_mem hc horder hp hne
  obtain ⟨hlt, pl, _, hpl, _, _, hlow⟩ := ho.feeder hc hd horder hfeeds
  have := (hs.waits m hp hne _ _
    ((placeAt_iff hd.tabled (ho.block_eq hd) ho.basic hlt).mpr ⟨rfl, hpl⟩)).1
  omega

/-- What arrives stands in a row before the block, in one of the blocks before. -/
theorem Opened.arrived (ha : Arrives d b blk g k arrival) {ra la : Int}
    (h : arrival = some (ra, la)) :
    ra ≤ lastRow ∧ (∀ reg i, ¬ Feeds (c.bodyOf blk) reg i k) ∧ FromEarlier c d b blk k ra la := by
  obtain ⟨hentry, id, i, p, pl, hi, hp, hpl, rfl, hla⟩ := (ha ra la).mp h
  have hall : ∀ q ∈ g.before k, q = -1 := by simp [hentry]
  have hlt : k < (c.bodyOf blk).length := by
    rw [hc.bodyOf_length ho.block ho.basic]
    exact ho.index_lt horder
  have hbody := List.getElem?_eq_getElem hlt
  rw [ho.inputs_kept hc hd hall hbody hi] at hp
  obtain ⟨hle, hfrom⟩ := ho.fromEarlier hc hd horder hbody hp hpl hla
  refine ⟨hle, fun reg m hfeeds => ?_, hfrom⟩
  have := hall m (Digraph.mem_before.mpr (ho.edges.feeds hfeeds))
  omega

variable (hs : Stacked words.size c r d) (ha : Arrives d b blk g k arrival)
  (h : Runs (find b g lastRow maxRow k) d s d)
include hs ha h

/-- The slot that is found right behind what arrives is in its lane. -/
theorem Opened.follows :
    ∀ ra la, arrival = some (ra, la) → s.row = ra + 1 → s.lane = la := by
  intro ra la harrival hrow
  obtain ⟨hle, _, _, _, _, _, _, _, _, _, _, _, hheld⟩ := ho.arrived hc hd horder ha harrival
  have hnonneg := (Table.entry_eq_some_iff.mp hheld).1
  obtain ⟨hentry, id, i, p, pl, hi, hp, hpl, rfl, hla⟩ := (ha ra la).mp harrival
  obtain ⟨w, id', i', f', hw, _, hdec, hslot⟩ :=
    runs_find (ho.block_eq hd) (ho.edges.entryFirst k) h
  obtain ⟨hwrow, id₁, i₁, hi₁, hdef⟩ :=
    awaitAll_entry (by simp [hentry]) (by simp [hentry]) hw
  obtain ⟨rfl, rfl⟩ := hi.unique hi₁
  have hsource := (hp.unique hdef).1
  -- it belongs to a block before this one
  obtain ⟨b', blk', k', id', _, hlt, hb', hk', _, hwrites, rfl⟩ := hd.tabled.runs_definition hp
  rw [hd.frame.blocks, ho.blocks] at hb'
  have hhome := hs.homes (blk'.start.toNat + k')
  rw [Position.get_natCast.mp hpl, (hc.holds _ blk' hb' hwrites.basic).place k' (lt_size hk')] at hhome
  have hlast := ho.last
  obtain ⟨_, _, _, hforwards⟩ := slotFrom_spec (by split <;> omega) hd.tabled.lanesNonneg hslot
  have hlane := hforwards _ pl b' hsource.symm hpl (Option.some.inj hhome) (by omega) hnonneg
    (by split <;> omega) hrow
  exact Option.mem_unique hlane hla

/-- No open slot stands in a row before that of the slot that is found, unless for a
    branch. -/
theorem Opened.least (hf : FieldsAt c blk k f) (hbranch : f.isBranch = false) :
    ∀ row lane, OpenTo c d blk lastRow arrival k row lane → s.row ≤ row := by
  intro row lane hopen
  obtain ⟨f', hf', hbranch'⟩ := ho.fieldsAt_branch hd hf
  rw [hbranch] at hbranch'
  have htarget : d.target = c.target := by rw [hd.frame, ho.target]
  have ht := hs.sized
  have hfound := ho.found hd h
  obtain ⟨carried, htie, hleast⟩ := find_first (ho.block_eq hd) hf' hbranch' (htarget ▸ ht.shaped)
    hd.tabled.lanesNonneg ho.last (ho.awaited hc hd horder) h
  by_contra hlt
  refine hlt (hleast { lane, row }
    (ho.found_of_open hc hd horder ht.shaped hopen hfound.free (by omega)) ?_)
  intro p pl hp hpl hrow
  obtain ⟨hall, hbefore, ⟨first, hfirst, hforward⟩, pl', lane', hpl', hlane'⟩ := htie p hp
  obtain rfl := Except.ok.inj (hpl.symm.trans hpl')
  rcases hbefore with ⟨_, hlast⟩ | ⟨hne, id, i, hi, hdef⟩
  · -- the last instruction of the program does not stand before this one
    refine absurd hforward (ho.not_forwarded hc hd horder hs (fun p' hp' => ?_) ?_)
    · exact Option.mem_unique hp' hlast
    · have := (ht.row_lt hfound.free).1
      omega
  · obtain ⟨q, hq⟩ := List.exists_mem_of_ne_nil _ hne
    have hentry := before_eq_entry ho.edges (hall q hq ▸ hq) hall
    have harrival := (ha pl.time lane').mpr ⟨hentry, id, i, p, pl, hi, hdef, hpl, rfl, hlane'⟩
    rw [hlane', hopen.arrives pl.time lane' harrival hrow]

end
/-! ## Instructions placed first -/

/-- Instruction `j` of a block, which comes next in `x`, stands in a slot that is open to it.
    Unless it is put off, no earlier row has one. If it is, it stands behind the last use
    of the value in its way, and that happens only in a block which does not overwrite
    registers in place. -/
structure PlacedFirst (c d : Compilation) (b : Nat) (blk : Block) (g : Digraph) (top : Int)
    (r : Reach) (x : Compilation) (arrival : Option (Int × Int)) (j : Nat) (row lane : Int) :
    Prop where
  stands : StandsAt d blk j row lane
  isOpen : OpenTo c d blk top arrival j row lane
  first : (∀ floor, ¬ PutOff x b blk g top r j floor) →
    ∀ row' lane', OpenTo c d blk top arrival j row' lane' → row ≤ row'
  later : ∀ floor, PutOff x b blk g top r j floor → floor < row
  inPlace : InPlace (c.bodyOf blk) → ∀ floor, ¬ PutOff x b blk g top r j floor

/-- Block `b` is placed behind row `top`, where the blocks before it end, and all its
    instructions but its branch are placed first. -/
structure ListScheduled (c d : Compilation) (b : Nat) (blk : Block) (g : Digraph) (top : Int) :
    Prop where
  opened : ∃ done r d₀, BlockNext c done b r d₀ ∧ r.row = top
  behind : ∀ k row lane, k < blk.body.size → StandsAt d blk k row lane → top < row
  first : ∀ (j : Nat) (f : Fields), FieldsAt c blk j f → f.isNop = false → f.isBranch = false →
    ∃ r x arrival row lane, ComesNext c b j blk g top r x ∧ Arrives x b blk g j arrival ∧
      PlacedFirst c d b blk g top r x arrival j row lane

theorem PlacedFirst.congr {row : Int} (h : PlacedFirst c d b blk g top r x arrival k row lane)
    (hsame : ∀ k', k' ≤ k → placeIn e blk k' = placeIn d blk k') :
    PlacedFirst c e b blk g top r x arrival k row lane := by
  refine ⟨?_, h.isOpen.congr fun k hk => hsame k (by omega), ?_, h.later, h.inPlace⟩
  · exact (standsAt_congr (hsame k (Nat.le_refl k))).mpr h.stands
  · intro hnever row' lane' hopen
    exact h.first hnever row' lane' (hopen.congr fun k hk => (hsame k (by omega)).symm)

theorem ListScheduled.congr (h : ListScheduled c d b blk g top)
    (hsame : ∀ k, k < blk.body.size → placeIn e blk k = placeIn d blk k) :
    ListScheduled c e b blk g top := by
  refine ⟨h.opened, ?_, ?_⟩
  · intro k row lane hk hs
    exact h.behind k row lane hk ((standsAt_congr (hsame k hk)).mp hs)
  · intro j f hf hnop hbranch
    obtain ⟨r, x, arrival, row, lane, hnext, harrives, hplaced⟩ := h.first j f hf hnop hbranch
    have hj := hf.index_lt
    exact ⟨r, x, arrival, row, lane, hnext, harrives, hplaced.congr fun k hk => hsame k (by omega)⟩

/-- A slot that is not put off is the one that was found. -/
theorem Cleared.slot (h : Cleared x b blk g top r k s₀ s y)
    (hnever : ∀ floor, ¬ PutOff x b blk g top r k floor) : s = s₀ := by
  cases h with
  | kept hs _ _ => exact hs
  | renamed _ hs _ => exact hs
  | later hv hfail hfloor _ _ _ _ => exact absurd ⟨s₀, _, _, _, _, hv, hfail, hfloor⟩ (hnever _)

/-- What is put off stands behind the last use of the value in its way. -/
theorem Cleared.behind (h : Cleared x b blk g top r k s₀ s y) {floor : Int}
    (hoff : PutOff x b blk g top r k floor) : floor < s.row := by
  obtain ⟨s', i, v, _, _, hv, hfail, hfloor⟩ := hoff
  cases h with
  | kept _ _ hclear => exact absurd hv (hclear s' i v)
  | renamed hv' _ hrename =>
    obtain ⟨rfl, rfl, rfl⟩ := hv.unique hv'
    exact absurd hfail hrename.not_fails
  | later hv' _ hfloor' _ hafter _ _ =>
    obtain ⟨rfl, rfl, rfl⟩ := hv.unique hv'
    obtain rfl := Option.mem_unique hfloor hfloor'
    exact hafter

section
variable (hc : Laid Q words c) (ho : Opened c c₀ b blk g lastRow order)
  (hd : Partly c₀ b blk g lastRow order done r d) (horder : order = done ++ (k : Int) :: rest)
include hc ho hd horder

theorem Opened.placedFirst (hs : Stacked words.size c r d)
    (hclear : InPlace (c.bodyOf blk) → ∀ s i v, ¬ InTheWay d b blk g lastRow r k s i v)
    (hf : FieldsAt c blk k f) (hbranch : f.isBranch = false)
    (h : Runs (placeInstr b blk g lastRow r k) d r' e) :
    ∃ arrival row lane, Arrives d b blk g k arrival ∧
      PlacedFirst c e b blk g lastRow r d arrival k row lane := by
  have ht := hs.sized.shaped
  obtain ⟨_, e', s₀, s, hin⟩ := ho.inserted hd horder h
  have hfind := hin.found
  have hafter₀ := (ho.found hd hfind).after
  have hfound := hin.renamed.found_iff.mp hin.slot
  obtain ⟨_, _, _, _, hcleared, _⟩ := cleared_of_placeOutput hd.tabled (ho.block_eq hd) ho.basic
    ho.last (ho.edges.entryFirst k) hfind hin.output
  obtain ⟨arrival, ha⟩ := exists_arrives d b blk g k
  have hplace : ∀ k', k' < k → placeIn e blk k' = placeIn d blk k' :=
    fun _ hlt => hin.placeIn_of_ne hlt.ne
  refine ⟨arrival, s.row, s.lane, ha, ho.stands hd horder hin, ?_, ?_,
    fun floor => hcleared.behind, ?_⟩
  · refine (ho.open_of_found hc hd horder ht hfound ?_).congr hplace
    rcases hin.later with rfl | hlater
    · exact ho.follows hc hd horder hs ha hfind
    · -- what arrives stands before the block, so a later row is not right after it
      intro ra la harrival heq
      have := (ho.arrived hc hd horder ha harrival).1
      omega
  · intro hnever row' lane' hopen
    obtain rfl := hcleared.slot hnever
    exact ho.least hc hd horder hs ha hfind hf hbranch row' lane'
      (hopen.congr fun k' hk' => (hplace k' hk').symm)
  · rintro hplain floor ⟨s, i, v, _, _, hv, _⟩
    exact hclear hplain s i v hv

end

theorem Entered.listScheduled (hc : Laid Q words c) (h : Entered words.size c c₀ b blk g order r)
    (hnext : NextUses c blk) (hrun : Runs (order.foldlM (placeInstr b blk g r.row) r) c₀ r' e) :
    ListScheduled c e b blk g r.row := by
  have ho := h.opened
  obtain ⟨rs, x, hx⟩ := ho.exists_nextIn hrun
  obtain ⟨hpartly, _⟩ := ho.rising hc h.stacked (List.prefix_refl _) hrun
  refine ⟨h.next, ?_, ?_⟩
  · intro k row lane hk hs
    exact (rows_of_standsAt ho.ready hpartly hk hs).1
  intro j f hf hnop hbranch
  obtain ⟨done, rest, _, _, _, _, hj⟩ := ho.reached hc h.stacked hrun (ho.lists.mpr ⟨f, hf, hnop⟩)
  obtain ⟨rfl, rfl⟩ := (hx j done rest hj.split).unique hj.path
  have hclear := fun hin => ho.inPlace_clear hc hx h.foreign h.ends hnext hin hj.split
  obtain ⟨arrival, row, lane, harrives, hplaced⟩ :=
    ho.placedFirst hc hj.partly hj.split hj.stacked hclear hf hbranch hj.run
  -- what comes later in the block does not matter to it
  exact ⟨rs j, x j, arrival, row, lane, hj.next h.each, harrives, hplaced.congr fun _ => hj.place⟩

theorem listScheduled_of_placeAll (hc : Laid Q words c)
    (hnext : ∀ (b : Nat) (blk : Block), c.blocks[b]? = some blk → blk.kind = .basic →
      NextUses c blk)
    (hempty : NothingPlaced c) (ht : Table.Sized words.size c.target.lanes c.table) {u : Unit}
    (h : Runs placeAll c u d) (hb : c.blocks[b]? = some blk) (hkind : blk.kind = .basic) :
    ∃ g top, ListScheduled c d b blk g top := by
  refine forall_entered_of_placeAll (P := fun d b blk => ∃ g top, ListScheduled c d b blk g top) hc
    hempty ht ?_ ?_ h hb hkind
  · intro b blk g order r r' c₀ e hin hr
    exact ⟨g, r.row, hin.listScheduled hc (hnext b blk hin.opened.block hin.opened.basic) hr⟩
  · rintro d e b blk hplaces _ _ ⟨g, top, hlist⟩
    exact ⟨g, top, hlist.congr hplaces⟩

end Schedule
end BpfLanes
