import BpfLanes.Proofs.BlockPlacement

/-! # Placing a program

Blocks are placed one after another, each in rows behind those of the blocks before
it. After each block, all blocks that were placed are still as they were left, and
those that were not are untouched.
-/

namespace BpfLanes

open Compilation BpfLanes.Flow

/-! ## Blocks as they were parsed -/

/-- Instruction `k` of a block does something. -/
def Active (c : Compilation) (blk : Block) (k : Nat) : Prop :=
  ∃ f, Schedule.FieldsAt c blk k f ∧ f.isNop = false

theorem Fields.inputs_of_isNop {f : Fields} (h : f.isNop = true) : f.inputs = [] := by
  have hop : f.opcode = Opcode.nop := by simpa [Fields.isNop] using h
  unfold Fields.inputs Fields.isExit
  rw [hop, if_neg (by decide), if_neg (by decide), if_neg (by decide), if_neg (by decide)]

variable {words : Array Word} {p : Nat} {i : Instr} {f : Fields}

theorem Instr.StandsFor.not_nop_of_writes (h : i.StandsFor words p)
    (hf : Fields.decode i.word = .ok f) {r : Int} (hw : i.writes r = true) : f.isNop = false := by
  obtain ⟨f', hf', _, hout⟩ := h.operands
  rw [hf] at hf'
  cases hf'
  cases hnop : f.isNop with
  | false => rfl
  | true =>
    rw [hnop, if_pos rfl, Option.map_eq_none_iff] at hout
    simp [Instr.writes, hout] at hw

theorem Instr.StandsFor.not_nop_of_reads (h : i.StandsFor words p)
    (hf : Fields.decode i.word = .ok f) {r : Int} (hr : i.reads r = true) : f.isNop = false := by
  obtain ⟨f', hf', hin, _⟩ := h.operands
  rw [hf] at hf'
  cases hf'
  cases hnop : f.isNop with
  | false => rfl
  | true =>
    rw [Fields.inputs_of_isNop hnop, List.map_eq_nil_iff] at hin
    simp [Instr.reads, hin] at hr

section
variable {Q : Instr → Prop} {c : Compilation} {b : Nat} {blk : Block}
variable (h : Laid Q words c) (hb : c.blocks[b]? = some blk)
include h hb

theorem Flow.Laid.branchLast (hkind : blk.kind = .basic) : Schedule.BranchLast c blk := by
  intro n f hlow hhigh hf hbranch
  obtain ⟨k, rfl⟩ := Int.eq_ofNat_of_zero_le hlow
  have hk : k < blk.body.size := by omega
  obtain ⟨id, i, f', hid, hi, hstands, hf'⟩ := h.standsFor_index hb hkind hk
  have heq : f = f' := hf.unique ⟨id, i, ⟨Position.get_natCast.mpr hid, hi⟩, hf'⟩
  subst heq
  have hsize := (h.holds b blk hb hkind).size
  have hspan := h.cut.span b blk hb hkind
  by_cases hlast : k + 1 = blk.body.size
  · omega
  · have hplain := h.cut.branch b blk _ i.word f hb hkind (by omega)
      (by unfold Block.stop; omega) hstands.word hf'
    rw [hplain] at hbranch
    cases hbranch

theorem Flow.Laid.unique_block {b' : Nat} {blk' : Block} {id : Nat}
    (hb' : c.blocks[b']? = some blk') (hkind : blk.kind = .basic) (hkind' : blk'.kind = .basic)
    (hid : id ∈ blk.body) (hid' : id ∈ blk'.body) : b = b' := by
  obtain ⟨k, hk⟩ := Array.mem_iff_getElem?.mp hid
  obtain ⟨k', hk'⟩ := Array.mem_iff_getElem?.mp hid'
  obtain ⟨i, hi, hstands, _⟩ := (h.holds b blk hb hkind).instr k id hk
  obtain ⟨i', hi', hstands', _⟩ := (h.holds b' blk' hb' hkind').instr k' id hk'
  rw [hi] at hi'
  cases hi'
  have hpos := hstands.position.symm.trans hstands'.position
  have heq : blk.start.toNat + k = blk'.start.toNat + k' := by
    have := Option.some.inj hpos
    omega
  exact (h.unique_index hb hkind hk hb' hkind' hk' heq).1

theorem Flow.Laid.active_of_feeds (hkind : blk.kind = .basic) {r : Int} {i j : Nat}
    (hf : Dependence.Feeds (c.bodyOf blk) r i j) :
    j < blk.body.size ∧ Active c blk i ∧ Active c blk j := by
  have hactive : ∀ k a, (c.bodyOf blk)[k]? = some a →
      (a.writes r = true ∨ a.reads r = true) → k < blk.body.size ∧ Active c blk k := by
    intro k a ha hor
    rw [h.bodyOf_getElem? hb hkind] at ha
    obtain ⟨id, hid, ha⟩ := Option.bind_eq_some_iff.mp ha
    have hk : k < blk.body.size := lt_size hid
    obtain ⟨id', a', f, hid', ha', hstands, hdec⟩ := h.standsFor_index hb hkind hk
    rw [hid] at hid'
    cases hid'
    rw [ha] at ha'
    cases ha'
    refine ⟨hk, f, ⟨id, a, ⟨Position.get_natCast.mpr hid, ha⟩, hdec⟩, ?_⟩
    rcases hor with hw | hr
    · exact hstands.not_nop_of_writes hdec hw
    · exact hstands.not_nop_of_reads hdec hr
  obtain ⟨a, ha, hw⟩ := hf.writer
  obtain ⟨a', ha', hr⟩ := hf.reader
  obtain ⟨hj, hactj⟩ := hactive j a' ha' (.inr hr)
  exact ⟨hj, (hactive i a ha (.inl hw)).2, hactj⟩

end

namespace Schedule

/-! ## Blocks that were placed -/

/-- Instruction `k` of a block stands in a row and a lane. -/
def StandsAt (c : Compilation) (blk : Block) (k : Nat) (row lane : Int) : Prop :=
  ∃ pl, placeIn c blk k = some pl ∧ pl.time = row ∧ pl.lane = some lane

instance (c : Compilation) (blk : Block) (k : Nat) (row lane : Int) :
    Decidable (StandsAt c blk k row lane) :=
  decidable_of_iff (∃ pl, pl ∈ placeIn c blk k ∧ pl.time = row ∧ pl.lane = some lane) Iff.rfl

theorem StandsAt.unique {c : Compilation} {blk : Block} {k : Nat} {row row' lane lane' : Int}
    (h : StandsAt c blk k row lane) (h' : StandsAt c blk k row' lane') :
    row = row' ∧ lane = lane' := by
  obtain ⟨pl, hpl, rfl, hlane⟩ := h
  obtain ⟨pl', hpl', rfl, hlane'⟩ := h'
  rw [hpl] at hpl'
  cases hpl'
  rw [hlane] at hlane'
  exact ⟨rfl, Option.some.inj hlane'⟩

theorem standsAt_congr {c d : Compilation} {blk : Block} {k : Nat} {row lane : Int}
    (h : placeIn d blk k = placeIn c blk k) :
    StandsAt d blk k row lane ↔ StandsAt c blk k row lane := by
  unfold StandsAt
  rw [h]

/-- A block of `c` was placed in `d`: exactly the instructions that do something, each
    behind those it reads from, and in their lane if it comes right after them. -/
structure BlockDone (c : Compilation) (blk : Block) (d : Compilation) : Prop where
  placed : ∀ k, k < blk.body.size → Active c blk k → ∃ row lane, StandsAt d blk k row lane
  active : ∀ k row lane, k < blk.body.size → StandsAt d blk k row lane → Active c blk k
  waits : ∀ {r : Int} {i j : Nat} {row row' lane lane' : Int},
    Dependence.Feeds (c.bodyOf blk) r i j → StandsAt d blk i row lane →
    StandsAt d blk j row' lane' → row < row' ∧ (row' = row + 1 → lane' = lane)

/-- All rows of one block come before all rows of another. -/
def RowsBefore (d : Compilation) (blk blk' : Block) : Prop :=
  ∃ last, (∀ k row lane, k < blk.body.size → StandsAt d blk k row lane → row ≤ last) ∧
    ∀ k row lane, k < blk'.body.size → StandsAt d blk' k row lane → last < row

/-- An instruction of one of the blocks `bs`. -/
def BodyOfAny (c : Compilation) (bs : List Int) (id : Nat) : Prop :=
  ∃ (b : Nat) (blk : Block), (b : Int) ∈ bs ∧ c.blocks[b]? = some blk ∧ blk.kind = .basic ∧
    id ∈ blk.body

/-- The blocks in `done` of `c` were placed in `d`, up to the row that `r` reaches. -/
structure Progress (c : Compilation) (done : List Int) (r : Reach) (d : Compilation) : Prop where
  tabled : Tabled d
  frame : OnlyPlaced c d
  store : SameOperations (BodyOfAny c done) c.store d.store
  row : -1 ≤ r.row
  waiting : ∀ (b : Nat) (blk : Block), c.blocks[b]? = some blk → blk.kind = .basic →
    (b : Int) ∉ done → ∀ k, k < blk.body.size → placeIn d blk k = placeIn c blk k
  finished : ∀ (b : Nat) (blk : Block), (b : Int) ∈ done → c.blocks[b]? = some blk →
    blk.kind = .basic → BlockDone c blk d
  bound : ∀ (b : Nat) (blk : Block) (k : Nat) (row lane : Int), c.blocks[b]? = some blk →
    blk.kind = .basic → k < blk.body.size → StandsAt d blk k row lane → row ≤ r.row
  apart : ∀ (b b' : Nat) (blk blk' : Block), b ≠ b' → (b : Int) ∈ done → (b' : Int) ∈ done →
    c.blocks[b]? = some blk → c.blocks[b']? = some blk' → blk.kind = .basic →
    blk'.kind = .basic → RowsBefore d blk blk' ∨ RowsBefore d blk' blk

variable {n row lane : Int}
variable {Q : Instr → Prop} {c d e : Compilation} {b : Nat} {blk : Block} {g : Digraph}
  {order done : List Int} {lastRow : Int} {r r' : Reach}

/-- The instructions of a block are the same in two states. -/
def SameBody (c d : Compilation) (blk : Block) : Prop :=
  ∀ id ∈ blk.body, d.store[id]? = c.store[id]?

theorem SameBody.bodyOf (h : SameBody c d blk) : d.bodyOf blk = c.bodyOf blk := by
  refine List.filterMap_congr ?_
  intro id hid
  exact h id (Array.mem_toList_iff.mp hid)

theorem SameBody.fieldsAt (h : SameBody c d blk) :
    FieldsAt d blk n f ↔ FieldsAt c blk n f := by
  have hsame : ∀ id, Position.get blk.body n = .ok id → d.store[id]? = c.store[id]? := by
    intro id hid
    obtain ⟨k, _, hk⟩ := Position.get_eq_ok_iff.mp hid
    exact h id (Array.mem_of_getElem? hk)
  constructor
  · rintro ⟨id, i, ⟨hid, hi⟩, hf⟩
    exact ⟨id, i, ⟨hid, (hsame id hid).symm.trans hi⟩, hf⟩
  · rintro ⟨id, i, ⟨hid, hi⟩, hf⟩
    exact ⟨id, i, ⟨hid, (hsame id hid).trans hi⟩, hf⟩

theorem FieldsAt.renamed {touched : Nat → Prop} {f : Fields} (hf : FieldsAt c blk n f)
    (h : SameOperations touched c.store d.store) :
    ∃ f', FieldsAt d blk n f' ∧ f'.opcode = f.opcode := by
  obtain ⟨id, i, ⟨hid, hi⟩, hdec⟩ := hf
  obtain ⟨j, hj, hop⟩ := h.operation id i hi
  obtain ⟨f', hf', hopcode, _⟩ := hop.fields f hdec
  exact ⟨f', ⟨id, j, ⟨hid, hj⟩, hf'⟩, hopcode⟩

theorem PlacesAll.mem_iff_active (h : PlacesAll d blk g order) (hsame : SameBody c d blk) {k : Nat} :
    (k : Int) ∈ order ↔ Active c blk k := by
  constructor
  · intro hk
    obtain ⟨_, _, f, hf, hnop⟩ := (h.mem k).mp hk
    exact ⟨f, hsame.fieldsAt.mp hf, hnop⟩
  · rintro ⟨f, hf, hnop⟩
    have := hf.index_lt
    exact (h.mem k).mpr ⟨by omega, by omega, f, hsame.fieldsAt.mpr hf, hnop⟩

theorem standsAt_of_placed (h : Partly c b blk g lastRow order done r d) {k : Nat}
    (hk : (k : Int) ∈ done) :
    ∃ row lane, StandsAt d blk k row lane ∧ lastRow < row ∧ row ≤ r.row := by
  obtain ⟨pl, lane, hpl, hlane, _, hlow, hhigh⟩ := h.placed k hk
  exact ⟨pl.time, lane, ⟨pl, hpl, rfl, hlane⟩, hlow, hhigh⟩

section
variable {k : Nat} (hready : Ready d b blk) (h : Partly d b blk g lastRow order done r e)
  (hk : k < blk.body.size)
include hready h hk

theorem Partly.no_lane (hmem : (k : Int) ∉ done) {pl : Place}
    (hpl : placeIn e blk k = some pl) : pl.lane = none := by
  obtain ⟨pl₀, hpl₀, _, hlane⟩ := hready.unplaced k hk
  have hsame : placeIn e blk k = placeIn d blk k := by
    refine h.others _ fun k' hk' heq => hmem ?_
    obtain rfl : k = k' := by omega
    exact hk'
  rw [hsame, hpl₀] at hpl
  cases hpl
  exact hlane

theorem mem_done_of_standsAt (hs : StandsAt e blk k row lane) : (k : Int) ∈ done := by
  by_cases hmem : (k : Int) ∈ done
  · exact hmem
  · obtain ⟨pl, hpl, _, hlane⟩ := hs
    rw [h.no_lane hready hk hmem hpl] at hlane
    cases hlane

theorem rows_of_standsAt (hs : StandsAt e blk k row lane) :
    lastRow < row ∧ row ≤ r.row := by
  obtain ⟨row', lane', hs', hrows⟩ :=
    standsAt_of_placed h (mem_done_of_standsAt hready h hk hs)
  rwa [(hs.unique hs').1]

end

/-- A block of `c` that is placed from `c₀` on, behind row `lastRow`: its instructions are
    as they were parsed, and nothing stands behind that row. -/
structure Opened (c c₀ : Compilation) (b : Nat) (blk : Block) (g : Digraph) (lastRow : Int)
    (order : List Int) : Prop where
  block : c.blocks[b]? = some blk
  basic : blk.kind = .basic
  ready : Ready c₀ b blk
  blocks : c₀.blocks = c.blocks
  target : c₀.target = c.target
  same : SameBody c c₀ blk
  graph : Dependence.graph blk.liveIn blk.liveOut (c.bodyOf blk) = .ok g
  places : PlacesAll c₀ blk g order
  last : -1 ≤ lastRow
  behind : ∀ row lane id, Table.entry c₀.table row lane = some (some id) → row ≤ lastRow

/-- While the blocks of `c` are placed, instruction `n` of block `b` comes next in the state
    `x`. The blocks before it reach up to row `lastRow`, and the rows in use reach as far
    as `r`. -/
def ComesNext (c : Compilation) (b n : Int) (blk : Block) (g : Digraph) (lastRow : Int) (r : Reach)
    (x : Compilation) : Prop :=
  ∃ (blocks done order earlier : List Int) (r₀ : Reach) (d d' : Compilation),
    Runs blockOrder c blocks c ∧ done ++ [b] <+: blocks ∧
    Runs (done.foldlM placeNext { row := -1, position := -1 }) c r₀ d ∧
    Position.get d.blocks b = .ok blk ∧
    Dependence.graph blk.liveIn blk.liveOut (d.bodyOf blk) = .ok g ∧
    d' = { d with drawings := d'.drawings } ∧ Runs (placementOrder blk g) d' order d' ∧
    earlier ++ [n] <+: order ∧ Runs (earlier.foldlM (placeInstr b blk g r₀.row) r₀) d' r x ∧
    lastRow = r₀.row

/-- Block `b` of `c` is placed next in the state `d`, after the blocks `done`. -/
structure BlockNext (c : Compilation) (done : List Int) (b : Int) (r : Reach) (d : Compilation) :
    Prop where
  listed : ∃ blocks, Runs blockOrder c blocks c ∧ done ++ [b] <+: blocks
  run : Runs (done.foldlM placeNext { row := -1, position := -1 }) c r d

/-- The instructions of a block that is placed from `c₀` on come next one after another. -/
def EachNext (c c₀ : Compilation) (b : Int) (blk : Block) (g : Digraph) (order : List Int)
    (r : Reach) : Prop :=
  ∀ (earlier : List Int) (n : Int) (r' : Reach) (x : Compilation), earlier ++ [n] <+: order →
    Runs (earlier.foldlM (placeInstr b blk g r.row) r) c₀ r' x → ComesNext c b n blk g r.row r' x

theorem Opened.edges {c₀ : Compilation} (ho : Opened c c₀ b blk g lastRow order) :
    Dependence.EdgesOf (c.bodyOf blk) g :=
  Dependence.graph_spec ho.graph

theorem Opened.induct {c₀ : Compilation}
    (ho : Opened c c₀ b blk g r.row order)
    (P : List Int → Reach → Compilation → Prop) (hdone : done <+: order)
    (h : Runs (done.foldlM (placeInstr b blk g r.row) r) c₀ r' e) (hstart : P [] r c₀)
    (hstep : ∀ (done : List Int) (k : Nat) (rest : List Int) (r₁ : Reach) (d : Compilation)
      (r₂ : Reach) (d' : Compilation), order = done ++ (k : Int) :: rest →
      Partly c₀ b blk g r.row order done r₁ d → P done r₁ d →
      Runs (placeInstr b blk g r.row r₁ k) d r₂ d' → P (done ++ [(k : Int)]) r₂ d') :
    Partly c₀ b blk g r.row order done r' e ∧ P done r' e := by
  obtain ⟨after, hafter⟩ := hdone
  apply runs_foldlM_induct
    (fun done r₁ d => Partly c₀ b blk g r.row order done r₁ d ∧ P done r₁ d) h
    ⟨Partly.start ho.ready.tabled, hstart⟩
  rintro done n rest r₁ d r₂ d' hsplit ⟨hd, hP⟩ hr
  have hlisted : order = done ++ n :: (rest ++ after) := by
    rw [← hafter, hsplit]
    simp
  obtain ⟨k, rfl, _⟩ := ho.places.next hlisted
  exact ⟨hd.step ho.ready ho.edges ho.places ho.last hlisted hr,
    hstep done k _ r₁ d r₂ d' hlisted hd hP hr⟩

theorem blockDone_of_partly (hc : Laid Q words c) (ho : Opened c d b blk g lastRow order)
    (h : Partly d b blk g lastRow order order r e) : BlockDone c blk e := by
  have hlists : ∀ k : Nat, (k : Int) ∈ order ↔ Active c blk k :=
    fun _ => ho.places.mem_iff_active ho.same
  refine ⟨?_, ?_, ?_⟩
  · intro k _ hact
    obtain ⟨row, lane, hs, _⟩ := standsAt_of_placed h ((hlists k).mpr hact)
    exact ⟨row, lane, hs⟩
  · intro k row lane hk hs
    exact (hlists k).mp (mem_done_of_standsAt ho.ready h hk hs)
  · intro reg i j row row' lane lane' hfeeds hi hj
    obtain ⟨_, hacti, hactj⟩ := hc.active_of_feeds ho.block ho.basic hfeeds
    obtain ⟨pl, pl', hpl, hpl', hbehind, hlane⟩ := h.waits j i ((hlists j).mpr hactj)
      (Digraph.mem_before.mpr (ho.edges.feeds hfeeds)) ((hlists i).mpr hacti)
    obtain ⟨pi, hpi, rfl, hlanei⟩ := hi
    obtain ⟨pj, hpj, rfl, hlanej⟩ := hj
    rw [hpl] at hpi
    cases hpi
    rw [hpl'] at hpj
    cases hpj
    refine ⟨hbehind, ?_⟩
    intro heq
    have := hlane heq
    rw [hlanei, hlanej] at this
    exact Option.some.inj this

/-! ## One more block -/

theorem BlockDone.congr (hc : Laid Q words c) (hb : c.blocks[b]? = some blk)
    (hkind : blk.kind = .basic) (hsame : ∀ k, k < blk.body.size → placeIn e blk k = placeIn d blk k)
    (h : BlockDone c blk d) : BlockDone c blk e := by
  refine ⟨?_, ?_, ?_⟩
  · intro k hk hact
    obtain ⟨row, lane, hs⟩ := h.placed k hk hact
    exact ⟨row, lane, (standsAt_congr (hsame k hk)).mpr hs⟩
  · intro k row lane hk hs
    exact h.active k row lane hk ((standsAt_congr (hsame k hk)).mp hs)
  · intro reg i j row row' lane lane' hfeeds hi hj
    obtain ⟨hj', _⟩ := hc.active_of_feeds hb hkind hfeeds
    have hlt := hfeeds.lt
    exact h.waits hfeeds ((standsAt_congr (hsame i (by omega))).mp hi)
      ((standsAt_congr (hsame j hj')).mp hj)

theorem RowsBefore.congr {blk' : Block}
    (hsame : ∀ k, k < blk.body.size → placeIn e blk k = placeIn d blk k)
    (hsame' : ∀ k, k < blk'.body.size → placeIn e blk' k = placeIn d blk' k)
    (h : RowsBefore d blk blk') : RowsBefore e blk blk' := by
  obtain ⟨last, hlow, hhigh⟩ := h
  refine ⟨last, ?_, ?_⟩
  · intro k row lane hk hs
    exact hlow k row lane hk ((standsAt_congr (hsame k hk)).mp hs)
  · intro k row lane hk hs
    exact hhigh k row lane hk ((standsAt_congr (hsame' k hk)).mp hs)

theorem placeIn_other {b' : Nat} {blk' : Block} (hc : Laid Q words c)
    (ho : Opened c d b blk g lastRow order) (hb' : c.blocks[b']? = some blk')
    (hkind' : blk'.kind = .basic) (hne : b' ≠ b) (hsub : done ⊆ order)
    (h : Partly d b blk g lastRow order done r e) {k : Nat} (hk : k < blk'.body.size) :
    placeIn e blk' k = placeIn d blk' k := by
  refine h.others _ ?_
  intro k' hk' heq
  obtain ⟨_, hk'', _⟩ := (ho.places.mem k').mp (hsub hk')
  have hid' := Array.getElem?_eq_getElem hk
  have hlt : k' < blk.body.size := by omega
  have hid := Array.getElem?_eq_getElem hlt
  exact hne (hc.unique_index hb' hkind' hid' ho.block ho.basic hid heq).1

theorem Progress.grow (hc : Laid Q words c) (hd : Progress c done r d)
    (ho : Opened c d b blk g r.row order) {r₁ : Reach}
    (h : Partly d b blk g r.row order order r₁ e) (hle : r₁.row ≤ r'.row) :
    Progress c (done ++ [(b : Int)]) r' e := by
  have hb := ho.block
  have hrow := h.row
  have hpos := hd.row
  have hother : ∀ (b' : Nat) (blk' : Block), c.blocks[b']? = some blk' → blk'.kind = .basic →
      b' ≠ b → ∀ k, k < blk'.body.size → placeIn e blk' k = placeIn d blk' k := by
    intro b' blk' hb' hkind' hne k hk
    exact placeIn_other hc ho hb' hkind' hne (List.Subset.refl _) h hk
  have hself : ∀ k row lane, k < blk.body.size → StandsAt e blk k row lane →
      r.row < row ∧ row ≤ r₁.row := fun _ _ _ => rows_of_standsAt ho.ready h
  -- blocks that were placed before end where the new one starts
  have hbefore : ∀ (b' : Nat) (blk' : Block), c.blocks[b']? = some blk' → blk'.kind = .basic →
      b' ≠ b → RowsBefore e blk' blk := by
    intro b' blk' hb' hkind' hne
    refine ⟨r.row, ?_, ?_⟩
    · intro k row lane hk hs
      exact hd.bound b' blk' k row lane hb' hkind' hk
        ((standsAt_congr (hother b' blk' hb' hkind' hne k hk)).mp hs)
    · intro k row lane hk hs
      exact (hself k row lane hk hs).1
  have hold : ∀ b' : Nat, (b' : Int) ∈ done ++ [(b : Int)] → b' ≠ b → (b' : Int) ∈ done :=
    fun _ hmem => (mem_snoc.mp hmem).resolve_right
  refine
    { tabled := h.tabled
      frame := hd.frame.trans h.frame
      store := ?_
      row := by omega
      waiting := ?_
      finished := ?_
      bound := ?_
      apart := ?_ }
  · refine (hd.store.mono ?_).trans (h.store.mono ?_)
    · rintro id ⟨b', blk', hmem, hrest⟩
      exact ⟨b', blk', List.mem_append_left _ hmem, hrest⟩
    · intro id hid
      exact ⟨b, blk, by simp, hb, ho.basic, hid⟩
  · intro b' blk' hb' hkind' hmem k hk
    have hne : b' ≠ b := by
      rintro rfl
      exact hmem (by simp)
    rw [hother b' blk' hb' hkind' hne k hk]
    exact hd.waiting b' blk' hb' hkind' (fun h => hmem (List.mem_append_left _ h)) k hk
  · intro b' blk' hmem hb' hkind'
    by_cases hne : b' = b
    · subst hne
      rw [hb] at hb'
      cases hb'
      exact blockDone_of_partly hc ho h
    · exact (hd.finished b' blk' (hold b' hmem hne) hb' hkind').congr hc hb' hkind'
        (hother b' blk' hb' hkind' hne)
  · intro b' blk' k row lane hb' hkind' hk hs
    by_cases hne : b' = b
    · subst hne
      rw [hb] at hb'
      cases hb'
      have := (hself k row lane hk hs).2
      omega
    · have := hd.bound b' blk' k row lane hb' hkind' hk
        ((standsAt_congr (hother b' blk' hb' hkind' hne k hk)).mp hs)
      omega
  · intro b₁ b₂ blk₁ blk₂ hne hmem₁ hmem₂ hb₁ hb₂ hkind₁ hkind₂
    by_cases hb₁' : b₁ = b
    · subst hb₁'
      rw [hb] at hb₁
      cases hb₁
      exact .inr (hbefore b₂ blk₂ hb₂ hkind₂ (Ne.symm hne))
    · by_cases hb₂' : b₂ = b
      · subst hb₂'
        rw [hb] at hb₂
        cases hb₂
        exact .inl (hbefore b₁ blk₁ hb₁ hkind₁ hne)
      · have hsame₁ := hother b₁ blk₁ hb₁ hkind₁ hb₁'
        have hsame₂ := hother b₂ blk₂ hb₂ hkind₂ hb₂'
        rcases hd.apart b₁ b₂ blk₁ blk₂ hne (hold b₁ hmem₁ hb₁') (hold b₂ hmem₂ hb₂') hb₁ hb₂
          hkind₁ hkind₂ with hbefore | hbefore
        · exact .inl (hbefore.congr hsame₁ hsame₂)
        · exact .inr (hbefore.congr hsame₂ hsame₁)

theorem Progress.setReports (hd : Progress c done r d) (ranges : LiveRanges) (printed : String)
    (drawings : Array Drawing) : Progress c done r { d with ranges, printed, drawings } where
  tabled := ⟨hd.tabled.instr, hd.tabled.unique, hd.tabled.slot, hd.tabled.numbered⟩
  frame := hd.frame.trans rfl
  store := hd.store
  row := hd.row
  waiting := hd.waiting
  finished := fun b blk hmem hb hkind =>
    have hdone := hd.finished b blk hmem hb hkind
    ⟨hdone.placed, hdone.active, hdone.waits⟩
  bound := hd.bound
  apart := hd.apart

theorem runs_placeNext (h : Runs (placeNext r n) d r' e) :
    ∃ blk g d' order r₁ e₁ ranges, Position.get d.blocks n = .ok blk ∧
      Dependence.graph blk.liveIn blk.liveOut (d.bodyOf blk) = .ok g ∧
      d' = { d with drawings := d'.drawings } ∧ Runs (placementOrder blk g) d' order d' ∧
      Runs (order.foldlM (placeInstr n blk g r.row) r) d' r₁ e₁ ∧
      r'.row = (if r.row < r₁.row then r₁.row else r₁.row + 1) ∧
      e₁.ranges.leaveBlock blk.stop = .ok ranges ∧ e = { e₁ with ranges } := by
  unfold placeNext at h
  rw [runs_block_bind] at h
  obtain ⟨blk, hblk, h⟩ := h
  obtain ⟨⟨r₂, g⟩, e₁, hplace, h⟩ := runs_bind.mp h
  obtain ⟨blk', d', order, r₁, hblk', hg, hd', horder, hrun, hrow⟩ := runs_placeBlock hplace
  rw [hblk] at hblk'
  cases hblk'
  dsimp only at h
  rw [runs_get_bind, runs_lift_bind] at h
  obtain ⟨ranges, hranges, h⟩ := h
  rw [runs_modify_bind] at h
  obtain ⟨rfl, rfl⟩ := runs_pure.mp h
  exact ⟨blk, g, d', order, r₁, e₁, ranges, hblk, hg, hd', horder, hrun, hrow, hranges, rfl⟩

section
variable (hc : Laid Q words c) (hd : Progress c done r d) (hb : c.blocks[b]? = some blk)
  (hkind : blk.kind = .basic) (hnew : (b : Int) ∉ done)
include hc hd hb hkind hnew

theorem Progress.sameBody : SameBody c d blk := by
  intro id hid
  refine hd.store.untouched id ?_
  rintro ⟨b', blk', hmem, hb', hkind', hid'⟩
  obtain rfl := hc.unique_block hb hb' hkind hkind' hid hid'
  exact hnew hmem

theorem Progress.ready : Ready d b blk := by
  refine ⟨hd.tabled, ?_, hkind, ?_⟩
  · rwa [hd.frame.blocks]
  · intro k hk
    rw [hd.waiting b blk hb hkind hnew k hk]
    exact ⟨_, (hc.holds b blk hb hkind).place k hk, rfl, rfl⟩

theorem Progress.opened (hg : Dependence.graph blk.liveIn blk.liveOut (d.bodyOf blk) = .ok g)
    (horder : Runs (placementOrder blk g) d order d) : Opened c d b blk g r.row order := by
  have hbody := hd.sameBody hc hb hkind hnew
  rw [hbody.bodyOf] at hg
  have hedges := Dependence.graph_spec hg
  have hbranch : BranchLast d blk := by
    intro n f hlow hhigh hf
    exact hc.branchLast hb hkind n f hlow hhigh (hbody.fieldsAt.mp hf)
  refine ⟨hb, hkind, hd.ready hc hb hkind hnew, hd.frame.blocks, by rw [hd.frame], hbody, hg,
    (placementOrder_spec hedges (hc.bodyOf_length hb hkind) hbranch horder).2, hd.row, ?_⟩
  intro row lane id hslot
  obtain ⟨q, pl, ⟨b', blk', k, hb', hkind', hk, rfl⟩, hpl, hrow, hlane⟩ :=
    (hd.tabled.slot row lane id).mp hslot
  rw [hd.frame.blocks] at hb'
  exact hd.bound b' blk' k row lane hb' hkind' (lt_size hk)
    ⟨pl, hpl, hrow, hlane⟩

variable (h : Runs (placeNext r b) d r' e)
include h

theorem Progress.runs_next :
    ∃ g x order r₁ e₁ ranges, Opened c { d with drawings := x } b blk g r.row order ∧
      Runs (order.foldlM (placeInstr b blk g r.row) r) { d with drawings := x } r₁ e₁ ∧
      Partly { d with drawings := x } b blk g r.row order order r₁ e₁ ∧
      r'.row = (if r.row < r₁.row then r₁.row else r₁.row + 1) ∧
      e₁.ranges.leaveBlock blk.stop = .ok ranges ∧ e = { e₁ with ranges } ∧
      (BlockNext c done b r d → EachNext c { d with drawings := x } b blk g order r) := by
  obtain ⟨blk', g, d', order, r₁, e₁, ranges, hblk', hg, hd', horder, hrun, hrow, hleave, he⟩ :=
    runs_placeNext h
  have hget := hblk'
  rw [Position.get_natCast, hd.frame.blocks, hb] at hblk'
  cases hblk'
  obtain ⟨x, rfl⟩ : ∃ x, d' = { d with drawings := x } := ⟨_, hd'⟩
  have ho := (hd.setReports d.ranges d.printed x).opened hc hb hkind hnew hg horder
  have hpartly := runs_placeInstrs ho.ready ho.edges ho.places ho.last (List.prefix_refl _) hrun
  refine ⟨g, x, order, r₁, e₁, ranges, ho, hrun, hpartly, hrow, hleave, he, ?_⟩
  rintro ⟨⟨blocks, hblocks, hdone⟩, hpath⟩ earlier n r₂ y hlisted hy
  exact ⟨blocks, done, order, earlier, r, d, _, hblocks, hdone, hpath, hget, hg, rfl, horder, hlisted,
    hy, rfl⟩

theorem Progress.step : Progress c (done ++ [(b : Int)]) r' e := by
  obtain ⟨g, x, order, r₁, e₁, ranges, ho, _, hpartly, hrow, _, rfl, _⟩ :=
    hd.runs_next hc hb hkind hnew h
  have hle : r₁.row ≤ r'.row := by
    rw [hrow]
    split <;> omega
  have hgrown := (hd.setReports d.ranges d.printed x).grow hc ho hpartly hle
  exact hgrown.setReports ranges e₁.printed e₁.drawings

theorem Progress.other_next {b' : Nat} {blk' : Block} (hb' : c.blocks[b']? = some blk')
    (hkind' : blk'.kind = .basic) (hne : b' ≠ b) :
    (∀ k, k < blk'.body.size → placeIn e blk' k = placeIn d blk' k) ∧ SameBody d e blk' := by
  obtain ⟨_, _, _, _, _, _, ho, _, hpartly, _, _, rfl, _⟩ := hd.runs_next hc hb hkind hnew h
  refine ⟨fun k hk => placeIn_other hc ho hb' hkind' hne (List.Subset.refl _) hpartly hk, ?_⟩
  intro id hid
  apply hpartly.store.untouched
  intro hmem
  exact hne (hc.unique_block hb hb' hkind hkind' hmem hid).symm

theorem Progress.kept_next {id : Nat} (hslot : Table.entry d.table row lane = some (some id)) :
    Table.entry e.table row lane = some (some id) := by
  obtain ⟨_, _, _, _, _, _, _, _, hpartly, _, _, rfl, _⟩ := hd.runs_next hc hb hkind hnew h
  exact hpartly.kept row lane id hslot

end

/-! ## All blocks -/

/-- A list of the basic blocks, each once. -/
structure ListsBlocks (c : Compilation) (order : List Int) : Prop where
  nodup : order.Nodup
  basic : ∀ n ∈ order, ∃ (b : Nat) (blk : Block), n = b ∧ c.blocks[b]? = some blk ∧
    blk.kind = .basic
  all : ∀ (b : Nat) (blk : Block), c.blocks[b]? = some blk → blk.kind = .basic → (b : Int) ∈ order

theorem runs_blockOrder (h : Runs blockOrder c order d) :
    ∃ g all, c.flow = some g ∧ g.smallestFirst = .ok all ∧ order.Sublist all := by
  unfold blockOrder at h
  rw [runs_flowGraph_bind] at h
  obtain ⟨g, hg, h⟩ := h
  rw [runs_lift_bind] at h
  obtain ⟨all, hall, h⟩ := h
  obtain ⟨_, hsub, _⟩ := runs_filterM
    (fun x s => keeps_bind keeps_block fun blk => keeps_pure _) h
  exact ⟨g, all, hg, hall, hsub⟩

theorem blockOrder_spec (hc : Laid Q words c) (h : Runs blockOrder c order d) :
    d = c ∧ ListsBlocks c order := by
  unfold blockOrder at h
  rw [runs_flowGraph_bind] at h
  obtain ⟨g, hg, h⟩ := h
  rw [runs_lift_bind] at h
  obtain ⟨all, hall, h⟩ := h
  obtain ⟨g', hg', hcovers⟩ := hc.flow
  rw [hg] at hg'
  cases hg'
  obtain ⟨hperm, _⟩ := Digraph.smallestFirst_spec hcovers.nodup hall
  obtain ⟨rfl, hsub, htest⟩ := runs_filterM
    (fun x s => keeps_bind keeps_block fun blk => keeps_pure _) h
  have hnode : ∀ n ∈ all, 0 ≤ n := fun n hn => hcovers.nonneg n (hperm.mem_iff.mp hn)
  refine ⟨rfl, ⟨(hperm.nodup_iff.mpr hcovers.nodup).sublist hsub, ?_, ?_⟩⟩
  · intro n hn
    have hmem := hsub.subset hn
    obtain ⟨b, rfl⟩ := Int.eq_ofNat_of_zero_le (hnode n hmem)
    have hr := (htest _ hmem).1 hn
    rw [runs_block_bind] at hr
    obtain ⟨blk, hblk, hr⟩ := hr
    obtain ⟨hkind, _⟩ := runs_pure.mp hr
    exact ⟨b, blk, rfl, Position.get_natCast.mp hblk, by simpa using hkind.symm⟩
  · intro b blk hb hkind
    have hlt : b < d.blocks.size := lt_size hb
    have hmem : (b : Int) ∈ all := hperm.mem_iff.mpr (hcovers.all b hlt)
    by_cases hin : (b : Int) ∈ order
    · exact hin
    have hr := (htest _ hmem).2 hin
    rw [runs_block_bind] at hr
    obtain ⟨blk', hblk', hr⟩ := hr
    rw [Position.get_natCast, hb] at hblk'
    cases hblk'
    obtain ⟨hfalse, _⟩ := runs_pure.mp hr
    rw [decide_eq_true hkind] at hfalse
    cases hfalse

theorem progress_start (hc : Laid Q words c) (hempty : NothingPlaced c) :
    Progress c [] { row := -1, position := -1 } c := by
  refine
    { tabled := tabled_of_laid hc hempty
      frame := rfl
      store := .refl _ _
      row := Int.le_refl _
      waiting := fun _ _ _ _ _ _ _ => rfl
      finished := fun b blk hmem => absurd hmem (by simp)
      bound := ?_
      apart := fun b b' blk blk' hne hmem => absurd hmem (by simp) }
  rintro b blk k row lane _ _ _ ⟨pl, hpl, _, hlane⟩
  rw [(hc.fresh _ pl hpl).2] at hlane
  cases hlane

theorem ListsBlocks.next (horder : ListsBlocks c order) {rest : List Int}
    (hsplit : order = done ++ n :: rest) :
    ∃ (b : Nat) (blk : Block), n = b ∧ c.blocks[b]? = some blk ∧ blk.kind = .basic ∧
      (b : Int) ∉ done := by
  obtain ⟨b, blk, rfl, hb, hkind⟩ := horder.basic n (by rw [hsplit]; simp)
  refine ⟨b, blk, rfl, hb, hkind, ?_⟩
  have hnodup := horder.nodup
  rw [hsplit] at hnodup
  intro hmem
  exact (List.nodup_append.mp hnodup).2.2 _ hmem _ (by simp) rfl

section
variable (hc : Laid Q words c) (hempty : NothingPlaced c)
include hc hempty

variable (h : Runs (done.foldlM placeNext { row := -1, position := -1 }) c r d)
include h

theorem ListsBlocks.induct (horder : ListsBlocks c order)
    (P : List Int → Reach → Compilation → Prop) (hdone : done <+: order)
    (hstart : P [] { row := -1, position := -1 } c)
    (hstep : ∀ (done rest : List Int) (b : Nat) (blk : Block) (r r' : Reach) (d e : Compilation), order = done ++ (b : Int) :: rest → c.blocks[b]? = some blk → blk.kind = .basic → (b : Int) ∉ done → Progress c done r d → P done r d → Runs (placeNext r b) d r' e → P (done ++ [(b : Int)]) r' e) :
    Progress c done r d ∧ P done r d := by
  obtain ⟨rest, hrest⟩ := hdone
  apply runs_foldlM_induct (fun done r d => Progress c done r d ∧ P done r d) h
    ⟨progress_start hc hempty, hstart⟩
  rintro before n after r d r' e hsplit ⟨hd, hP⟩ hr
  have hlisted : order = before ++ n :: (after ++ rest) := by
    rw [← hrest, hsplit]
    simp
  obtain ⟨b, blk, rfl, hb, hkind, hnew⟩ := horder.next hlisted
  exact ⟨hd.step hc hb hkind hnew hr, hstep before _ b blk r r' d e hlisted hb hkind hnew hd hP hr⟩

theorem runs_placeBlocks (horder : ListsBlocks c order) (hdone : done <+: order) :
    Progress c done r d :=
  (horder.induct hc hempty h (fun _ _ _ => True) hdone trivial
    fun _ _ _ _ _ _ _ _ _ _ _ _ _ _ _ => trivial).1

theorem opened_after {n : Int} {d' : Compilation} (hblocks : Runs blockOrder c order c)
    (hdone : done ++ [n] <+: order) (hblk : Position.get d.blocks n = .ok blk)
    (hg : Dependence.graph blk.liveIn blk.liveOut (d.bodyOf blk) = .ok g)
    (hd' : d' = { d with drawings := d'.drawings }) {listed : List Int}
    (horder : Runs (placementOrder blk g) d' listed d') :
    ∃ b : Nat, n = b ∧ (b : Int) ∉ done ∧ Progress c done r d' ∧
      Opened c d' b blk g r.row listed := by
  obtain ⟨_, hlists⟩ := blockOrder_spec hc hblocks
  obtain ⟨after, hafter⟩ := hdone
  have hsplit : order = done ++ n :: after := by
    rw [← hafter]
    simp
  have hd := runs_placeBlocks hc hempty h hlists ⟨_, hsplit.symm⟩
  obtain ⟨b, blk', rfl, hb, hkind, hnew⟩ := hlists.next hsplit
  rw [Position.get_natCast, hd.frame.blocks, hb] at hblk
  cases hblk
  obtain ⟨z, rfl⟩ : ∃ z, d' = { d with drawings := z } := ⟨_, hd'⟩
  have hz := hd.setReports d.ranges d.printed z
  exact ⟨b, rfl, hnew, hz, hz.opened hc hb hkind hnew hg horder⟩

end

/-! ## The table that is left -/

theorem entry_takeBefore {t : Table} (hn : 0 ≤ n) :
    Table.entry (Position.takeBefore t n) row lane =
      if row < n then Table.entry t row lane else none := by
  unfold Table.entry Position.takeBefore
  rw [if_pos hn, Array.getElem?_extract]
  by_cases hin : 0 ≤ row ∧ 0 ≤ lane
  · rw [if_pos hin, if_pos hin]
    by_cases hlt : row < n
    · rw [if_pos hlt]
      by_cases hsize : row.toNat < Array.size t
      · rw [if_pos (by omega), Nat.zero_add]
      · rw [if_neg (by omega), Array.getElem?_eq_none (by omega)]
    · rw [if_neg hlt, if_neg (by omega)]
      rfl
  · rw [if_neg hin, if_neg hin]
    split <;> rfl

theorem Progress.truncate (hd : Progress c done r d) :
    Progress c done r { d with table := Position.takeBefore d.table (r.row + 1) } := by
  have hrow := hd.row
  refine
    { tabled := ⟨hd.tabled.instr, hd.tabled.unique, ?_, hd.tabled.numbered⟩
      frame := hd.frame.trans rfl
      store := hd.store
      row := hrow
      waiting := hd.waiting
      finished := ?_
      bound := hd.bound
      apart := hd.apart }
  · intro row lane id
    refine Iff.trans ?_ (hd.tabled.slot row lane id)
    rw [entry_takeBefore (by omega)]
    constructor
    · intro hs
      split at hs
      · exact hs
      · cases hs
    · intro hs
      obtain ⟨q, pl, ⟨b, blk, k, hb, hkind, hk, rfl⟩, hpl, hrow', hlane⟩ :=
        (hd.tabled.slot row lane id).mp hs
      rw [hd.frame.blocks] at hb
      have hle := hd.bound b blk k row lane hb hkind (lt_size hk)
        ⟨pl, hpl, hrow', hlane⟩
      rwa [if_pos (by omega)]
  · intro b blk hmem hb hkind
    have hdone := hd.finished b blk hmem hb hkind
    exact ⟨hdone.placed, hdone.active, hdone.waits⟩

theorem runs_placeAll (hc : Laid Q words c) {u : Unit} (h : Runs placeAll c u d) :
    ∃ order r d₁ printed, Runs blockOrder c order c ∧ ListsBlocks c order ∧
      Runs (order.foldlM placeNext { row := -1, position := -1 }) c r d₁ ∧
      d = { d₁ with table := Position.takeBefore d₁.table (r.row + 1), printed } := by
  unfold placeAll at h
  obtain ⟨order, c', horder, hplace⟩ := runs_bind.mp h
  obtain ⟨rfl, hlists⟩ := blockOrder_spec hc horder
  obtain ⟨r, d₁, hrun, hcut⟩ := runs_bind.mp hplace
  rw [runs_modify_bind, runs_get_bind] at hcut
  refine ⟨order, r, d₁, ?_⟩
  split at hcut
  · unfold printTable at hcut
    rw [runs_get_bind] at hcut
    dsimp only at hcut
    rw [runs_lift_bind] at hcut
    obtain ⟨shown, _, hcut⟩ := hcut
    exact ⟨_, horder, hlists, hrun, runs_modify.mp hcut⟩
  · exact ⟨_, horder, hlists, hrun, (runs_pure.mp hcut).2⟩

theorem progress_of_placeAll (hc : Laid Q words c) (hempty : NothingPlaced c) {u : Unit}
    (h : Runs placeAll c u d) : ∃ order r, ListsBlocks c order ∧ Progress c order r d := by
  obtain ⟨order, r, d₁, printed, _, hlists, hrun, rfl⟩ := runs_placeAll hc h
  have hd₁ := runs_placeBlocks hc hempty hrun hlists (List.prefix_refl _)
  exact ⟨order, r, hlists, hd₁.truncate.setReports d₁.ranges printed d₁.drawings⟩

/-- What holds of a block does not change as long as its instructions stay where they are and
    as they are. -/
def Persists (P : Compilation → Nat → Block → Prop) : Prop :=
  ∀ (d e : Compilation) (b : Nat) (blk : Block),
    (∀ k, k < blk.body.size → placeIn e blk k = placeIn d blk k) → SameBody d e blk →
    (∀ row lane id, Table.entry d.table row lane = some (some id) →
      Table.entry e.table row lane = some (some id)) → P d b blk → P e b blk

/-- What holds of a block once it was placed, and persists, holds of every block in the end.
    What holds before each block may be used to show it. -/
theorem forall_block_of_placeAll {P : Compilation → Nat → Block → Prop}
    (I : List Int → Reach → Compilation → Prop) (hc : Laid Q words c)
    (hempty : NothingPlaced c) (hstart : I [] { row := -1, position := -1 } c)
    (hstep : ∀ (done : List Int) (b : Nat) (blk : Block) (r r' : Reach) (d e : Compilation),
      c.blocks[b]? = some blk → blk.kind = .basic → (b : Int) ∉ done → Progress c done r d →
      BlockNext c done b r d → I done r d → Runs (placeNext r b) d r' e →
      I (done ++ [(b : Int)]) r' e ∧ P e b blk)
    (hkeep : Persists P) {u : Unit} (h : Runs placeAll c u d) (hb : c.blocks[b]? = some blk) (hkind : blk.kind = .basic) :
    P d b blk := by
  obtain ⟨order, r, d₁, printed, hblocks, hlists, hrun, rfl⟩ := runs_placeAll hc h
  have hall := hlists.induct hc hempty hrun
    (fun done r d => Runs (done.foldlM placeNext { row := -1, position := -1 }) c r d ∧ I done r d ∧
      ∀ (b : Nat) (blk : Block), (b : Int) ∈ done → c.blocks[b]? = some blk → blk.kind = .basic →
        P d b blk) (List.prefix_refl _)
    ⟨rfl, hstart, fun _ _ hmem => absurd hmem (by simp)⟩ ?_
  · obtain ⟨hd₁, _, _, hall⟩ := hall
    refine hkeep d₁ _ b blk (fun _ _ => rfl) (fun _ _ => rfl) ?_
      (hall b blk (hlists.all b blk hb hkind) hb hkind)
    intro row lane id hslot
    exact (hd₁.truncate.tabled.slot row lane id).mpr ((hd₁.tabled.slot row lane id).mp hslot)
  · intro done rest b blk r r' d e hsplit hb hkind hnew hd hall hr
    obtain ⟨hpath, hI, hdone⟩ := hall
    have hnext : BlockNext c done b r d := ⟨⟨order, hblocks, rest, by rw [hsplit]; simp⟩, hpath⟩
    obtain ⟨hI', hP⟩ := hstep done b blk r r' d e hb hkind hnew hd hnext hI hr
    refine ⟨runs_foldlM_snoc hpath hr, hI', ?_⟩
    intro b' blk' hmem hb' hkind'
    -- the block that is placed now, or one that was placed before
    by_cases heq : b' = b
    · subst heq
      obtain rfl := Option.mem_unique hb hb'
      exact hP
    · have hmem' := (mem_snoc.mp hmem).resolve_right heq
      obtain ⟨hplaces, hsame⟩ := hd.other_next hc hb hkind hnew hr hb' hkind' heq
      exact hkeep d e b' blk' hplaces hsame (fun _ _ _ => hd.kept_next hc hb hkind hnew hr)
        (hdone b' blk' hmem' hb' hkind')
end Schedule

end BpfLanes
