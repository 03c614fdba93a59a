import BpfLanes.Proofs.LivenessRounds
import BpfLanes.Proofs.Prepared
import Mathlib.Data.List.Chain

/-! # What is live between blocks

The registers noted at the start of a block are those that some way through the
flow graph reads before it writes them. The rounds that find them come to an end.
-/

namespace BpfLanes.Liveness

open Compilation

variable {g : Digraph}

variable {c s d : Compilation} {b old count : Nat} {blk : Block}

/-! ## Ways that read a register -/

/-- The instructions of block `b`. -/
def bodyAt (c : Compilation) (b : Nat) : List Instr :=
  (c.blocks[b]?.map c.bodyOf).getD []

/-- Some way through the graph from the start of block `b` leads to an instruction that
    reads register `r`, and no instruction before it on this way writes `r`. -/
def ReachesRead (c : Compilation) (g : Digraph) (b : Nat) (r : Int) : Prop :=
  ∃ path : List Nat, path.head? = some b
    ∧ path.IsChain (fun (x y : Nat) => g.Edge x y)
    ∧ ReadFirst (path.flatMap (bodyAt c)) r

/-- A block notes what the instructions of block `b` read and write. -/
structure Summarises (c : Compilation) (b : Nat) (blk : Block) : Prop where
  uses : ∀ r, blk.uses.has r = true ↔ ReadFirst (bodyAt c b) r
  defs : ∀ r, blk.defs.has r = true ↔ ∃ i ∈ bodyAt c b, r ∈ i.sets

theorem Summarises.not_defs (h : Summarises c b blk) {r : Int} :
    blk.defs.has r = false ↔ ∀ i ∈ bodyAt c b, r ∉ i.sets := by
  rw [Bool.eq_false_iff, ne_eq, h.defs]
  push Not
  exact Iff.rfl

variable {r : Int}

theorem reachesRead_of_live (hsum : ∀ b blk, d.blocks[b]? = some blk → Summarises c b blk)
    (h : Live d g r b) : ReachesRead c g b r := by
  induction h with
  | @here b blk hblk hr =>
    refine ⟨[b], rfl, List.isChain_singleton b, ?_⟩
    simpa using ((hsum b blk hblk).uses r).mp hr
  | @later b s blk hblk hnot hedge _ ih =>
    obtain ⟨path, hhead, hchain, hread⟩ := ih
    refine ⟨b :: path, rfl, ?_, ?_⟩
    · apply List.isChain_cons.mpr
      refine ⟨?_, hchain⟩
      intro y hy
      obtain rfl := Option.mem_unique hhead hy
      exact hedge
    · rw [List.flatMap_cons, readFirst_append]
      exact .inr ⟨(hsum b blk hblk).not_defs.mp hnot, hread⟩

theorem live_of_reachesRead (hsum : ∀ b blk, d.blocks[b]? = some blk → Summarises c b blk)
    (hg : Over d.blocks.size g) (hb : b < d.blocks.size) (h : ReachesRead c g b r) :
    Live d g r b := by
  obtain ⟨path, hhead, hchain, hread⟩ := h
  induction path generalizing b with
  | nil => cases hhead
  | cons b' path ih =>
    obtain rfl : b' = b := Option.some.inj hhead
    have hblk : d.blocks[b']? = some d.blocks[b'] := Array.getElem?_eq_getElem hb
    have hown := hsum b' _ hblk
    rw [List.flatMap_cons, readFirst_append] at hread
    rcases hread with hread | ⟨hnot, hread⟩
    · exact Live.here hblk ((hown.uses r).mpr hread)
    -- the read is in a later block, so there is a next one
    cases path with
    | nil => exact absurd hread not_readFirst_nil
    | cons s path =>
      obtain ⟨hedge, hrest⟩ := List.isChain_cons_cons.mp hchain
      have hs : s < d.blocks.size := by
        have := (hg.edges _ _ hedge).2
        omega
      exact Live.later hblk (hown.not_defs.mpr hnot) hedge (ih hs rfl hrest hread)

/-! ## Summaries of all blocks -/

/-- Clears what is noted about a block and summarises its instructions. -/
def summariseBlock (b : Nat) : CompileM Unit := do
  let blk ← block b
  setBlock b { blk with uses := [], defs := [], liveOut := [], liveIn := [] }
  let s ← summarise (← body blk)
  setBlock b { blk with uses := s.uses, defs := s.defs, liveOut := [], liveIn := [] }

theorem acrossBlocks_eq : acrossBlocks = (do
    let count := (← get).blocks.size
    (List.range count).forM summariseBlock
    let g ← flowGraph
    let order ← g.reverse.byGenerations
    settle g order (32 * count + 2)) :=
  rfl

/-- A block that was cleared and holds a summary of its instructions. -/
def Fresh (c : Compilation) (old blk : Block) : Prop :=
  ∃ s, summarise (c.bodyOf old) = .ok s
    ∧ blk = { old with uses := s.uses, defs := s.defs, liveOut := [], liveIn := [] }

theorem fromWord_of_sound (h : Flow.Sound old count c) (hblk : blk ∈ c.blocks) :
    ∀ i ∈ c.bodyOf blk, i.FromWord := by
  intro i hi
  obtain ⟨id, hid, hstore⟩ := List.mem_filterMap.mp hi
  exact h.instr id i ((h.good blk hblk).body id (Array.mem_toList_iff.mp hid)) hstore

theorem summariseBlock_runs (hblk : c.blocks[b]? = some blk)
    (hbody : ∀ i ∈ c.bodyOf blk, i.FromWord) :
    ∃ new, Fresh c blk new
      ∧ Runs (summariseBlock b) c ⟨⟩ { c with blocks := c.blocks.setIfInBounds b new } := by
  have hlt : b < c.blocks.size := lt_size hblk
  obtain ⟨s, hs, -⟩ := summarise_spec hbody
  refine ⟨_, ⟨s, hs, rfl⟩, ?_⟩
  unfold summariseBlock
  simp only [runs_block_bind, Position.get_natCast, hblk, Option.some.injEq, exists_eq_left']
  apply runs_setBlock_bind.mpr
  refine ⟨_, Position.set_natCast.mpr ⟨hlt, rfl⟩, ?_⟩
  apply runs_body_bind.mpr
  apply runs_lift_bind.mpr
  refine ⟨s, hs, ?_⟩
  apply runs_setBlock.mpr
  refine ⟨_, Position.set_natCast.mpr ⟨?_, rfl⟩, ?_⟩
  · rwa [Array.size_setIfInBounds]
  · simp only [Array.setIfInBounds_setIfInBounds]

/-- The blocks up to the `k`-th one are summarised. -/
structure SummarisedTo (c : Compilation) (k : Nat) (s : Compilation) : Prop where
  rest : s = { c with blocks := s.blocks }
  size : s.blocks.size = c.blocks.size
  done : ∀ (b : Nat) (old : Block), b < k → c.blocks[b]? = some old →
    ∃ blk, s.blocks[b]? = some blk ∧ Fresh c old blk
  later : ∀ b : Nat, k ≤ b → s.blocks[b]? = c.blocks[b]?

theorem SummarisedTo.step {k : Nat} {old new : Block} (h : SummarisedTo c k s)
    (hold : c.blocks[k]? = some old) (hnew : Fresh c old new) :
    SummarisedTo c (k + 1) { s with blocks := s.blocks.setIfInBounds k new } := by
  have hk : k < c.blocks.size := lt_size hold
  refine ⟨?_, ?_, ?_, ?_⟩
  · rw [h.rest]
  · rw [Array.size_setIfInBounds]
    exact h.size
  · intro b blk hb hblk
    by_cases hbk : b = k
    · subst hbk
      obtain rfl := Option.mem_unique hold hblk
      exact ⟨new, Array.getElem?_setIfInBounds_self_of_lt (h.size ▸ hk), hnew⟩
    · rw [Array.getElem?_setIfInBounds_ne (Ne.symm hbk)]
      exact h.done b blk (by omega) hblk
  · intro b hb
    rw [Array.getElem?_setIfInBounds_ne (by omega)]
    exact h.later b (by omega)

theorem summariseBlocks_runs (h : Flow.Sound old count c) :
    ∃ d, Runs ((List.range c.blocks.size).forM summariseBlock) c ⟨⟩ d
      ∧ SummarisedTo c c.blocks.size d := by
  have hloop := forM_runs (f := summariseBlock) (l := List.range c.blocks.size) (s := c)
    (SummarisedTo c) ⟨rfl, rfl, by simp, by simp⟩ ?_
  · rwa [List.length_range] at hloop
  intro k x s hx hs
  obtain ⟨hk, rfl⟩ : k < c.blocks.size ∧ k = x := by
    simpa [List.getElem?_range'] using List.getElem?_eq_some_iff.mp hx
  have hblk : c.blocks[k]? = some c.blocks[k] := Array.getElem?_eq_getElem hk
  have hbody : s.bodyOf c.blocks[k] = c.bodyOf c.blocks[k] := by rw [hs.rest]; rfl
  obtain ⟨new, hnew, hrun⟩ := summariseBlock_runs ((hs.later k (Nat.le_refl k)).trans hblk)
    (hbody ▸ fromWord_of_sound h (Array.getElem_mem hk))
  refine ⟨_, hrun, hs.step hblk ?_⟩
  unfold Fresh at hnew ⊢
  rwa [← hbody]

section
variable (hc : Flow.Sound old count c) (h : SummarisedTo c c.blocks.size d)
include hc h

theorem SummarisedTo.summarises (hblk : d.blocks[b]? = some blk) :
    Summarises c b blk ∧ blk.liveIn = [] ∧ blk.liveOut = [] := by
  have hb : b < c.blocks.size := h.size ▸ (lt_size hblk)
  have hold : c.blocks[b]? = some c.blocks[b] := Array.getElem?_eq_getElem hb
  obtain ⟨blk', hblk', s, hs, rfl⟩ := h.done b _ hb hold
  obtain rfl := Option.mem_unique hblk' hblk
  obtain ⟨s', hs', hdefs, huses⟩ :=
    summarise_spec (fromWord_of_sound hc (Array.getElem_mem hb))
  obtain rfl := Except.ok.inj (hs.symm.trans hs')
  have hbody : bodyAt c b = c.bodyOf c.blocks[b] := by simp [bodyAt, hold]
  refine ⟨⟨?_, ?_⟩, rfl, rfl⟩
  · rwa [hbody]
  · rwa [hbody]

theorem SummarisedTo.uses : ∀ blk ∈ d.blocks, ∀ r, blk.uses.has r = true → 0 ≤ r ∧ r < 16 := by
  intro blk hblk r hr
  obtain ⟨b, hb⟩ := Array.mem_iff_getElem?.mp hblk
  obtain ⟨_, i, _, _, hneeds, _⟩ := ((h.summarises hc hb).1.uses r).mp hr
  exact i.register_of_needs hneeds

theorem SummarisedTo.approximates : Approximates d g d := by
  refine ⟨Calm.refl d, ?_, ?_, ?_⟩
  · rintro b r ⟨blk, hblk, hr⟩
    rw [(h.summarises hc hblk).2.1] at hr
    cases hr
  · rintro b r ⟨blk, hblk, hr⟩
    rw [(h.summarises hc hblk).2.2] at hr
    cases hr
  · intro b blk hblk r hr
    rw [(h.summarises hc hblk).2.1] at hr
    cases hr

end

/-! ## The flow graph of an analysed program -/

theorem over_graphOf (hc : Flow.Sound old count c) (hac : (Flow.graphOf c.blocks.toList).Acyclic) :
    Over c.blocks.size (Flow.graphOf c.blocks.toList) := by
  have hedges : ∀ a x, (Flow.graphOf c.blocks.toList).Edge a x →
      (0 ≤ a ∧ a < c.blocks.size) ∧ 0 ≤ x ∧ x < c.blocks.size := by
    intro a x hedge
    obtain ⟨b, blk, hb, rfl, hx⟩ := Flow.mem_edges_graphOf.mp hedge
    rw [Array.getElem?_toList] at hb
    have hlinks := (hc.good blk (Array.mem_of_getElem? hb)).links x hx
    have hlt := lt_size hb
    have hsize := hc.size
    omega
  refine ⟨?_, fun a x hedge => (hedges a x hedge).2, ?_⟩
  · intro n
    constructor
    · intro hn
      rcases Digraph.mem_nodes_ofLists.mp hn with hn | ⟨e, he, hn⟩
      · simp only [List.map_map, List.mem_map, Function.comp] at hn
        obtain ⟨⟨blk, b⟩, hb, rfl⟩ := hn
        have hlt := (List.getElem?_eq_some_iff.mp (List.mk_mem_zipIdx_iff_getElem?.mp hb)).1
        rw [Array.length_toList] at hlt
        omega
      · have hedge := hedges e.1 e.2 (Digraph.mem_edges_ofLists.mpr he)
        rcases hn with rfl | rfl
        · exact hedge.1
        · exact hedge.2
    · intro hn
      refine Digraph.mem_nodes_ofLists.mpr (.inl ?_)
      simp only [List.map_map, List.mem_map, Function.comp]
      have hlt : n.toNat < c.blocks.toList.length := by
        rw [Array.length_toList]
        omega
      refine ⟨(c.blocks.toList.get ⟨n.toNat, hlt⟩, n.toNat), ?_, Int.toNat_of_nonneg hn.1⟩
      exact List.mk_mem_zipIdx_iff_getElem?.mpr (List.getElem?_eq_getElem hlt)
  · intro a hedge
    exact hac a (Relation.TransGen.single hedge)

/-! ## Exactness -/

/-- The blocks, the instructions and the flow graph are those found when the program of
    `s` was cut into blocks. The words may have been rewritten since. -/
def CutFrom (s c : Compilation) : Prop :=
  s.blocks = #[Block.entry] ∧ ∃ c₀, Runs Flow.analyse s ⟨⟩ c₀
    ∧ c.blocks = c₀.blocks ∧ c.store = c₀.store ∧ c.flow = c₀.flow

theorem CutFrom.sound (h : CutFrom s c) :
    Flow.Sound s.store.size c.blocks.size c ∧ c.flow = some (Flow.graphOf c.blocks.toList) := by
  obtain ⟨hs, c₀, hrun, hblocks, hstore, hflow⟩ := h
  obtain ⟨hsound, hgraph⟩ := Flow.sound_of_analyse hs hrun
  refine ⟨hsound.congr hblocks hstore, ?_⟩
  rwa [hblocks, hflow]

/-- What becomes of a program that is cut into blocks and fused, if it can be computed. -/
theorem exists_fused {P : Compilation → Prop} (hs : s.blocks = #[Block.entry])
    (hcut : finishes Flow.analyse s = true)
    (hfuse : finishes Fusion.fuseAll (stateAfter Flow.analyse s) = true)
    (hup : ((stateAfter Fusion.fuseAll (stateAfter Flow.analyse s)).flow.all fun g =>
      g.edges.all fun e => e.1 < e.2) = true)
    (h : P (stateAfter Fusion.fuseAll (stateAfter Flow.analyse s))) :
    ∃ c g, CutFrom s c ∧ c.flow = some g ∧ g.Acyclic ∧ P c := by
  have hrest := (keeps_fuseAll.runs (runs_after hfuse)
    (Optimize.rewritten_refl (JumpsFrom.refl (stateAfter Flow.analyse s).words))).rest
  generalize stateAfter Fusion.fuseAll (stateAfter Flow.analyse s) = c at *
  have hc : CutFrom s c :=
    ⟨hs, _, runs_after hcut, by rw [hrest], by rw [hrest], by rw [hrest]⟩
  obtain ⟨_, hflow⟩ := hc.sound
  refine ⟨c, _, hc, hflow, Digraph.acyclic_of_ascending fun e he => ?_, h⟩
  rw [hflow] at hup
  exact of_decide_eq_true (List.all_eq_true.mp hup e he)

theorem noted_exact {c₁ : Compilation}
    (hsum : ∀ (b : Nat) (blk : Block), c₁.blocks[b]? = some blk → Summarises c b blk)
    (hover : Over c₁.blocks.size g) (happ : Approximates c₁ g d)
    (hclosed : ∀ b : Nat, b < c₁.blocks.size → Closed c₁ g d b) (hblk : d.blocks[b]? = some blk) :
    (∀ r, blk.liveIn.has r = true ↔ ReachesRead c g b r)
      ∧ ∀ r, blk.liveOut.has r = true ↔ ∃ (x : Nat) (next : Block),
          g.Edge b x ∧ d.blocks[x]? = some next ∧ next.liveIn.has r = true := by
  have hb : b < c₁.blocks.size := happ.calm.size ▸ (lt_size hblk)
  have hin : ∀ r, blk.liveIn.has r = true ↔ LiveIn d b r := by
    intro r
    simp only [LiveIn, hblk, Option.some.injEq, exists_eq_left']
  have hout : ∀ r, blk.liveOut.has r = true ↔ LiveOut d b r := by
    intro r
    simp only [LiveOut, hblk, Option.some.injEq, exists_eq_left']
  constructor
  · intro r
    rw [hin]
    constructor
    · intro hr
      exact reachesRead_of_live hsum (happ.liveIn b r hr)
    · intro hr
      exact liveIn_of_live hclosed (live_of_reachesRead hsum hover hb hr)
  · intro r
    rw [hout]
    constructor
    · intro hr
      obtain ⟨x, hedge, hlive⟩ := happ.liveOut b r hr
      obtain ⟨next, hnext, hr⟩ := liveIn_of_live hclosed hlive
      exact ⟨x, next, hedge, hnext, hr⟩
    · rintro ⟨x, next, hedge, hnext, hr⟩
      exact (hclosed b hb).liveOut x r hedge ⟨next, hnext, hr⟩

/-- How the search for live registers went: the blocks were summarised in `c₁`, and rounds
    in the order `order` led to `d`. -/
structure Searched (c : Compilation) (g : Digraph) (c₁ : Compilation) (order : List Int)
    (d : Compilation) : Prop where
  summaries : Runs ((List.range c.blocks.size).forM summariseBlock) c ⟨⟩ c₁
  blank : ∀ (b : Nat) (blk : Block), c₁.blocks[b]? = some blk →
    Summarises c b blk ∧ blk.liveIn = [] ∧ blk.liveOut = []
  uses : ∀ blk ∈ c₁.blocks, ∀ r, blk.uses.has r = true → 0 ≤ r ∧ r < 16
  onBlocks : Over c₁.blocks.size g
  generations : g.reverse.byGenerations = .ok order
  perm : order.Perm g.nodes
  nodup : order.Nodup
  forward : ∀ b x : Int, [b, x].Sublist order → ¬ g.Edge b x
  settles : Settles g order c₁ d
  run : Runs acrossBlocks c ⟨⟩ d
  approximates : Approximates c₁ g d
  closed : ∀ b : Nat, b < c₁.blocks.size → Closed c₁ g d b

section
variable (hsound : Flow.Sound old c.blocks.size c) (hflow : c.flow = some g)
  (hg : Flow.graphOf c.blocks.toList = g) (hac : g.Acyclic)
include hsound hflow hg hac

theorem acrossBlocks_searched :
    ∃ c₁ order d, Searched c g c₁ order d ∧ d.blocks.size = c.blocks.size := by
  have hover : Over c.blocks.size g := hg ▸ over_graphOf hsound (hg ▸ hac)
  have hsimple : g.Simple := hg ▸ Digraph.simple_ofLists
  obtain ⟨order, horder, hperm, hforward⟩ :=
    Digraph.byGenerations_spec hsimple.reverse (hac.reverse hsimple)
  have hmem : ∀ b, b ∈ order ↔ b ∈ g.nodes := fun b => hperm.mem_iff
  -- the summaries
  obtain ⟨c₁, hrun₁, hc₁⟩ := summariseBlocks_runs hsound
  have hover₁ : Over c₁.blocks.size g := hc₁.size.symm ▸ hover
  -- the rounds
  obtain ⟨d, hrun₂, hsettles, happ, hclosed⟩ :=
    settle_runs (hc₁.uses hsound) hover₁ (fun b hb => (hmem b).mp hb)
      (32 * c.blocks.size + 2) (hc₁.approximates hsound) (by rw [hc₁.size]; omega)
  have hflow₁ : c₁.flow = some g := by rw [hc₁.rest]; exact hflow
  refine ⟨c₁, order, d, ⟨hrun₁, fun b blk hblk => hc₁.summarises hsound hblk, hc₁.uses hsound,
    hover₁, horder, hperm, hperm.nodup_iff.mpr hsimple.nodes, ?_, hsettles, ?_, happ,
    fun b hb => hclosed b ((hmem b).mpr ((hover₁.nodes b).mpr (by omega)))⟩,
    happ.calm.size.trans hc₁.size⟩
  · intro b x hsub hedge
    have hpair := hforward.sublist hsub
    exact (List.pairwise_cons.mp hpair).1 x (by simp) ((Digraph.edge_reverse hsimple).mpr hedge)
  · rw [acrossBlocks_eq]
    refine runs_get_bind.mpr (runs_bind.mpr ⟨⟨⟩, c₁, hrun₁, ?_⟩)
    refine runs_flowGraph_bind.mpr ⟨g, hflow₁, runs_lift_bind.mpr ⟨order, horder, hrun₂⟩⟩

theorem acrossBlocks_exact :
    ∃ c₁ order d, Searched c g c₁ order d
      ∧ d.blocks.size = c.blocks.size
      ∧ ∀ (b : Nat) (blk : Block), d.blocks[b]? = some blk →
        (∀ r, blk.liveIn.has r = true ↔ ReachesRead c g b r)
        ∧ ∀ r, blk.liveOut.has r = true ↔ ∃ (x : Nat) (next : Block),
            g.Edge b x ∧ d.blocks[x]? = some next ∧ next.liveIn.has r = true := by
  obtain ⟨c₁, order, d, h, hsize⟩ := acrossBlocks_searched hsound hflow hg hac
  refine ⟨c₁, order, d, h, hsize, fun b blk hblk => ?_⟩
  exact noted_exact (fun b blk hblk => (h.blank b blk hblk).1) h.onBlocks h.approximates h.closed hblk

end

/-- With a flow graph without cycles the search for live registers ends, with a round
    that adds nothing. Then a register is noted at the start of a block exactly if some
    way from there reads it before anything writes it, and at the end of a block
    exactly if it is noted at the start of a successor. -/
theorem global_liveness_exact {s c : Compilation} {g : Digraph} (h : CutFrom s c)
    (hflow : c.flow = some g) (hac : g.Acyclic) :
    ∃ c₁ order d, Runs ((List.range c.blocks.size).forM summariseBlock) c ⟨⟩ c₁
      ∧ g.reverse.byGenerations = .ok order ∧ Settles g order c₁ d
      ∧ Runs acrossBlocks c ⟨⟩ d
      ∧ d.blocks.size = c.blocks.size
      ∧ ∀ (b : Nat) (blk : Block), d.blocks[b]? = some blk →
        (∀ r, blk.liveIn.has r = true ↔ ReachesRead c g b r)
        ∧ ∀ r, blk.liveOut.has r = true ↔ ∃ (x : Nat) (next : Block),
            g.Edge b x ∧ d.blocks[x]? = some next ∧ next.liveIn.has r = true := by
  obtain ⟨hsound, hgraph⟩ := h.sound
  obtain ⟨c₁, order, d, hd, hsize, hexact⟩ :=
    acrossBlocks_exact hsound hflow (Option.mem_unique hgraph hflow) hac
  exact ⟨c₁, order, d, hd.summaries, hd.generations, hd.settles, hd.run, hsize, hexact⟩

/-- A value that is kept in a register while a helper is called. -/
def keptAcrossCall : Array Word :=
  #[0xbf16000000000000, 0x1501010000000000, 0x8500000005000000, 0xbf60000000000000,
    0x9500000000000000]

/-- Register 6 is noted at the start of the call, so some way from there reads it. -/
theorem global_liveness_exact_keptAcrossCall :
    ∃ s c g, CutFrom s c ∧ c.flow = some g ∧ g.Acyclic
      ∧ ((stateAfter acrossBlocks c).blocks[3]?.any fun blk => blk.liveIn.has 6) = true
      ∧ ReachesRead c g 3 6 := by
  obtain ⟨c, g, hc, hflow, hac, hnoted⟩ := exists_fused
    (s := start {} {} keptAcrossCall (keptAcrossCall.map fun _ => ""))
    (P := fun c => ((stateAfter acrossBlocks c).blocks[3]?.any fun blk => blk.liveIn.has 6) = true)
    rfl (by decide +kernel) (by decide +kernel) (by decide +kernel) (by decide +kernel)
  obtain ⟨_, _, d, _, _, _, hrun, _, hexact⟩ := global_liveness_exact hc hflow hac
  refine ⟨_, c, g, hc, hflow, hac, hnoted, ?_⟩
  rw [stateAfter_of_runs hrun] at hnoted
  obtain ⟨blk, hblk, hr⟩ := (Option.any_eq_true _ _).mp hnoted
  exact ((hexact 3 blk hblk).1 6).mp hr

end BpfLanes.Liveness
