import BpfLanes.Proofs.BlockChain

/-! # Control flow

The flow graph of a program tells exactly where control can pass. From one
instruction to another it passes either inside a block, from one position to the
next, or from the end of a block to the start of one that the graph leads to,
directly or through the block of a helper.
-/

namespace BpfLanes

variable {next : Block} {a : Instr} {p x : Int} {i j k : Nat} {u : Unit}

namespace Flow

open Compilation
open Optimize (Uncut)

variable {c s : Compilation} {words : Array Word} {b id : Nat} {blk : Block} {f : Fields}

/-! ## Where control can pass -/

/-- Control can pass from the instruction at `i` to the one at `j` in one step: to the
    next position, unless the instruction is an exit or an unconditional jump, and to
    the target of a jump. -/
inductive Passes (words : Array Word) : Nat → Nat → Prop where
  | next {i : Nat} {f : Fields} : WordAt words i f → f.isExit = false → f.isGoto = false →
    i + 1 < words.size → Passes words i (i + 1)
  | jump {i j : Nat} {f : Fields} : WordAt words i f → f.isJump = true →
    (j : Int) = (i : Int) + f.offset + 1 → j < words.size → Passes words i j

/-- The positions of the instructions of a block. -/
def positionsOf (c : Compilation) (blk : Block) : List (Option Int) :=
  (c.bodyOf blk).map Instr.position

/-- The instruction at `j` stands right behind the one at `i` in a basic block. -/
def Adjacent (c : Compilation) (i j : Nat) : Prop :=
  ∃ (b : Nat) (blk : Block) (k : Nat), c.blocks[b]? = some blk ∧ blk.kind = .basic ∧ j = i + 1
    ∧ (positionsOf c blk)[k]? = some (some (i : Int))
    ∧ (positionsOf c blk)[k + 1]? = some (some (j : Int))

/-- The instruction at `i` is the last one of the basic block `b`. -/
def EndsAt (c : Compilation) (b i : Nat) : Prop :=
  ∃ blk, c.blocks[b]? = some blk ∧ blk.kind = .basic
    ∧ (positionsOf c blk).getLast? = some (some (i : Int))

/-- The instruction at `j` is the first one of the basic block `b`. -/
def BeginsAt (c : Compilation) (b j : Nat) : Prop :=
  ∃ blk, c.blocks[b]? = some blk ∧ blk.kind = .basic
    ∧ (positionsOf c blk).head? = some (some (j : Int))

/-- A graph leads from one block to another, directly or through the block of a
    helper. -/
def LeadsTo (c : Compilation) (g : Digraph) (b b' : Nat) : Prop :=
  ((b : Int), (b' : Int)) ∈ g.edges
    ∨ ∃ (k : Nat) (helper : Block), c.blocks[k]? = some helper ∧ helper.kind = .call
        ∧ ((b : Int), (k : Int)) ∈ g.edges ∧ ((k : Int), (b' : Int)) ∈ g.edges

/-- A graph leads from the end of a block, at `i`, to the start of a block, at `j`. -/
def Crosses (c : Compilation) (g : Digraph) (i j : Nat) : Prop :=
  ∃ b b', EndsAt c b i ∧ BeginsAt c b' j ∧ LeadsTo c g b b'

/-! ## Programs that are cut -/

/-- A program that is not cut into blocks yet, with a text for each word. -/
structure Whole (c : Compilation) : Prop where
  branches : c.branches = {}
  blocks : c.blocks = #[Block.entry]
  schedule : c.schedule = unplaced c.words.size
  texts : c.texts.size = c.words.size

theorem whole_start {target : Target} {options : Options} {texts : Array String}
    (h : texts.size = words.size) :
    Whole (start target options words texts) :=
  ⟨rfl, rfl, rfl, h⟩

theorem Whole.uncut (hs : Whole s) (hwf : WellFormed s.words) : Uncut s :=
  ⟨hwf.noJumpBefore, hs.branches, hs.blocks, hs.schedule⟩

/-- A program that is cut into blocks which lie end to end and are all linked. -/
structure Analysed (words : Array Word) (c : Compilation) : Prop where
  laid : Laid Instr.Unmarked words c
  endToEnd : EndToEnd words c.blocks
  linked : ∀ (b : Nat) (blk : Block), c.blocks[b]? = some blk → Linked c b blk
  last : ∀ blk, c.blocks[c.blocks.size - 1]? = some blk → blk.kind = .exit
  flow : c.flow = some (graphOf c.blocks.toList)

/-- A program that is analysed, with basic blocks and helpers between an entry and an
    exit that are as they were cut. -/
structure Charted (words : Array Word) (c : Compilation) : Prop where
  analysed : Analysed words c
  entry : c.blocks[0]? = some Block.entry
  between : ∀ (b : Nat) (blk : Block), 0 < b → b + 1 < c.blocks.size → c.blocks[b]? = some blk →
    blk.kind = .basic ∨ blk.kind = .call
  exit : c.blocks[c.blocks.size - 1]? = some (exitAt words.size)

theorem stateAfter_buildGraph (c : Compilation) :
    ∃ dominators postdominators, stateAfter buildGraph c = { c with
      flow := some (graphOf c.blocks.toList), dominators, postdominators } := by
  have hkeeps : Keeps (fun t : Compilation => ∃ dominators postdominators, t = { c with
      flow := some (graphOf c.blocks.toList), dominators, postdominators }) (do
        if c.options.dominators then
          let d ← Dominance.find c.blocks.size (graphOf c.blocks.toList)
          modify fun c => { c with dominators := d }
          let p ← Dominance.find c.blocks.size (graphOf c.blocks.toList).reverse
          modify fun c => { c with postdominators := p }) := by
    apply keeps_ite _ (keeps_pure _)
    apply keeps_bind (keeps_lift _)
    intro d
    apply keeps_bind
    · apply keeps_modify
      rintro _ ⟨_, p, rfl⟩
      exact ⟨d, p, rfl⟩
    · intro _
      apply keeps_bind (keeps_lift _)
      intro p
      apply keeps_modify
      rintro _ ⟨d', _, rfl⟩
      exact ⟨d', p, rfl⟩
  exact Gives.stateAfter hkeeps (s := { c with flow := some (graphOf c.blocks.toList) })
    ⟨_, _, rfl⟩

theorem buildGraph_runs (h : c.options.dominators = false) :
    Runs buildGraph c () { c with flow := some (graphOf c.blocks.toList) } := by
  unfold buildGraph
  simp only [runs_get_bind, runs_set_bind, h, Bool.false_eq_true, if_false]
  exact runs_pure.mpr ⟨rfl, rfl⟩

theorem cutAndParse_runs (hs : Whole s) (hwf : WellFormed s.words) :
    ∃ d, Runs cutAndParse s () d := by
  obtain ⟨c₁, hr₁⟩ := findBranches_runs hwf
  obtain ⟨branches, rfl, hlisted⟩ := runs_findBranches hs.branches hr₁
  obtain ⟨c, hr₂⟩ := findBlocks_runs (c := { s with branches }) hwf
    (leaders_cuts hwf.noJumpBefore hlisted)
  obtain ⟨middle, hc⟩ := cutOf_findBlocks (hs.uncut hwf) hr₁ hr₂
  have hsched : s.schedule.size = s.words.size := by
    rw [hs.schedule]
    simp [unplaced]
  have hparse : ∃ d, Runs parseBlocks c () d := by
    apply hc.blank.parseBlocks_runs
    · rwa [hc.rest]
    · rw [hc.rest]
      exact hs.texts
    · rwa [hc.rest]
  obtain ⟨d, hr₃⟩ := hparse
  exact ⟨d, runs_bind.mpr ⟨(), _, hr₁, runs_bind.mpr ⟨(), _, hr₂, hr₃⟩⟩⟩

theorem analyse_finishes (hs : Whole s) (hwf : WellFormed s.words)
    (hoff : s.options.dominators = false) : finishes analyse s = true := by
  obtain ⟨d, hrun⟩ := cutAndParse_runs hs hwf
  have hopt : d.options.dominators = false := by
    rwa [(runs_cutAndParse (hs.uncut hwf) hrun).2]
  rw [analyse_eq]
  exact finishes_of_runs (runs_bind.mpr ⟨(), d, hrun, buildGraph_runs hopt⟩)

theorem charted_of_cutAndParse {d : Compilation} {dominators postdominators : Dominance}
    (hs : Uncut s) (hlead : HasLeader s.words) (h : Runs cutAndParse s u d) : Charted s.words
      { d with flow := some (graphOf d.blocks.toList), dominators, postdominators } := by
  obtain ⟨hlaid, -⟩ := runs_cutAndParse hs h
  obtain ⟨c, middle, hc, hparsed⟩ := cutOf_cutAndParse hs h
  have hblocks : c.blocks = (Block.entry :: (middle ++ [exitAt s.words.size])).toArray := by
    rw [hc.rest]
  have hchain := hc.chain
  rw [if_neg ((leaders_cuts hs.inside hc.listed).ne_nil hlead)] at hchain
  have hends : EndToEnd s.words d.blocks :=
    (hblocks ▸ hchain.endToEnd).of_outlines hparsed.outlines
  have hsize : d.blocks.size = middle.length + 2 := by
    have := congrArg Array.size hparsed.outlines
    simpa [hblocks] using this
  have hexit : d.blocks[d.blocks.size - 1]? = some (exitAt s.words.size) := by
    rw [hparsed.later _ (by omega), hsize, hblocks]
    simp
  refine ⟨⟨⟨hlaid.cut, ?_, hlaid.size, hlaid.fresh, hlaid.flow⟩, hends, ?_, ?_, rfl⟩, hparsed.entry,
    ?_, hexit⟩
  · intro b blk hblk hkind
    exact (hlaid.holds b blk hblk hkind).congr rfl rfl rfl
  · intro b blk hblk
    obtain ⟨hcall, hbasic⟩ := (hc.blank.done hparsed hblk).1
    exact ⟨hcall, hbasic⟩
  · intro blk hblk
    obtain rfl := Option.mem_unique hexit hblk
    rfl
  · intro b blk hlow hhigh hblk
    rcases hc.blank.sorts hparsed hblk with ⟨rfl, -⟩ | ⟨-, -, hkind⟩ | ⟨rfl, -⟩
    · omega
    · exact hkind
    · dsimp only at hhigh
      omega

theorem analysed_of_whole (hs : Whole s) (hwf : WellFormed s.words) (hlead : HasLeader s.words) :
    Analysed s.words (stateAfter analyse s) := by
  obtain ⟨d, hrun⟩ := cutAndParse_runs hs hwf
  obtain ⟨dominators, postdominators, hgraph⟩ := stateAfter_buildGraph d
  rw [analyse_eq, stateAfter_bind hrun, hgraph]
  exact (charted_of_cutAndParse (hs.uncut hwf) hlead hrun).analysed

theorem charted_of_analyse (hs : Uncut s) (hlead : HasLeader s.words) (h : Runs analyse s u c) :
    Charted s.words c := by
  rw [analyse_eq] at h
  obtain ⟨_, d, hrun, hg⟩ := runs_bind.mp h
  obtain ⟨dominators, postdominators, rfl⟩ := runs_buildGraph hg
  exact charted_of_cutAndParse hs hlead hrun

/-! ## Positions of blocks -/

/-- The positions between the start and the end of a block. -/
def spanOf (blk : Block) : List Int :=
  (List.range blk.len.toNat).map fun (k : Nat) => blk.start + k

theorem getElem?_spanOf : (spanOf blk)[k]? = some p ↔ (k : Int) < blk.len ∧ p = blk.start + k := by
  unfold spanOf
  rw [List.getElem?_map, Option.map_eq_some_iff]
  constructor
  · rintro ⟨n, hn, rfl⟩
    obtain ⟨hlt, rfl⟩ := List.getElem?_eq_some_iff.mp hn
    rw [List.length_range] at hlt
    exact ⟨by omega, by rw [List.getElem_range]⟩
  · rintro ⟨hk, rfl⟩
    exact ⟨k, List.getElem?_range (by omega), rfl⟩

theorem Laid.positionsOf_eq {Q : Instr → Prop} (h : Laid Q words c)
    (hb : c.blocks[b]? = some blk) (hkind : blk.kind = .basic) :
    positionsOf c blk = (spanOf blk).map some := by
  have hsize := (h.holds b blk hb hkind).size
  have hspan := h.cut.span b blk hb hkind
  apply List.ext_getElem?
  intro k
  unfold positionsOf spanOf
  by_cases hk : k < blk.body.size
  · obtain ⟨id, i, _, hid, hi, hstands, _⟩ := h.standsFor_index hb hkind hk
    rw [List.getElem?_map, h.bodyOf_getElem? hb hkind, hid, Option.bind_some, hi, Option.map_some,
      hstands.position]
    simp only [List.getElem?_map, List.getElem?_range (show k < blk.len.toNat by omega),
      Option.map_some]
    congr 2
    omega
  · rw [List.getElem?_eq_none, List.getElem?_eq_none]
    · simp only [List.length_map, List.length_range]
      omega
    · rw [List.length_map, h.bodyOf_length hb hkind]
      omega

section
variable (h : Analysed words c)
include h

theorem Analysed.positions_getElem? (hb : c.blocks[b]? = some blk) (hkind : blk.kind = .basic) :
    (positionsOf c blk)[k]? = some (some p) ↔ (k : Int) < blk.len ∧ p = blk.start + k := by
  rw [h.laid.positionsOf_eq hb hkind, List.getElem?_map, Option.map_eq_some_iff]
  simp [getElem?_spanOf]

theorem Analysed.endsAt_iff :
    EndsAt c b i ↔ ∃ blk, c.blocks[b]? = some blk ∧ blk.kind = .basic ∧ (i : Int) + 1 = blk.stop := by
  refine exists_congr fun blk => and_congr_right fun hb => and_congr_right fun hkind => ?_
  have hspan := h.laid.cut.span b blk hb hkind
  have hcount : (positionsOf c blk).length = blk.len.toNat := by
    rw [h.laid.positionsOf_eq hb hkind, List.length_map, spanOf, List.length_map, List.length_range]
  rw [List.getLast?_eq_getElem?, h.positions_getElem? hb hkind, hcount]
  unfold Block.stop at hspan ⊢
  omega

theorem Analysed.beginsAt_iff :
    BeginsAt c b j ↔ ∃ blk, c.blocks[b]? = some blk ∧ blk.kind = .basic ∧ blk.start = j := by
  refine exists_congr fun blk => and_congr_right fun hb => and_congr_right fun hkind => ?_
  have hspan := h.laid.cut.span b blk hb hkind
  unfold Block.stop at hspan
  rw [List.head?_eq_getElem?, h.positions_getElem? hb hkind]
  omega

theorem Analysed.adjacent_iff :
    Adjacent c i j ↔ j = i + 1 ∧ ∃ (b : Nat) (blk : Block), c.blocks[b]? = some blk
      ∧ blk.kind = .basic ∧ blk.start ≤ i ∧ (i : Int) + 1 < blk.stop := by
  constructor
  · rintro ⟨b, blk, k, hb, hkind, rfl, hi, hj⟩
    rw [h.positions_getElem? hb hkind] at hi hj
    refine ⟨rfl, b, blk, hb, hkind, by omega, ?_⟩
    unfold Block.stop
    omega
  · rintro ⟨rfl, b, blk, hb, hkind, hlow, hhigh⟩
    unfold Block.stop at hhigh
    refine ⟨b, blk, ((i : Int) - blk.start).toNat, hb, hkind, rfl, ?_, ?_⟩
    · rw [h.positions_getElem? hb hkind]
      omega
    · rw [h.positions_getElem? hb hkind]
      omega

end

/-! ## Edges -/

theorem mem_edges_graphOf {blocks : List Block} {a : Int} :
    (a, x) ∈ (graphOf blocks).edges ↔ ∃ (b : Nat) (blk : Block), blocks[b]? = some blk ∧ a = b
      ∧ (x ∈ blk.taken ∨ blk.fall = some x) := by
  unfold graphOf edgesFrom
  rw [Digraph.mem_edges_ofLists]
  simp only [List.mem_flatMap, List.mem_map, List.mem_append, Option.mem_toList, Prod.mk.injEq,
    Prod.exists, List.mk_mem_zipIdx_iff_getElem?]
  constructor
  · rintro (⟨_, _, ⟨blk, b, hb, rfl, rfl⟩, ⟨t, ht, rfl, rfl⟩ | ⟨t, ht, rfl, rfl⟩⟩)
    · exact ⟨b, blk, hb, rfl, .inl ht⟩
    · exact ⟨b, blk, hb, rfl, .inr ht⟩
  · rintro ⟨b, blk, hb, rfl, hx⟩
    refine ⟨b, blk, ⟨blk, b, hb, rfl, rfl⟩, ?_⟩
    rcases hx with hx | hx
    · exact .inl ⟨x, hx, rfl, rfl⟩
    · exact .inr ⟨x, hx, rfl, rfl⟩

theorem edges_of_block (hb : c.blocks[b]? = some blk) :
    ((b : Int), x) ∈ (graphOf c.blocks.toList).edges ↔
      x ∈ blk.taken ∨ blk.fall = some x := by
  rw [mem_edges_graphOf]
  constructor
  · rintro ⟨b', blk', hb', hbb, hx⟩
    obtain rfl : b = b' := by omega
    rw [Array.getElem?_toList, hb] at hb'
    cases hb'
    exact hx
  · intro hx
    exact ⟨b, blk, by rw [Array.getElem?_toList]; exact hb, rfl, hx⟩

/-! ## The ends of blocks -/

theorem Analysed.follows_iff (h : Analysed words c) {b' : Nat} (hnext : c.blocks[b']? = some next)
    (hfollows : Follows words.size blk next) (hstop : (i : Int) + 1 = blk.stop) :
    BeginsAt c b' j ↔ j = i + 1 ∧ i + 1 < words.size := by
  rw [h.beginsAt_iff]
  obtain ⟨hstart, hor⟩ := hfollows
  constructor
  · rintro ⟨blk', hb', hkind, hs⟩
    rw [hnext] at hb'
    cases hb'
    have hspan := h.laid.cut.span b' next hnext hkind
    omega
  · intro hj
    refine ⟨next, hnext, ?_, by omega⟩
    rcases hor with hbasic | ⟨_, hsize⟩
    · exact hbasic
    · omega

theorem Follows.not_call {size : Nat} (h : Follows size blk next) : next.kind ≠ .call := by
  intro hcall
  obtain ⟨_, hbasic | ⟨hexit, _⟩⟩ := h
  · rw [hcall] at hbasic
    cases hbasic
  · rw [hcall] at hexit
    cases hexit

theorem passes_iff (hw : WordAt words i f) :
    Passes words i j ↔
      (f.isExit = false ∧ f.isGoto = false ∧ j = i + 1 ∧ i + 1 < words.size)
        ∨ (f.isJump = true ∧ (j : Int) = (i : Int) + f.offset + 1 ∧ j < words.size) := by
  constructor
  · intro h
    cases h with
    | next hw' hexit hgoto hlt =>
      rw [← hw.unique hw'] at hexit hgoto
      exact .inl ⟨hexit, hgoto, rfl, hlt⟩
    | jump hw' hj htarget hlt =>
      rw [← hw.unique hw'] at hj htarget
      exact .inr ⟨hj, htarget, hlt⟩
  · intro h
    rcases h with ⟨hexit, hgoto, rfl, hlt⟩ | ⟨hj, htarget, hlt⟩
    · exact Passes.next hw hexit hgoto hlt
    · exact Passes.jump hw hj htarget hlt

theorem Analysed.leads_nowhere (h : Analysed words c)
    (hone : ∀ x, ((b : Int), x) ∈ (graphOf c.blocks.toList).edges ↔ x = (c.blocks.size : Int) - 1) :
    ¬ ∃ b', BeginsAt c b' j ∧ LeadsTo c (graphOf c.blocks.toList) b b' := by
  have hkinds : ∀ (b' : Nat) (blk' : Block), c.blocks[b']? = some blk' →
      ((b : Int), (b' : Int)) ∈ (graphOf c.blocks.toList).edges → blk'.kind = .exit := by
    intro b' blk' hb' hedge
    have hlast : b' = c.blocks.size - 1 := by
      have := (hone _).mp hedge
      omega
    exact h.last blk' (hlast ▸ hb')
  rintro (⟨b', ⟨blk', hb', hbasic, _⟩, hedge | ⟨k, blk'', hk, hkcall, hedge, _⟩⟩)
  · rw [hkinds b' blk' hb' hedge] at hbasic
    cases hbasic
  · rw [hkinds k blk'' hk hedge] at hkcall
    cases hkcall

section
variable (h : Analysed words c) (hb : c.blocks[b]? = some blk) (hkind : blk.kind = .basic)
  (hstop : (i : Int) + 1 = blk.stop)
include h hb hkind hstop

section
variable (hid : blk.body[blk.body.size - 1]? = some id) (ha : c.store[id]? = some a)
  (hf : Fields.decode a.word = .ok f)
include hid ha hf

theorem Analysed.last_word : WordAt words i f := by
  have hspan := h.laid.cut.span b blk hb hkind
  have hsize := (h.laid.holds b blk hb hkind).size
  obtain ⟨a', ha', hstands, _⟩ := (h.laid.holds b blk hb hkind).instr _ id hid
  rw [ha] at ha'
  cases ha'
  have hpos : blk.start.toNat + (blk.body.size - 1) = i := by
    unfold Block.stop at hspan hstop
    omega
  rw [hpos] at hstands
  exact ⟨a.word, hstands.word, hf⟩

theorem Analysed.target_block {t : Int} (hj : f.isJump = true) (ht : a.jumpsTo = some t) :
    ∃ (t₀ : Nat) (tblk : Block), t = t₀ ∧ c.blocks[t₀]? = some tblk ∧ tblk.kind = .basic
      ∧ tblk.start = (i : Int) + f.offset + 1 := by
  have hspan := h.laid.cut.span b blk hb hkind
  have hholds := h.laid.holds b blk hb hkind
  obtain ⟨t₀, tblk, hto, htb, htk, hts⟩ := hholds.jump _ id a f hid ha hf hj
  rw [ht] at hto
  refine ⟨t₀, tblk, Option.some.inj hto, htb, htk, ?_⟩
  have hsize := hholds.size
  unfold Block.stop at hspan hstop
  omega

end

theorem Analysed.next_of_not_call (hw : WordAt words i f) (hcall : f.isCall = false) :
    ∃ next, c.blocks[b + 1]? = some next ∧ Follows words.size blk next := by
  obtain ⟨next, hfollows, hnext | ⟨helper, f', _, _, _, hw', hcall'⟩⟩ := h.endToEnd.next b blk hb hkind
  · exact ⟨next, hnext, hfollows⟩
  · have hi : (blk.stop - 1).toNat = i := by omega
    rw [hi] at hw'
    rw [← hw.unique hw', hcall] at hcall'
    cases hcall'

/-- A block with one edge, to the block with the next number, leads to the next
    position. A helper that stands between is passed through. -/
theorem Analysed.leads_next
    (hone : ∀ x, ((b : Int), x) ∈ (graphOf c.blocks.toList).edges ↔ x = (b : Int) + 1) :
    (∃ b', BeginsAt c b' j ∧ LeadsTo c (graphOf c.blocks.toList) b b') ↔
      j = i + 1 ∧ i + 1 < words.size := by
  obtain ⟨next, hfollows, hnext | ⟨helper, _, hhelper, hcall, hnext, _⟩⟩ :=
    h.endToEnd.next b blk hb hkind
  · rw [← h.follows_iff hnext hfollows hstop]
    constructor
    · rintro (⟨b', hbegin, hedge | ⟨k, blk', hk, hkcall, hedge, _⟩⟩)
      · have hb' : b' = b + 1 := by
          have := (hone _).mp hedge
          omega
        rwa [← hb']
      · have hk' : k = b + 1 := by
          have := (hone _).mp hedge
          omega
        rw [hk', hnext] at hk
        cases hk
        exact absurd hkcall hfollows.not_call
    · intro hbegin
      exact ⟨b + 1, hbegin, .inl ((hone _).mpr (by omega))⟩
  · -- the only edge of the helper leads on to the block behind it
    have hhelp : ∀ x, (((b + 1 : Nat) : Int), x) ∈ (graphOf c.blocks.toList).edges ↔
        x = (b : Int) + 2 := by
      intro x
      obtain ⟨htaken, hfall⟩ := (h.linked _ _ hhelper).call hcall
      rw [edges_of_block hhelper, htaken, hfall]
      simp only [List.not_mem_nil, false_or, Option.some.injEq]
      omega
    rw [← h.follows_iff hnext hfollows hstop]
    constructor
    · rintro (⟨b', hbegin, hedge | ⟨k, blk', hk, hkcall, hedge, hedge'⟩⟩)
      · have hb' : b' = b + 1 := by
          have := (hone _).mp hedge
          omega
        obtain ⟨blk', hblk', hbasic, _⟩ := hbegin
        rw [hb', hhelper] at hblk'
        cases hblk'
        rw [hcall] at hbasic
        cases hbasic
      · have hk' : k = b + 1 := by
          have := (hone _).mp hedge
          omega
        subst hk'
        have hb' : b' = b + 2 := by
          have := (hhelp _).mp hedge'
          omega
        rwa [← hb']
    · intro hbegin
      refine ⟨b + 2, hbegin, .inr ⟨b + 1, helper, hhelper, hcall, ?_, ?_⟩⟩
      · exact (hone _).mpr (by omega)
      · exact (hhelp _).mpr (by omega)

/-- A block that ends in a jump leads to the block at its target, and to the next one
    if the jump can be passed. -/
theorem Analysed.leads_jump {t₀ : Nat} {tblk : Block}
    (hw : WordAt words i f) (hj : f.isJump = true) (ht : c.blocks[t₀]? = some tblk)
    (htkind : tblk.kind = .basic) (htstart : tblk.start = (i : Int) + f.offset + 1)
    (hedges : ∀ x, ((b : Int), x) ∈ (graphOf c.blocks.toList).edges ↔ x = t₀ ∨ f.isGoto = false ∧ x
      = (b : Int) + 1) :
    (∃ b', BeginsAt c b' j ∧ LeadsTo c (graphOf c.blocks.toList) b b') ↔ Passes words i j := by
  obtain ⟨hexit, hcall⟩ := isJump_excludes hj
  obtain ⟨next, hnext, hfollows⟩ := h.next_of_not_call hb hkind hstop hw hcall
  have htarget : BeginsAt c t₀ j ↔ (j : Int) = (i : Int) + f.offset + 1 ∧ j < words.size := by
    rw [h.beginsAt_iff]
    have hspan := h.laid.cut.span t₀ tblk ht htkind
    constructor
    · rintro ⟨blk', hb', _, hs⟩
      rw [ht] at hb'
      cases hb'
      omega
    · intro hpos
      exact ⟨tblk, ht, htkind, by omega⟩
  rw [passes_iff hw]
  constructor
  · rintro (⟨b', hbegin, hedge | ⟨k, blk', hk, hkcall, hedge, _⟩⟩)
    · rcases (hedges _).mp hedge with heq | ⟨hgoto, heq⟩
      · obtain rfl : b' = t₀ := by omega
        exact .inr ⟨hj, htarget.mp hbegin⟩
      · obtain rfl : b' = b + 1 := by omega
        exact .inl ⟨hexit, hgoto, (h.follows_iff hnext hfollows hstop).mp hbegin⟩
    · -- neither the target nor the next block is that of a helper
      exfalso
      rcases (hedges _).mp hedge with heq | ⟨_, heq⟩
      · obtain rfl : k = t₀ := by omega
        rw [ht] at hk
        cases hk
        rw [htkind] at hkcall
        cases hkcall
      · obtain rfl : k = b + 1 := by omega
        rw [hnext] at hk
        cases hk
        exact hfollows.not_call hkcall
  · intro hpass
    rcases hpass with ⟨_, hgoto, hnextpos⟩ | ⟨_, hpos⟩
    · refine ⟨b + 1, (h.follows_iff hnext hfollows hstop).mpr hnextpos, .inl ?_⟩
      exact (hedges _).mpr (.inr ⟨hgoto, by omega⟩)
    · exact ⟨t₀, htarget.mpr hpos, .inl ((hedges _).mpr (.inl rfl))⟩

theorem Analysed.leads_iff_passes :
    (∃ b', BeginsAt c b' j ∧ LeadsTo c (graphOf c.blocks.toList) b b') ↔ Passes words i j := by
  obtain ⟨id, a, f, t, hid, ha, hf, hjump, hlinks⟩ := (h.linked b blk hb).basic hkind
  have hw := h.last_word hb hkind hstop hid ha hf
  have hedges : ∀ x, ((b : Int), x) ∈ (graphOf c.blocks.toList).edges ↔
      x ∈ (linksOf c.blocks.size b f t).1 ∨ (linksOf c.blocks.size b f t).2 = some x := by
    intro x
    rw [edges_of_block hb, ← hlinks]
  unfold linksOf at hedges
  by_cases hcall : f.isCall = true
  · obtain ⟨hexit, hgoto⟩ := not_goto_of_isCall hcall
    have hj := not_isJump_of_isCall hcall
    rw [h.leads_next hb hkind hstop (by simpa [hcall] using hedges), passes_iff hw]
    simp [hexit, hgoto, hj]
  · by_cases hj : f.isJump = true
    · obtain ⟨t₀, tblk, rfl, ht, htkind, htstart⟩ :=
        h.target_block hb hkind hstop hid ha hf hj (hjump hj)
      apply h.leads_jump hb hkind hstop hw hj ht htkind htstart
      intro x
      rw [hedges]
      cases hgoto : f.isGoto <;> simp [hcall, hj, eq_comm]
    · have hgoto := not_isGoto_of_not_isJump (by simpa using hj)
      by_cases hexit : f.isExit = true
      · have hnowhere := h.leads_nowhere (b := b) (j := j) fun x => by
          rw [hedges]
          simp [hcall, hj, hexit]
        rw [passes_iff hw]
        simpa [hexit, hj] using hnowhere
      · have hone : ∀ x, ((b : Int), x) ∈ (graphOf c.blocks.toList).edges ↔ x = (b : Int) + 1 := by
          intro x
          rw [hedges]
          simp [hcall, hj, hexit, eq_comm]
        rw [h.leads_next hb hkind hstop hone, passes_iff hw]
        simp [hexit, hgoto, hj]

end
/-! ## The flow graph is exact -/

theorem Analysed.passes_inside (h : Analysed words c) (hwf : WellFormed words)
    (hb : c.blocks[b]? = some blk) (hkind : blk.kind = .basic) (hlow : blk.start ≤ i)
    (hhigh : (i : Int) + 1 < blk.stop) : Passes words i j ↔ j = i + 1 := by
  obtain ⟨_, _, hstop⟩ := h.laid.cut.span b blk hb hkind
  obtain ⟨f, w, hw, hf⟩ := hwf.decodes i (by omega)
  have hplain := h.laid.cut.branch b blk i w f hb hkind hlow hhigh hw hf
  have hnone : ¬ (f.isJump = true ∨ f.isCall = true ∨ f.isExit = true) := by
    rw [← isBranch_iff, hplain]
    decide
  simp only [not_or, Bool.not_eq_true] at hnone
  obtain ⟨hj, _, hexit⟩ := hnone
  have hgoto := not_isGoto_of_not_isJump hj
  rw [passes_iff ⟨w, hw, hf⟩]
  simp only [hexit, hgoto, hj, Bool.false_eq_true, true_and, false_and, or_false]
  omega

theorem Analysed.passes_iff_graph (h : Analysed words c) (hwf : WellFormed words) :
    Passes words i j ↔ Adjacent c i j ∨ Crosses c (graphOf c.blocks.toList) i j := by
  constructor
  · intro hpass
    have hi : i < words.size := by
      cases hpass with
      | next hw _ _ _ => exact hw.lt
      | jump hw _ _ _ => exact hw.lt
    obtain ⟨b, blk, hb, hkind, hlow, hhigh⟩ := h.endToEnd.covers i hi
    by_cases hlast : (i : Int) + 1 < blk.stop
    · have hj := (h.passes_inside hwf hb hkind hlow hlast).mp hpass
      exact .inl (h.adjacent_iff.mpr ⟨hj, b, blk, hb, hkind, hlow, hlast⟩)
    · have hstop : (i : Int) + 1 = blk.stop := by omega
      obtain ⟨b', hbegin, hleads⟩ := (h.leads_iff_passes hb hkind hstop).mpr hpass
      exact .inr ⟨b, b', h.endsAt_iff.mpr ⟨blk, hb, hkind, hstop⟩, hbegin, hleads⟩
  · intro hgraph
    rcases hgraph with hadj | ⟨b, b', hend, hbegin, hleads⟩
    · obtain ⟨hj, b, blk, hb, hkind, hlow, hhigh⟩ := h.adjacent_iff.mp hadj
      exact (h.passes_inside hwf hb hkind hlow hhigh).mpr hj
    · obtain ⟨blk, hb, hkind, hstop⟩ := h.endsAt_iff.mp hend
      exact (h.leads_iff_passes hb hkind hstop).mp ⟨b', hbegin, hleads⟩

theorem Analysed.branch_last (h : Analysed words c) (hb : c.blocks[b]? = some blk)
    (hkind : blk.kind = .basic) (ha : (c.bodyOf blk)[k]? = some a)
    (hf : Fields.decode a.word = .ok f) (hbranch : f.isBranch = true) :
    k + 1 = (c.bodyOf blk).length := by
  have hlen := h.laid.bodyOf_length hb hkind
  have hk : k < blk.body.size := hlen ▸ (List.getElem?_eq_some_iff.mp ha).1
  have hsize := (h.laid.holds b blk hb hkind).size
  obtain ⟨hlow, _, _⟩ := h.laid.cut.span b blk hb hkind
  obtain ⟨id, a', f', hid, ha', hstands, hf'⟩ := h.laid.standsFor_index hb hkind hk
  rw [h.laid.bodyOf_getElem? hb hkind, hid, Option.bind_some, ha'] at ha
  cases ha
  by_cases hlast : k + 1 = blk.body.size
  · rwa [hlen]
  · have hplain := h.laid.cut.branch b blk _ a.word f hb hkind (by omega)
      (by unfold Block.stop; omega) hstands.word hf
    rw [hplain] at hbranch
    cases hbranch

/-- Control passes from one instruction to another exactly if they stand next to each
    other in a block or the flow graph leads from the end of a block, at the one, to the
    start of a block, at the other; and only the last instruction of a block is a
    branch. The flow graph is there even if the search for dominators stops. -/
theorem flow_graph_exact {s : Compilation} (hs : Whole s) (hwf : WellFormed s.words)
    (hlead : HasLeader s.words) :
    (s.options.dominators = false → finishes analyse s = true)
      ∧ ∃ g, (stateAfter analyse s).flow = some g
        ∧ (∀ i j, Passes s.words i j ↔
            Adjacent (stateAfter analyse s) i j ∨ Crosses (stateAfter analyse s) g i j)
        ∧ ∀ (b : Nat) (blk : Block) (k : Nat) (a : Instr) (f : Fields),
            (stateAfter analyse s).blocks[b]? = some blk → blk.kind = .basic →
            ((stateAfter analyse s).bodyOf blk)[k]? = some a → Fields.decode a.word = .ok f →
            f.isBranch = true → k + 1 = ((stateAfter analyse s).bodyOf blk).length := by
  have h := analysed_of_whole hs hwf hlead
  refine ⟨analyse_finishes hs hwf, _, h.flow, ?_, ?_⟩
  · intro i j
    exact h.passes_iff_graph hwf
  · intro b blk k a f hb hkind ha hf hbranch
    exact h.branch_last hb hkind ha hf hbranch

/-- Two calls, one of them in a loop: a conditional jump leads out of it. -/
def callsAndLoop : Array Word :=
  #[0x8500000008000000, 0x1500020000000000, 0x8500000005000000, 0x0500fdff00000000,
    0x9500000000000000]

/-- The jump at the end of the loop leads back to the test, and so does the graph. -/
theorem flow_graph_exact_callsAndLoop :
    Whole (start {} {} callsAndLoop (callsAndLoop.map fun _ => "")) ∧ WellFormed callsAndLoop
      ∧ HasLeader callsAndLoop
      ∧ finishes analyse (start {} {} callsAndLoop (callsAndLoop.map fun _ => "")) = true
      ∧ ∃ g, (stateAfter analyse (start {} {} callsAndLoop (callsAndLoop.map fun _ => ""))).flow
          = some g
        ∧ Crosses (stateAfter analyse (start {} {} callsAndLoop (callsAndLoop.map fun _ => "")))
            g 3 1 := by
  have hs : Whole (start {} {} callsAndLoop (callsAndLoop.map fun _ => "")) :=
    whole_start (by simp)
  have hwf : WellFormed callsAndLoop := by decide +kernel
  have hlead : HasLeader callsAndLoop :=
    ⟨3, _, ⟨_, rfl, rfl⟩, Or.inl (by decide +kernel)⟩
  obtain ⟨hfinishes, g, hflow, hpasses, _⟩ := flow_graph_exact hs hwf hlead
  have hback : Passes callsAndLoop 3 1 :=
    Passes.jump ⟨_, rfl, rfl⟩ (by decide +kernel) (by decide +kernel) (by decide)
  refine ⟨hs, hwf, hlead, hfinishes rfl, g, hflow, ?_⟩
  rcases (hpasses 3 1).mp hback with hadj | hcross
  · obtain ⟨_, _, _, _, _, hnext, _⟩ := hadj
    cases hnext
  · exact hcross

end Flow
end BpfLanes
