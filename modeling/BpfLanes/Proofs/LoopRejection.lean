import BpfLanes.Proofs.GlobalLiveness
import BpfLanes.Proofs.SlotTable

/-! # Programs with loops

Rows are only made for programs without loops. A loop of instructions is a loop of
blocks, since control leaves a block at its end and enters one at its start only.
A flow graph with a cycle has no order by generations, so the search for live
registers stops a compilation with a loop, whatever it was asked to do. Until then
no step writes to the table of rows.
-/

namespace BpfLanes

open Compilation

variable {s : Compilation} {g : Digraph}

/-! ## Loops of instructions are loops of blocks -/

namespace Flow

/-- The instruction at `i` is one of the basic block `b`. -/
def StandsIn (c : Compilation) (b i : Nat) : Prop :=
  ∃ blk, c.blocks[b]? = some blk ∧ blk.kind = .basic ∧ blk.start ≤ i ∧ (i : Int) < blk.stop

variable {words : Array Word} {c : Compilation} {b b' i j : Nat}

theorem CutWell.standsIn_unique (h : CutWell words c.blocks) (hb : StandsIn c b i)
    (hb' : StandsIn c b' i) : b = b' := by
  obtain ⟨blk, hblk, hkind, hlow, hhigh⟩ := hb
  obtain ⟨blk', hblk', hkind', hlow', hhigh'⟩ := hb'
  rcases Nat.lt_trichotomy b b' with hlt | heq | hlt
  · have := h.disjoint hblk hblk' hkind hkind' hlt
    omega
  · exact heq
  · have := h.disjoint hblk' hblk hkind' hkind hlt
    omega

theorem LeadsTo.transGen (h : LeadsTo c g b b') : Relation.TransGen g.Edge b b' := by
  rcases h with hedge | ⟨k, _, _, _, hin, hout⟩
  · exact Relation.TransGen.single hedge
  · exact (Relation.TransGen.single hin).tail hout

section
variable (h : Analysed words c) (hwf : WellFormed words)
include h hwf

theorem Analysed.passes_blocks (hi : StandsIn c b i) (hpass : Passes words i j) :
    ∃ b', StandsIn c b' j ∧ (b' = b ∧ i < j
      ∨ Relation.TransGen (graphOf c.blocks.toList).Edge b b') := by
  rcases (h.passes_iff_graph hwf).mp hpass with hadj | ⟨b₁, b₂, hend, hbegin, hleads⟩
  · obtain ⟨rfl, b₁, blk, hblk, hkind, hlow, hhigh⟩ := h.adjacent_iff.mp hadj
    have hb : b = b₁ := h.laid.cut.standsIn_unique hi ⟨blk, hblk, hkind, hlow, by omega⟩
    subst hb
    exact ⟨b, ⟨blk, hblk, hkind, by omega, by omega⟩, .inl ⟨rfl, by omega⟩⟩
  · obtain ⟨blk, hblk, hkind, hstop⟩ := h.endsAt_iff.mp hend
    obtain ⟨next, hnext, hkind', hstart⟩ := h.beginsAt_iff.mp hbegin
    have hspan := h.laid.cut.span b₁ blk hblk hkind
    have hspan' := h.laid.cut.span b₂ next hnext hkind'
    have hb : b = b₁ := h.laid.cut.standsIn_unique hi ⟨blk, hblk, hkind, by omega, by omega⟩
    subst hb
    exact ⟨b₂, ⟨next, hnext, hkind', by omega, by omega⟩, .inr hleads.transGen⟩

theorem Analysed.path_blocks (hi : StandsIn c b i) (hpath : Relation.TransGen (Passes words) i j) :
    ∃ b', StandsIn c b' j ∧ (b' = b ∧ i < j
      ∨ Relation.TransGen (graphOf c.blocks.toList).Edge b b') := by
  induction hpath with
  | single hstep => exact h.passes_blocks hwf hi hstep
  | tail _ hstep ih =>
    obtain ⟨b₁, hj, hor⟩ := ih
    obtain ⟨b₂, hk, hor'⟩ := h.passes_blocks hwf hj hstep
    refine ⟨b₂, hk, ?_⟩
    rcases hor with ⟨rfl, hlt⟩ | hedges
    · rcases hor' with ⟨rfl, hlt'⟩ | hedges'
      · exact .inl ⟨rfl, by omega⟩
      · exact .inr hedges'
    · rcases hor' with ⟨rfl, _⟩ | hedges'
      · exact .inr hedges
      · exact .inr (hedges.trans hedges')

theorem Analysed.not_acyclic (hloop : Relation.TransGen (Passes words) i i) :
    ¬ (graphOf c.blocks.toList).Acyclic := by
  have hi : i < words.size := by
    obtain ⟨j, hstep, -⟩ := Relation.TransGen.head'_iff.mp hloop
    cases hstep with
    | next hw _ _ _ => exact hw.lt
    | jump hw _ _ _ => exact hw.lt
  obtain ⟨b, hb⟩ := h.endToEnd.covers i hi
  obtain ⟨b', hb', ⟨_, hlt⟩ | hedges⟩ := h.path_blocks hwf hb hloop
  · omega
  · -- the way back ends in the block where it began
    have heq : b = b' := h.laid.cut.standsIn_unique hb hb'
    subst heq
    intro hac
    exact hac b hedges

end

theorem hasLeader_of_loop (hloop : Relation.TransGen (Passes words) i i) : HasLeader words := by
  by_contra hlead
  have hforward : ∀ a b, Relation.TransGen (Passes words) a b → a < b := by
    intro a b hpath
    have hstep : ∀ a b, Passes words a b → a < b := by
      intro a b hstep
      cases hstep with
      | next _ _ _ _ => omega
      | jump hw hj _ _ => exact absurd ⟨a, _, hw, .inl hj⟩ hlead
    induction hpath with
    | single h => exact hstep _ _ h
    | tail _ h ih => exact Nat.lt_trans ih (hstep _ _ h)
  exact Nat.lt_irrefl i (hforward i i hloop)

end Flow

/-! ## Steps before the live registers -/

variable {c d : Compilation}

theorem Flow.Whole.table_after_analyse (hs : Flow.Whole s) (hwf : Flow.WellFormed s.words) :
    (stateAfter Flow.analyse s).table = s.table := by
  obtain ⟨d, hrun⟩ := Flow.cutAndParse_runs hs hwf
  obtain ⟨-, hrest⟩ := Flow.runs_cutAndParse (hs.uncut hwf) hrun
  obtain ⟨dominators, postdominators, hgraph⟩ := Flow.stateAfter_buildGraph d
  rw [Flow.analyse_eq, stateAfter_bind hrun, hgraph]
  show d.table = s.table
  rw [hrest]

theorem keeps_flow_setBlock {b : Int} {blk : Block} :
    Keeps (fun c => c.flow = s.flow) (setBlock b blk) := by
  apply gives_bind (gives_get fun c hc => hc)
  intro c hc
  exact keeps_bind (keeps_lift _) fun _ => keeps_set hc

theorem acyclic_of_acrossBlocks {u : Unit} (hg : g.Simple) (hflow : c.flow = some g)
    (h : Runs Liveness.acrossBlocks c u d) : g.Acyclic := by
  rw [Liveness.acrossBlocks_eq, runs_get_bind] at h
  obtain ⟨_, c₁, hsum, h⟩ := runs_bind.mp h
  have hkept : c₁.flow = c.flow := by
    have hloop : Keeps (fun s => s.flow = c.flow)
        ((List.range c.blocks.size).forM Liveness.summariseBlock) := by
      apply keeps_forM
      intro b _
      apply keeps_bind keeps_block
      intro blk
      apply keeps_bind keeps_flow_setBlock
      intro _
      apply keeps_bind keeps_body
      intro is
      exact keeps_bind (keeps_lift _) fun _ => keeps_flow_setBlock
    exact hloop.runs hsum rfl
  simp only [runs_flowGraph_bind, runs_lift_bind] at h
  obtain ⟨g', hg', order, horder, -⟩ := h
  obtain rfl : g = g' := Option.mem_unique hflow (hkept.symm.trans hg')
  exact (Digraph.acyclic_of_byGenerations hg.reverse horder).of_reverse hg

namespace Optimize

/-- What comes after the registers are known that are live between blocks. -/
def conclude (options : Options) : CompileM Unit := do
  Liveness.insideBlocks
  onRequest options.removeBoundChecks do
    let _ ← BoundCheck.removeAll
    pure ()
  onRequest options.advanced Removal.advanced
  onRequest (!options.removeBoundChecks) Removal.advanced
  layOut

theorem run_eq_acrossBlocks : run = (do
    let c ← get
    Flow.analyse
    polish c.options
    Liveness.acrossBlocks
    conclude c.options) := by
  unfold run improve polish Liveness.analyse conclude
  simp only [bind_assoc]

section
variable (hs : Flow.Whole s) (hwf : Flow.WellFormed s.words) {i : Nat}
  (hloop : Relation.TransGen (Flow.Passes s.words) i i)
include hs hwf hloop

theorem fails_of_loop : ∃ e d, Fails run s e d ∧ d.table = s.table := by
  have hlead := Flow.hasLeader_of_loop hloop
  have hcut := Flow.analysed_of_whole hs hwf hlead
  have htable := hs.table_after_analyse hwf
  simp only [run_eq_acrossBlocks, fails_get_bind]
  cases hanalyse : Flow.analyse.run s with
  | error e d =>
    -- the search for dominators found the cycle first
    unfold stateAfter at htable
    rw [hanalyse] at htable
    exact ⟨e, d, fails_bind.mpr (.inl hanalyse), htable⟩
  | ok u c =>
    rw [stateAfter_of_runs hanalyse] at hcut htable
    have hkept : ∀ d, Rewritten c.words c d → d.flow = c.flow ∧ d.table = s.table := by
      intro d hd
      rw [hd.rest]
      exact ⟨rfl, htable⟩
    cases hpolish : (polish s.options).run c with
    | error e d =>
      have hd := Gives.fails keeps_polish hpolish (rewritten_refl (JumpsFrom.refl c.words))
      refine ⟨e, d, fails_bind.mpr (.inr ⟨u, c, hanalyse, ?_⟩), (hkept d hd).2⟩
      exact fails_bind.mpr (.inl hpolish)
    | ok v d =>
      obtain ⟨hflow, hd⟩ := hkept d
        (keeps_polish.runs hpolish (rewritten_refl (JumpsFrom.refl c.words)))
      cases hacross : Liveness.acrossBlocks.run d with
      | ok w d' =>
        exfalso
        apply hcut.not_acyclic hwf hloop
        exact acyclic_of_acrossBlocks Digraph.simple_ofLists (hflow.trans hcut.flow) hacross
      | error e d' =>
        have hd' := sameSetting_of_relabelled
          (Gives.fails keeps_acrossBlocks hacross (Relabelled.refl d))
        refine ⟨e, d', fails_bind.mpr (.inr ⟨u, c, hanalyse, ?_⟩), hd'.table.trans hd⟩
        exact fails_bind.mpr (.inr ⟨v, d, hpolish, fails_bind.mpr (.inl hacross)⟩)

end

/-- A program in which control can come back to an instruction is never compiled,
    whatever is asked for, and every slot of the table is still empty where the
    compilation stops. -/
theorem loops_stop_compilation {target : Target} {options : Options} {words : Array Word}
    {texts : Array String} (htexts : texts.size = words.size) (hwf : Flow.WellFormed words)
    (hloop : ∃ i, Relation.TransGen (Flow.Passes words) i i) :
    finishes run (start target options words texts) = false
      ∧ ∀ row ∈ (stateAfter run (start target options words texts)).table,
          ∀ slot ∈ row, slot = none := by
  obtain ⟨i, hloop⟩ := hloop
  obtain ⟨e, d, hfails, htable⟩ := fails_of_loop
    (s := start target options words texts) (Flow.whole_start htexts) hwf hloop
  unfold Fails at hfails
  unfold finishes stateAfter
  rw [hfails]
  refine ⟨rfl, ?_⟩
  intro row hrow slot hslot
  rw [htable] at hrow
  simp only [start, Array.mem_map] at hrow
  obtain ⟨w, _, rfl⟩ := hrow
  exact Array.eq_of_mem_replicate hslot

/-- An exit, and behind it a jump to itself that nothing leads to. -/
def loopBehindExit : Array Word :=
  #[0x9500000000000000, 0x0500ffff00000000]

theorem loops_stop_compilation_loopBehindExit :
    Flow.WellFormed loopBehindExit ∧ Flow.Passes loopBehindExit 1 1
      ∧ finishes run (start {} { removeBoundChecks := true } loopBehindExit #["exit", "goto -1"])
          = false
      ∧ ∀ row ∈ (stateAfter run
          (start {} { removeBoundChecks := true } loopBehindExit #["exit", "goto -1"])).table,
          ∀ slot ∈ row, slot = none := by
  have hwf : Flow.WellFormed loopBehindExit := by decide +kernel
  have hself : Flow.Passes loopBehindExit 1 1 :=
    Flow.Passes.jump ⟨_, rfl, rfl⟩ (by decide +kernel) (by decide +kernel) (by decide)
  exact ⟨hwf, hself,
    loops_stop_compilation rfl hwf ⟨1, Relation.TransGen.single hself⟩⟩

end Optimize
end BpfLanes
