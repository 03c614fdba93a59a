import BpfLanes.Proofs.BlockSummary
import Mathlib.Data.Finset.Prod

/-! # Rounds of the search for live registers

A round visits every block once. It only adds registers, and only such that really
are live; a round that adds none leaves every block in agreement with its
successors. Since there are only so many registers and blocks, such a round comes.
-/

namespace BpfLanes.Liveness

open Compilation

variable {blk new x : Block} {g : Digraph} {r : Int} {b count : Nat}
  {noted noted' : Nat → Int → Prop}

variable {c t t' : Compilation}

/-! ## Live registers -/

/-- Register `r` is live at the start of block `b`, by the summaries of the blocks: it
    is read there, or it is not written there and live at the start of a successor. -/
inductive Live (c : Compilation) (g : Digraph) (r : Int) : Nat → Prop where
  | here {b : Nat} {blk : Block} : c.blocks[b]? = some blk → blk.uses.has r = true → Live c g r b
  | later {b s : Nat} {blk : Block} : c.blocks[b]? = some blk → blk.defs.has r = false →
    g.Edge b s → Live c g r s → Live c g r b

theorem has_needed {liveOut defs uses : RegMap} : (needed liveOut defs uses).has r = true ↔
      liveOut.has r = true ∧ defs.has r = false ∨ uses.has r = true := by
  unfold needed
  rw [RegMap.has_union, RegMap.has_without]

/-- A block without its live registers. -/
def calm (blk : Block) : Block :=
  { blk with liveIn := [], liveOut := [] }

theorem of_calm {y : Block} (h : calm x = calm y) :
    x.defs = y.defs ∧ x.uses = y.uses := by
  unfold calm at h
  simp only [Block.mk.injEq] at h
  exact ⟨h.2.2.2.2.2.2.1, h.2.2.2.2.2.2.2.1⟩

/-- The compilations differ in what is live at the ends of blocks only. -/
structure Calm (c t : Compilation) : Prop where
  blocks : t.blocks.map calm = c.blocks.map calm
  rest : t = { c with blocks := t.blocks }

theorem Calm.refl (c : Compilation) : Calm c c :=
  ⟨rfl, rfl⟩

theorem Calm.size (h : Calm c t) : t.blocks.size = c.blocks.size := by
  have := congrArg Array.size h.blocks
  simpa using this

theorem Calm.block (h : Calm c t) (hb : t.blocks[b]? = some blk) :
    ∃ old, c.blocks[b]? = some old ∧ calm old = calm blk :=
  getElem?_of_map_eq h.blocks.symm hb

theorem Calm.set (h : Calm c t) (hb : t.blocks[b]? = some blk) (hnew : calm new = calm blk) :
    Calm c { t with blocks := t.blocks.setIfInBounds b new } := by
  refine ⟨?_, ?_⟩
  · show (t.blocks.setIfInBounds b new).map calm = c.blocks.map calm
    rw [Array.map_setIfInBounds, hnew, ← h.blocks]
    grind
  · rw [h.rest]

/-! ## Visiting one block -/

/-- The registers that are noted at the start of a block. -/
def liveInAt (t : Compilation) (x : Int) : RegMap :=
  (t.blocks[x.toNat]?.map Block.liveIn).getD []

/-- What is needed at the end of block `b` when its successors are added. -/
def joined (g : Digraph) (t : Compilation) (b : Nat) (liveOut : RegMap) : RegMap :=
  (g.after b).foldl (fun m x => (liveInAt t x).union m) liveOut

/-- A graph over `count` blocks without loops at a block. -/
structure Over (count : Nat) (g : Digraph) : Prop where
  nodes : ∀ n, n ∈ g.nodes ↔ 0 ≤ n ∧ n < count
  edges : ∀ a x, g.Edge a x → 0 ≤ x ∧ x < count
  irrefl : ∀ a, ¬ g.Edge a a

/-- Block `b` was visited: what is needed at its start is found from what is needed at
    its end, to which its successors are added. The flag says whether a register is new. -/
structure Visited (g : Digraph) (b : Nat) (t : Compilation) (blk new : Block) (changed : Bool) :
    Prop where
  onBlocks : Over t.blocks.size g
  block : t.blocks[b]? = some blk
  new_eq : new = { blk with
    liveIn := needed blk.liveOut blk.defs blk.uses, liveOut := joined g t b blk.liveOut }
  flag : changed = false ↔ (∀ r, blk.liveIn.has r = true ↔ new.liveIn.has r = true)
    ∧ ∀ r, blk.liveOut.has r = true ↔ new.liveOut.has r = true

theorem Over.successors {n : Nat} (hg : Over n g) (hb : b < n) :
    g.successors b = .ok (g.after b) := by
  unfold Digraph.successors
  rw [if_pos]
  exact List.contains_iff_mem.mpr ((hg.nodes b).mpr (by omega))

theorem runs_setBlock_natCast {u : PUnit} {d : Compilation} (hblk : t.blocks[b]? = some blk) :
    Runs (setBlock b x) t u d ↔
      d = { t with blocks := t.blocks.setIfInBounds b x } := by
  have hlt : b < t.blocks.size := lt_size hblk
  simp only [runs_setBlock, Position.set_natCast, hlt, true_and, exists_eq_left]

theorem addNext_runs {x : Int} {next : Block} (hblk : t.blocks[b]? = some blk) (hx : 0 ≤ x)
    (hnext : t.blocks[x.toNat]? = some next) :
    Runs (do
        let next ← block x
        let blk ← block b
        setBlock b { blk with liveOut := next.liveIn.union blk.liveOut }) t ⟨⟩
      { t with
        blocks := t.blocks.setIfInBounds b
          { blk with liveOut := next.liveIn.union blk.liveOut } } := by
  rw [runs_block_bind]
  refine ⟨next, (Position.get_of_nonneg hx).mpr hnext, ?_⟩
  rw [runs_block_bind]
  refine ⟨blk, Position.get_natCast.mpr hblk, ?_⟩
  rw [runs_setBlock_natCast hblk]

/-- The same for all successors of block `b`. -/
theorem addSuccessors_runs (hg : Over t.blocks.size g) (hblk : t.blocks[b]? = some blk) :
    Runs ((g.after b).forM fun x => do
        let next ← block x
        let blk ← block b
        setBlock b { blk with liveOut := next.liveIn.union blk.liveOut }) t ⟨⟩
      { t with
        blocks := t.blocks.setIfInBounds b { blk with liveOut := joined g t b blk.liveOut } } := by
  have hlt : b < t.blocks.size := lt_size hblk
  -- the invariant: the first `k` successors have been added
  have hloop := forM_runs (l := g.after b) (s := t)
    (f := fun x => do
      let next ← block x
      let blk ← block b
      setBlock b { blk with liveOut := next.liveIn.union blk.liveOut })
    (fun k s => s = { t with
      blocks := t.blocks.setIfInBounds b { blk with
        liveOut := ((g.after b).take k).foldl (fun m x => (liveInAt t x).union m) blk.liveOut } })
    ?_ ?_
  · obtain ⟨_, hrun, rfl⟩ := hloop
    rwa [List.take_length] at hrun
  · have hsame : t.blocks.setIfInBounds b blk = t.blocks := by grind
    show t = { t with blocks := t.blocks.setIfInBounds b blk }
    rw [hsame]
  · rintro k x s hx rfl
    have hedge : g.Edge b x := Digraph.mem_after.mp (List.mem_of_getElem? hx)
    obtain ⟨hx0, hxlt⟩ := hg.edges _ _ hedge
    -- a successor is another block, so it is still as it was
    have hne : b ≠ x.toNat := by
      intro heq
      have hxb : x = (b : Int) := by omega
      exact hg.irrefl b (hxb ▸ hedge)
    have hnext : t.blocks[x.toNat]? = some t.blocks[x.toNat] := Array.getElem?_eq_getElem (by omega)
    refine ⟨_, addNext_runs (Array.getElem?_setIfInBounds_self_of_lt hlt) hx0
      ((Array.getElem?_setIfInBounds_ne hne).trans hnext), ?_⟩
    rw [Array.setIfInBounds_setIfInBounds, List.take_add_one, hx, List.foldl_append]
    simp only [Option.toList_some, List.foldl_cons, List.foldl_nil, liveInAt, hnext, Option.map_some,
      Option.getD_some]

theorem joined_iff (hg : Over t.blocks.size g) {P : RegMap → Prop} {m : RegMap}
    (hP : ∀ (s : Nat) (next : Block), t.blocks[s]? = some next → ∀ n,
      P (next.liveIn.union n) ↔ P next.liveIn ∨ P n) :
    P (joined g t b m) ↔ P m ∨ ∃ (s : Nat) (next : Block),
      g.Edge b s ∧ t.blocks[s]? = some next ∧ P next.liveIn := by
  have hfold : ∀ xs : List Int, (∀ x ∈ xs, g.Edge b x) →
      (P (xs.foldl (fun m x => (liveInAt t x).union m) m) ↔ P m ∨ ∃ (s : Nat) (next : Block),
        (s : Int) ∈ xs ∧ t.blocks[s]? = some next ∧ P next.liveIn) := by
    intro xs hxs
    induction xs generalizing m with
    | nil => simp
    | cons x xs ih =>
      obtain ⟨hx0, hxlt⟩ := hg.edges _ _ (hxs x List.mem_cons_self)
      obtain ⟨k, rfl⟩ := Int.eq_ofNat_of_zero_le hx0
      have hnext : t.blocks[k]? = some t.blocks[k] := Array.getElem?_eq_getElem (by omega)
      have hin : liveInAt t k = t.blocks[k].liveIn := by simp [liveInAt, hnext]
      rw [List.foldl_cons, ih fun y hy => hxs y (List.mem_cons_of_mem _ hy), hin, hP k _ hnext]
      simp only [List.mem_cons, or_and_right, exists_or, exists_and_left, Int.ofNat_inj,
        exists_eq_left, hnext, Option.some.injEq, exists_eq_left']
      tauto
  rw [joined, hfold _ fun x hx => Digraph.mem_after.mp hx]
  simp only [Digraph.mem_after]

variable {changed : Bool}

theorem Visited.liveIn (hv : Visited g b t blk new changed) (r : Int) :
    new.liveIn.has r = true ↔ (needed blk.liveOut blk.defs blk.uses).has r = true := by
  rw [hv.new_eq]

theorem Visited.liveOut (hv : Visited g b t blk new changed) (r : Int) :
    new.liveOut.has r = true ↔ blk.liveOut.has r = true ∨ ∃ (s : Nat) (next : Block),
      g.Edge b s ∧ t.blocks[s]? = some next ∧ next.liveIn.has r = true := by
  rw [hv.new_eq]
  exact joined_iff (P := fun m => m.has r = true) hv.onBlocks fun _ _ _ _ => RegMap.has_union

theorem visit_runs (hg : Over t.blocks.size g) (hb : b < t.blocks.size) :
    ∃ blk new changed, Visited g b t blk new changed
      ∧ Runs (visit g b) t changed { t with blocks := t.blocks.setIfInBounds b new } := by
  have hblk : t.blocks[b]? = some t.blocks[b] := Array.getElem?_eq_getElem hb
  generalize t.blocks[b] = blk at hblk
  have hset : ∀ x : Block, (t.blocks.setIfInBounds b x)[b]? = some x :=
    fun x => Array.getElem?_setIfInBounds_self_of_lt hb
  obtain ⟨marked, hmarked⟩ : ∃ x : Block,
      x = { blk with liveIn := needed blk.liveOut blk.defs blk.uses } := ⟨_, rfl⟩
  have hrun := addSuccessors_runs (b := b) (g := g)
    (t := { t with blocks := t.blocks.setIfInBounds b marked }) (by simpa using hg) (hset marked)
  -- no block is its own successor
  have hjoined : joined g { t with blocks := t.blocks.setIfInBounds b marked } b blk.liveOut =
      joined g t b blk.liveOut := by
    refine List.foldl_ext _ _ _ fun m x hx => ?_
    have hedge := Digraph.mem_after.mp hx
    have hne : b ≠ x.toNat := by
      intro heq
      have hxb : x = (b : Int) := by have := hg.edges _ _ hedge; omega
      exact hg.irrefl b (hxb ▸ hedge)
    simp only [liveInAt, Array.getElem?_setIfInBounds_ne hne]
  rw [hmarked] at hrun hjoined
  rw [Array.setIfInBounds_setIfInBounds, hjoined] at hrun
  refine ⟨blk, _, !(blk.liveIn.sameKeys (needed blk.liveOut blk.defs blk.uses) &&
      blk.liveOut.sameKeys (joined g t b blk.liveOut)), ⟨hg, hblk, rfl, ?_⟩, ?_⟩
  · rw [Bool.not_eq_false', Bool.and_eq_true, RegMap.sameKeys_iff, RegMap.sameKeys_iff]
  unfold visit
  simp only [runs_block_bind, Position.get_natCast, hblk, Option.some.injEq, exists_eq_left']
  refine runs_bind.mpr ⟨⟨⟩, _, (runs_setBlock_natCast hblk).mpr rfl, ?_⟩
  simp only [runs_lift_bind, hg.successors hb, Except.ok.injEq, exists_eq_left']
  refine runs_bind.mpr ⟨⟨⟩, _, hrun, ?_⟩
  simp only [runs_block_bind, Position.get_natCast, hset, Option.some.injEq, exists_eq_left',
    runs_pure, and_self]

/-! ## What a visit keeps -/

/-- Register `r` is noted at the start of block `b`. -/
def LiveIn (t : Compilation) (b : Nat) (r : Int) : Prop :=
  ∃ blk, t.blocks[b]? = some blk ∧ blk.liveIn.has r = true

/-- Register `r` is noted at the end of block `b`. -/
def LiveOut (t : Compilation) (b : Nat) (r : Int) : Prop :=
  ∃ blk, t.blocks[b]? = some blk ∧ blk.liveOut.has r = true

/-- Every register that is noted is live, and one that is noted at the start of a block
    is there for a reason that still holds. -/
structure Approximates (c : Compilation) (g : Digraph) (t : Compilation) : Prop where
  calm : Calm c t
  liveIn : ∀ b r, LiveIn t b r → Live c g r b
  liveOut : ∀ b r, LiveOut t b r → ∃ s : Nat, g.Edge b s ∧ Live c g r s
  within : ∀ (b : Nat) (blk : Block), t.blocks[b]? = some blk → ∀ r, blk.liveIn.has r = true →
    (needed blk.liveOut blk.defs blk.uses).has r = true

/-- Every register that is noted in `t` is noted in `t'`. -/
structure Grows (t t' : Compilation) : Prop where
  liveIn : ∀ b r, LiveIn t b r → LiveIn t' b r
  liveOut : ∀ b r, LiveOut t b r → LiveOut t' b r

theorem Grows.refl (t : Compilation) : Grows t t :=
  ⟨fun _ _ h => h, fun _ _ h => h⟩

theorem Grows.trans {t'' : Compilation} (h : Grows t t') (h' : Grows t' t'') : Grows t t'' :=
  ⟨fun b r hr => h'.liveIn b r (h.liveIn b r hr), fun b r hr => h'.liveOut b r (h.liveOut b r hr)⟩

/-- No register can be added to block `b`. -/
structure Closed (c : Compilation) (g : Digraph) (t : Compilation) (b : Nat) : Prop where
  liveIn : ∀ (blk : Block) (r : Int), c.blocks[b]? = some blk →
    blk.uses.has r = true ∨ LiveOut t b r ∧ blk.defs.has r = false → LiveIn t b r
  liveOut : ∀ (s : Nat) (r : Int), g.Edge b s → LiveIn t s r → LiveOut t b r

theorem Closed.of_same (h : Closed c g t b) (hle : Grows t t') (hge : Grows t' t) :
    Closed c g t' b := by
  constructor
  · intro blk r hblk hr
    apply hle.liveIn
    apply h.liveIn blk r hblk
    rcases hr with hr | ⟨hout, hdefs⟩
    · exact .inl hr
    · exact .inr ⟨hge.liveOut b r hout, hdefs⟩
  · intro s r hedge hr
    exact hle.liveOut b r (h.liveOut s r hedge (hge.liveIn s r hr))

theorem noted_set (hb : t.blocks[b]? = some blk) {P : Block → Prop} {k : Nat} :
    (∃ x, (t.blocks.setIfInBounds b new)[k]? = some x ∧ P x) ↔
      if k = b then P new else ∃ x, t.blocks[k]? = some x ∧ P x := by
  by_cases hk : k = b
  · subst hk
    simp [Array.getElem?_setIfInBounds_self_of_lt (lt_size hb)]
  · simp [Array.getElem?_setIfInBounds_ne (Ne.symm hk), hk]

section
variable (hv : Visited g b t blk new changed)
include hv

theorem Visited.liveIn_mono (h : Approximates c g t) (hr : blk.liveIn.has r = true) :
    new.liveIn.has r = true :=
  (hv.liveIn r).mpr (h.within b blk hv.block r hr)

theorem Visited.liveOut_mono (hr : blk.liveOut.has r = true) : new.liveOut.has r = true :=
  (hv.liveOut r).mpr (.inl hr)

theorem Visited.grows (h : Approximates c g t) :
    Grows t { t with blocks := t.blocks.setIfInBounds b new } := by
  have hset : ∀ {P : Block → Prop}, (P blk → P new) → ∀ k : Nat,
      (∃ x, t.blocks[k]? = some x ∧ P x) →
        ∃ x, (t.blocks.setIfInBounds b new)[k]? = some x ∧ P x := by
    intro P hP k hk
    rw [noted_set hv.block]
    split
    · next heq =>
      obtain ⟨x, hx, hxP⟩ := hk
      rw [heq, hv.block] at hx
      exact hP (Option.some.inj hx ▸ hxP)
    · exact hk
  exact ⟨fun k _ => hset (hv.liveIn_mono h) k, fun k _ => hset hv.liveOut_mono k⟩

theorem Visited.approximates (h : Approximates c g t) :
    Approximates c g { t with blocks := t.blocks.setIfInBounds b new } := by
  obtain ⟨old, hold, hcalm⟩ := h.calm.block hv.block
  obtain ⟨hdefs, huses⟩ := of_calm hcalm
  have hout : ∀ r, new.liveOut.has r = true → ∃ s : Nat, g.Edge b s ∧ Live c g r s := by
    intro r hr
    rcases (hv.liveOut r).mp hr with hr | ⟨s, next, hedge, hnext, hr⟩
    · exact h.liveOut b r ⟨blk, hv.block, hr⟩
    · exact ⟨s, hedge, h.liveIn s r ⟨next, hnext, hr⟩⟩
  refine ⟨h.calm.set hv.block (by rw [hv.new_eq]; rfl), ?_, ?_, ?_⟩
  · intro k r hr
    rw [LiveIn, noted_set hv.block] at hr
    split at hr
    · next hk =>
      subst hk
      -- needed here, or needed later and not written here
      rw [hv.liveIn, has_needed, ← hdefs, ← huses] at hr
      rcases hr with ⟨hr, hnot⟩ | hr
      · obtain ⟨s, hedge, hs⟩ := h.liveOut k r ⟨blk, hv.block, hr⟩
        exact Live.later hold hnot hedge hs
      · exact Live.here hold hr
    · exact h.liveIn k r hr
  · intro k r hr
    rw [LiveOut, noted_set hv.block] at hr
    split at hr
    · next hk =>
      subst hk
      exact hout r hr
    · exact h.liveOut k r hr
  · intro k blk' hblk' r hr
    by_cases hk : k = b
    · subst hk
      have hlt : k < t.blocks.size := lt_size hv.block
      rw [Array.getElem?_setIfInBounds_self_of_lt hlt] at hblk'
      cases hblk'
      have hdefs' : new.defs = blk.defs := by rw [hv.new_eq]
      have huses' : new.uses = blk.uses := by rw [hv.new_eq]
      rw [hv.liveIn, has_needed] at hr
      rw [has_needed, hdefs', huses']
      exact hr.imp_left fun h => ⟨(hv.liveOut r).mpr (.inl h.1), h.2⟩
    · rw [Array.getElem?_setIfInBounds_ne (Ne.symm hk)] at hblk'
      exact h.within k blk' hblk' r hr

end

theorem Visited.same (hc : Calm c t) (hv : Visited g b t blk new false) :
    Grows { t with blocks := t.blocks.setIfInBounds b new } t ∧ Closed c g t b := by
  obtain ⟨hin, hout⟩ := hv.flag.mp rfl
  have hback : ∀ {P : Block → Prop}, (P new → P blk) → ∀ k : Nat,
      (∃ x, (t.blocks.setIfInBounds b new)[k]? = some x ∧ P x) →
        ∃ x, t.blocks[k]? = some x ∧ P x := by
    intro P hP k hk
    rw [noted_set hv.block] at hk
    split at hk
    · next heq => exact ⟨blk, heq ▸ hv.block, hP hk⟩
    · exact hk
  refine ⟨⟨fun k r => hback (hin r).mpr k, fun k r => hback (hout r).mpr k⟩, ?_, ?_⟩
  · intro old r hold hr
    obtain ⟨old', hold', hcalm⟩ := hc.block hv.block
    obtain rfl := Option.mem_unique hold hold'
    obtain ⟨hdefs, huses⟩ := of_calm hcalm
    refine ⟨blk, hv.block, ?_⟩
    rw [hin, hv.liveIn, has_needed, ← hdefs, ← huses]
    rcases hr with hr | ⟨⟨blk', hblk', hr⟩, hnot⟩
    · exact .inr hr
    · obtain rfl := Option.mem_unique hv.block hblk'
      exact .inl ⟨hr, hnot⟩
  · rintro s r hedge ⟨next, hnext, hr⟩
    exact ⟨blk, hv.block, (hout r).mpr ((hv.liveOut r).mpr (.inr ⟨s, next, hedge, hnext, hr⟩))⟩

theorem Visited.more (h : Approximates c g t) (hv : Visited g b t blk new true) :
    (∃ r, LiveIn { t with blocks := t.blocks.setIfInBounds b new } b r ∧ ¬ LiveIn t b r)
    ∨ ∃ r, LiveOut { t with blocks := t.blocks.setIfInBounds b new } b r ∧ ¬ LiveOut t b r := by
  by_contra hnone
  push Not at hnone
  have hnew : ∀ {P : Block → Prop}, P new →
      ((∃ x, (t.blocks.setIfInBounds b new)[b]? = some x ∧ P x) →
        ∃ x, t.blocks[b]? = some x ∧ P x) → P blk := by
    intro P hP hold
    obtain ⟨x, hx, hxP⟩ := hold ((noted_set hv.block).mpr (by rwa [if_pos rfl]))
    exact Option.mem_unique hv.block hx ▸ hxP
  exact hv.flag.not.mp (by simp)
    ⟨fun r => ⟨hv.liveIn_mono h, fun hr => hnew hr (hnone.1 r)⟩,
      fun r => ⟨hv.liveOut_mono, fun hr => hnew hr (hnone.2 r)⟩⟩

/-! ## The number of notes -/

section
open Classical

/-- The registers noted at the starts, and those noted at the ends, of the first
    `count` blocks. -/
noncomputable def notes (count : Nat) (noted : Nat → Int → Prop) : Finset (Nat × Nat) :=
  (Finset.range count ×ˢ Finset.range 16).filter fun e => noted e.1 e.2

/-- How many notes a compilation holds. -/
noncomputable def weight (t : Compilation) : Nat :=
  (notes t.blocks.size (LiveIn t)).card + (notes t.blocks.size (LiveOut t)).card

theorem card_notes_le (count : Nat) (noted : Nat → Int → Prop) :
    (notes count noted).card ≤ 16 * count := by
  apply (Finset.card_filter_le _ _).trans
  rw [Finset.card_product, Finset.card_range, Finset.card_range, Nat.mul_comm]

theorem weight_le : weight t ≤ 32 * t.blocks.size := by
  have hin := card_notes_le t.blocks.size (LiveIn t)
  have hout := card_notes_le t.blocks.size (LiveOut t)
  unfold weight
  omega

theorem notes_subset (h : ∀ b r, noted b r → noted' b r) : notes count noted ⊆ notes count noted' :=
  Finset.monotone_filter_right _ fun e _ he => h e.1 e.2 he

theorem card_notes_lt (h : ∀ b r, noted b r → noted' b r) (hb : b < count) (hr : 0 ≤ r ∧ r < 16)
    (hnew : noted' b r) (hold : ¬ noted b r) :
    (notes count noted).card < (notes count noted').card := by
  obtain ⟨n, rfl⟩ := Int.eq_ofNat_of_zero_le hr.1
  apply Finset.card_lt_card
  refine (Finset.ssubset_iff_of_subset (notes_subset h)).mpr ⟨(b, n), ?_, ?_⟩
  · have hn : n < 16 := by omega
    simp [notes, hb, hn, hnew]
  · simp [notes, hold]

end

theorem Grows.weight_le (h : Grows t t') (hsize : t'.blocks.size = t.blocks.size) :
    weight t ≤ weight t' := by
  unfold weight
  rw [hsize]
  exact Nat.add_le_add (Finset.card_le_card (notes_subset h.liveIn))
    (Finset.card_le_card (notes_subset h.liveOut))

theorem Live.register (huses : ∀ blk ∈ c.blocks, ∀ r, blk.uses.has r = true → 0 ≤ r ∧ r < 16)
    (h : Live c g r b) : 0 ≤ r ∧ r < 16 := by
  induction h with
  | here hblk hr => exact huses _ (Array.mem_of_getElem? hblk) r hr
  | later _ _ _ _ ih => exact ih

theorem Visited.weight_lt (huses : ∀ blk ∈ c.blocks, ∀ r, blk.uses.has r = true → 0 ≤ r ∧ r < 16)
    (h : Approximates c g t) (hv : Visited g b t blk new true) :
    weight t < weight { t with blocks := t.blocks.setIfInBounds b new } := by
  have hgrows := hv.grows h
  have happ := hv.approximates h
  have hb : b < t.blocks.size := lt_size hv.block
  unfold weight
  rw [Array.size_setIfInBounds]
  rcases hv.more h with ⟨r, hnew, hold⟩ | ⟨r, hnew, hold⟩
  · have hr := (happ.liveIn b r hnew).register huses
    exact Nat.add_lt_add_of_lt_of_le (card_notes_lt hgrows.liveIn hb hr hnew hold)
      (Finset.card_le_card (notes_subset hgrows.liveOut))
  · obtain ⟨s, _, hs⟩ := happ.liveOut b r hnew
    exact Nat.add_lt_add_of_le_of_lt (Finset.card_le_card (notes_subset hgrows.liveIn))
      (card_notes_lt hgrows.liveOut hb (hs.register huses) hnew hold)

/-! ## Rounds -/

/-- A loop over rounds ended: the last round added nothing, all before it did. -/
inductive Settles (g : Digraph) (order : List Int) : Compilation → Compilation → Prop where
  | stop {t t' : Compilation} : Runs (visitAll g order) t false t' → Settles g order t t'
  | more {t t' t'' : Compilation} : Runs (visitAll g order) t true t' → Settles g order t' t'' →
    Settles g order t t''

variable {order : List Int}

/-- In the middle of a round: `rest` is still to be visited. Until something is added the
    notes are those at the beginning of the round, and the visited blocks are closed. -/
structure InRound (c : Compilation) (g : Digraph) (order : List Int) (t : Compilation)
    (rest : List Int) (flag : Bool) (s : Compilation) : Prop where
  nodes : ∀ b ∈ rest, b ∈ g.nodes
  approximates : Approximates c g s
  grows : Grows t s
  more : flag = true → weight t < weight s
  back : flag = false → Grows s t
  closed : flag = false → ∀ b : Nat, (b : Int) ∈ order → (b : Int) ∈ rest ∨ Closed c g t b

section
variable (huses : ∀ blk ∈ c.blocks, ∀ r, blk.uses.has r = true → 0 ≤ r ∧ r < 16)
include huses

theorem InRound.step {s : Compilation} {rest : List Int} {flag changed : Bool}
    (hsize : t.blocks.size = c.blocks.size) (h : InRound c g order t (b :: rest) flag s)
    (hv : Visited g b s blk new changed) : InRound c g order t rest (flag || changed)
      { s with blocks := s.blocks.setIfInBounds b new } := by
  have hgrows := hv.grows h.approximates
  refine ⟨fun y hy => h.nodes y (List.mem_cons_of_mem _ hy), hv.approximates h.approximates,
    h.grows.trans hgrows, ?_, ?_, ?_⟩
  · intro hor
    rcases Bool.or_eq_true_iff.mp hor with hflag | hchanged
    · exact Nat.lt_of_lt_of_le (h.more hflag) (hgrows.weight_le (by simp))
    · subst hchanged
      have hle : weight t ≤ weight s :=
        h.grows.weight_le (h.approximates.calm.size.trans hsize.symm)
      exact Nat.lt_of_le_of_lt hle (hv.weight_lt huses h.approximates)
  · intro hor
    obtain ⟨hflag, rfl⟩ := Bool.or_eq_false_iff.mp hor
    exact (hv.same h.approximates.calm).1.trans (h.back hflag)
  · intro hor k hk
    obtain ⟨hflag, rfl⟩ := Bool.or_eq_false_iff.mp hor
    have hnow := (hv.same h.approximates.calm).2
    rcases h.closed hflag k hk with hmem | hdone
    · rcases List.mem_cons.mp hmem with heq | hmem
      · obtain rfl : k = b := by omega
        exact .inr (hnow.of_same (h.back hflag) h.grows)
      · exact .inl hmem
    · exact .inr hdone

theorem visitAll_runs (hg : Over c.blocks.size g) (horder : ∀ b ∈ order, b ∈ g.nodes)
    (h : Approximates c g t) :
    ∃ changed t', Runs (visitAll g order) t changed t' ∧ Approximates c g t'
      ∧ (changed = true → weight t < weight t')
      ∧ (changed = false → ∀ b : Nat, (b : Int) ∈ order → Closed c g t' b) := by
  have hstart : InRound c g order t order false t :=
    ⟨horder, h, Grows.refl t, by simp, fun _ => Grows.refl t, fun _ _ hb => .inl hb⟩
  have hloop := foldlM_runs
    (f := fun changed b => do
      let c ← visit g b
      return changed || c)
    (InRound c g order t) hstart ?_
  · obtain ⟨changed, t', hrun, hend⟩ := hloop
    refine ⟨changed, t', hrun, hend.approximates, hend.more, ?_⟩
    intro hflag b hb
    have hclosed := (hend.closed hflag b hb).resolve_left (by simp)
    exact hclosed.of_same hend.grows (hend.back hflag)
  · intro x rest flag s hs
    obtain ⟨hx0, hxlt⟩ := (hg.nodes x).mp (hs.nodes x (by simp))
    obtain ⟨b, rfl⟩ := Int.eq_ofNat_of_zero_le hx0
    have hsize : s.blocks.size = c.blocks.size := hs.approximates.calm.size
    obtain ⟨blk, new, changed, hv, hrun⟩ :=
      visit_runs (hsize.symm ▸ hg) (by omega : b < s.blocks.size)
    refine ⟨flag || changed, _, ?_, hs.step huses h.calm.size hv⟩
    exact runs_bind.mpr ⟨changed, _, hrun, runs_pure.mpr ⟨rfl, rfl⟩⟩

theorem settle_runs (hg : Over c.blocks.size g) (horder : ∀ b ∈ order, b ∈ g.nodes) (fuel : Nat)
    (h : Approximates c g t) (hfuel : 32 * c.blocks.size < weight t + fuel) :
    ∃ t', Runs (settle g order fuel) t ⟨⟩ t' ∧ Settles g order t t' ∧ Approximates c g t'
      ∧ ∀ b : Nat, (b : Int) ∈ order → Closed c g t' b := by
  induction fuel generalizing t with
  | zero =>
    have hle := weight_le (t := t)
    rw [h.calm.size] at hle
    omega
  | succ fuel ih =>
    obtain ⟨changed, t₁, hrun, happ, htrue, hfalse⟩ := visitAll_runs huses hg horder h
    unfold settle
    cases changed with
    | false =>
      refine ⟨t₁, runs_bind.mpr ⟨false, t₁, hrun, ?_⟩, Settles.stop hrun, happ, hfalse rfl⟩
      exact runs_pure.mpr ⟨rfl, rfl⟩
    | true =>
      have hlt := htrue rfl
      obtain ⟨t', hrun', hsettles, happ', hclosed⟩ := ih happ (by omega)
      refine ⟨t', runs_bind.mpr ⟨true, t₁, hrun, ?_⟩, Settles.more hrun hsettles, happ', hclosed⟩
      rwa [if_pos rfl]

end

theorem liveIn_of_live (h : ∀ b : Nat, b < c.blocks.size → Closed c g t b) (hlive : Live c g r b) :
    LiveIn t b r := by
  induction hlive with
  | here hblk hr =>
    exact (h _ (lt_size hblk)).liveIn _ r hblk (.inl hr)
  | later hblk hnot hedge _ ih =>
    have hclosed := h _ (lt_size hblk)
    exact hclosed.liveIn _ r hblk (.inr ⟨hclosed.liveOut _ r hedge ih, hnot⟩)

end BpfLanes.Liveness
