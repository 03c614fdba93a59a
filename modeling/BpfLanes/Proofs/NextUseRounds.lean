import BpfLanes.Proofs.GlobalLiveness

/-! # When the positions of next uses settle

A round of the search for live registers visits a block after all its successors,
but finds what is needed at its start from what stood at its end before. So a round
carries a position back over one block, and after `n` rounds a block knows the
first use that comes within `n` blocks. The search ends when a round adds no
register, and a use that is further away but comes earlier in the program is then
missed. One more round leaves all positions in place exactly if there is none.
-/

namespace BpfLanes

/-! ## Positions in maps -/

namespace RegMap

variable {m n : RegMap} {r p : Int} {e : Int × Int}

/-- The map has the register, at a position up to `p`. -/
def UpTo (m : RegMap) (r p : Int) : Prop :=
  ∃ q ≤ p, (r, q) ∈ m

theorem has_iff_mem_keys : m.has r = true ↔ r ∈ m.keys := by
  simp [has, keys]

theorem position_unique {q : Int} (hm : m.keys.Nodup) (hp : (r, p) ∈ m) (hq : (r, q) ∈ m) :
    p = q :=
  congrArg Prod.snd (List.inj_on_of_nodup_map hm hp hq rfl)

/-- Maps with the same bounds on their positions have the same entries. -/
theorem mem_of_upTo (hm : m.keys.Nodup) (h : ∀ r p, m.UpTo r p ↔ n.UpTo r p) (he : e ∈ m) :
    e ∈ n := by
  obtain ⟨q, hq, hqn⟩ := (h e.1 e.2).mp ⟨e.2, le_refl _, he⟩
  obtain ⟨p, hp, hpm⟩ := (h e.1 q).mpr ⟨q, le_refl _, hqn⟩
  have hep : e.2 = p := position_unique hm he hpm
  have heq : e = (e.1, q) := Prod.ext rfl (by omega)
  rwa [heq]

theorem nodup_put (hm : m.keys.Nodup) : (m.put r p).keys.Nodup := by
  unfold put
  split
  · have hkeys : keys (m.map fun e => if e.1 == r then (r, p) else e) = m.keys := by
      unfold keys
      rw [List.map_map]
      refine List.map_congr_left fun e _ => ?_
      by_cases he : e.1 = r <;> simp [he]
    rwa [hkeys]
  · next hr =>
    rw [has_iff_mem_keys] at hr
    unfold keys at hm hr ⊢
    rw [List.map_append, List.nodup_append']
    exact ⟨hm, by simp, by simpa using hr⟩

theorem mem_put : e ∈ m.put r p ↔ e = (r, p) ∨ e ∈ m ∧ e.1 ≠ r := by
  unfold put
  split
  · next hr =>
    obtain ⟨e₀, he₀, hr⟩ := List.any_eq_true.mp hr
    rw [List.mem_map]
    constructor
    · rintro ⟨x, hx, rfl⟩
      by_cases hxr : x.1 = r <;> simp [hxr, hx]
    · rintro (rfl | ⟨he, hne⟩)
      · exact ⟨e₀, he₀, if_pos hr⟩
      · exact ⟨e, he, if_neg (by simpa using hne)⟩
  · next hr =>
    have hne : e ∈ m → e.1 ≠ r := by
      rintro he rfl
      exact hr (List.any_eq_true.mpr ⟨e, he, by simp⟩)
    rw [List.mem_append, List.mem_singleton]
    tauto

theorem upTo_put (hle : ∀ q, (e.1, q) ∈ m → e.2 ≤ q) :
    (m.put e.1 e.2).UpTo r p ↔ m.UpTo r p ∨ e.1 = r ∧ e.2 ≤ p := by
  constructor
  · rintro ⟨q, hq, hmem⟩
    rcases mem_put.mp hmem with heq | ⟨hmem, -⟩
    · obtain ⟨rfl, rfl⟩ := Prod.mk.inj heq
      exact .inr ⟨rfl, hq⟩
    · exact .inl ⟨q, hq, hmem⟩
  · rintro (⟨q, hq, hmem⟩ | ⟨rfl, hp⟩)
    · by_cases hr : r = e.1
      · subst hr
        exact ⟨e.2, (hle q hmem).trans hq, mem_put.mpr (.inl rfl)⟩
      · exact ⟨q, hq, mem_put.mpr (.inr ⟨hmem, hr⟩)⟩
    · exact ⟨e.2, hp, mem_put.mpr (.inl rfl)⟩

theorem upTo_union (hm : m.keys.Nodup) : (m.union n).keys.Nodup
    ∧ ∀ r p, (m.union n).UpTo r p ↔ m.UpTo r p ∨ n.UpTo r p := by
  unfold union
  induction n generalizing m with
  | nil => simp [hm, UpTo]
  | cons e n ih =>
    have hcons : ∀ r p, UpTo (e :: n) r p ↔ (e.1 = r ∧ e.2 ≤ p) ∨ UpTo n r p := by
      intro r p
      simp only [UpTo, List.mem_cons, Prod.ext_iff]
      grind
    -- the entry counts if its position is smaller
    rw [List.foldl_cons]
    cases hget : m.get? e.1 with
    | none =>
      have hle : ∀ q, (e.1, q) ∈ m → e.2 ≤ q := by
        intro q hq
        have hnone := List.lookup_eq_none_iff.mp hget _ hq
        simp at hnone
      have hput := ih (nodup_put (r := e.1) (p := e.2) hm)
      refine ⟨hput.1, fun r p => (hput.2 r p).trans ?_⟩
      rw [upTo_put hle, hcons, or_assoc]
    | some q =>
      obtain ⟨l₁, l₂, hsplit, -⟩ := List.lookup_eq_some_iff.mp hget
      have hq : (e.1, q) ∈ m := by simp [hsplit]
      dsimp only
      split
      · next hlt =>
        have hle : ∀ q', (e.1, q') ∈ m → e.2 ≤ q' := by
          intro q' hq'
          rw [position_unique hm hq' hq]
          omega
        have hput := ih (nodup_put (r := e.1) (p := e.2) hm)
        refine ⟨hput.1, fun r p => (hput.2 r p).trans ?_⟩
        rw [upTo_put hle, hcons, or_assoc]
      · next hle =>
        refine ⟨(ih hm).1, fun r p => ((ih hm).2 r p).trans ?_⟩
        rw [hcons, ← or_assoc]
        refine or_congr_left ⟨.inl, ?_⟩
        rintro (h | ⟨rfl, hp⟩)
        · exact h
        · exact ⟨q, by omega, hq⟩

theorem upTo_without : (m.without n).UpTo r p ↔ m.UpTo r p ∧ n.has r = false := by
  simp [UpTo, without, and_assoc, ← exists_and_right]

end RegMap

namespace Liveness

open Compilation

variable {c t t' : Compilation} {g : Digraph} {order : List Int} {blk new : Block}
  {b k n : Nat} {r p : Int}

theorem upTo_needed {liveOut defs uses : RegMap} (h : liveOut.keys.Nodup) :
    (needed liveOut defs uses).keys.Nodup ∧ ∀ r p, (needed liveOut defs uses).UpTo r p ↔
      liveOut.UpTo r p ∧ defs.has r = false ∨ uses.UpTo r p := by
  have hnodup : (liveOut.without defs).keys.Nodup := h.sublist (List.filter_sublist.map _)
  refine ⟨(RegMap.upTo_union hnodup).1, fun r p => ?_⟩
  rw [needed, (RegMap.upTo_union hnodup).2, RegMap.upTo_without]

/-! ## Uses within so many blocks -/

/-- From the start of block `b` a use of register `r`, at a position up to `p`, is met
    before any write, in one of the next so many blocks. -/
inductive UsedWithin (c : Compilation) (g : Digraph) (r p : Int) : Nat → Nat → Prop where
  | here {k b : Nat} {blk : Block} : c.blocks[b]? = some blk → blk.uses.UpTo r p →
    UsedWithin c g r p (k + 1) b
  | later {k b s : Nat} {blk : Block} : c.blocks[b]? = some blk → blk.defs.has r = false →
    g.Edge b s → UsedWithin c g r p k s → UsedWithin c g r p (k + 1) b

theorem UsedWithin.succ (h : UsedWithin c g r p k b) : UsedWithin c g r p (k + 1) b := by
  induction h with
  | here hblk hr => exact here hblk hr
  | later hblk hnot hedge _ ih => exact later hblk hnot hedge ih

theorem usedWithin_succ_iff (hblk : c.blocks[b]? = some blk) :
    UsedWithin c g r p (k + 1) b ↔
      (∃ s : Nat, g.Edge b s ∧ UsedWithin c g r p k s) ∧ blk.defs.has r = false
        ∨ blk.uses.UpTo r p := by
  constructor
  · intro h
    cases h with
    | here hblk' hr => exact .inr (Option.mem_unique hblk hblk' ▸ hr)
    | later hblk' hnot hedge hs =>
      exact .inl ⟨⟨_, hedge, hs⟩, Option.mem_unique hblk hblk' ▸ hnot⟩
  · rintro (⟨⟨s, hedge, hs⟩, hnot⟩ | hr)
    · exact .later hblk hnot hedge hs
    · exact .here hblk hr

/-- If one block more brings nothing new, then any number of blocks does not. -/
theorem UsedWithin.of_succ (h : ∀ b, UsedWithin c g r p (n + 1) b → UsedWithin c g r p n b)
    (hk : UsedWithin c g r p k b) : UsedWithin c g r p n b := by
  induction hk with
  | here hblk hr => exact h _ (here hblk hr)
  | later hblk hnot hedge _ ih => exact h _ (later hblk hnot hedge ih)

/-! ## What a round finds -/

/-- The notes of block `b` give the uses within `k` blocks. -/
structure Knows (c : Compilation) (g : Digraph) (k b : Nat) (blk : Block) : Prop where
  nodupIn : blk.liveIn.keys.Nodup
  nodupOut : blk.liveOut.keys.Nodup
  liveIn : ∀ r p, blk.liveIn.UpTo r p ↔ UsedWithin c g r p k b
  liveOut : ∀ r p, blk.liveOut.UpTo r p ↔ ∃ s : Nat, g.Edge b s ∧ UsedWithin c g r p k s

variable {changed : Bool}

theorem Visited.knows (hv : Visited g b t blk new changed) (hc : Calm c t)
    (hold : Knows c g k b blk)
    (hnext : ∀ (s : Nat) (next : Block), g.Edge b s → t.blocks[s]? = some next →
      Knows c g (k + 1) s next)
    (hnodup : ∀ (s : Nat) (next : Block), t.blocks[s]? = some next → next.liveIn.keys.Nodup) :
    Knows c g (k + 1) b new := by
  obtain ⟨old, hblk, hcalm⟩ := hc.block hv.block
  obtain ⟨hdefs, huses⟩ := of_calm hcalm
  rw [hv.new_eq]
  refine ⟨(upTo_needed hold.nodupOut).1, ?_, fun r p => ?_, fun r p => ?_⟩
  · refine List.foldlRecOn (motive := fun m : RegMap => m.keys.Nodup) _ _ hold.nodupOut
      fun m _ x _ => (RegMap.upTo_union ?_).1
    unfold liveInAt
    cases hx : t.blocks[x.toNat]? with
    | none => exact List.nodup_nil
    | some next => exact hnodup _ next hx
  · rw [(upTo_needed hold.nodupOut).2, hold.liveOut, usedWithin_succ_iff hblk, hdefs, huses]
  · rw [joined_iff (P := fun m => m.UpTo r p) hv.onBlocks fun s next hs m =>
      (RegMap.upTo_union (hnodup s next hs)).2 r p, hold.liveOut]
    constructor
    · rintro (⟨s, hedge, hs⟩ | ⟨s, next, hedge, hs, hr⟩)
      · exact ⟨s, hedge, hs.succ⟩
      · exact ⟨s, hedge, ((hnext s next hedge hs).liveIn r p).mp hr⟩
    · rintro ⟨s, hedge, hs⟩
      have hlt := hv.onBlocks.edges b s hedge
      have hget : t.blocks[s]? = some t.blocks[s] := Array.getElem?_eq_getElem (by omega)
      exact .inr ⟨s, _, hedge, hget, ((hnext s _ hedge hget).liveIn r p).mpr hs⟩

/-- In the middle of a round: the blocks of `rest` are still to be visited, each after
    its successors. -/
structure InPass (c : Compilation) (g : Digraph) (k : Nat) (rest : List Int) (t : Compilation) :
    Prop where
  calm : Calm c t
  nodes : ∀ b ∈ rest, b ∈ g.nodes
  nodup : rest.Nodup
  forward : ∀ b x : Int, [b, x].Sublist rest → ¬ g.Edge b x
  knows : ∀ (b : Nat) (blk : Block), t.blocks[b]? = some blk →
    Knows c g (if (b : Int) ∈ rest then k else k + 1) b blk

theorem InPass.step {rest : List Int} (h : InPass c g k (b :: rest) t)
    (hv : Visited g b t blk new changed) :
    InPass c g k rest { t with blocks := t.blocks.setIfInBounds b new } := by
  have hlt := lt_size hv.block
  obtain ⟨hnot, hnodup⟩ := List.nodup_cons.mp h.nodup
  have hnew : Knows c g (k + 1) b new := by
    have hold := h.knows b blk hv.block
    rw [if_pos List.mem_cons_self] at hold
    refine hv.knows h.calm hold (fun s next hedge hs => ?_)
      fun s next hs => (h.knows s next hs).nodupIn
    have hs := h.knows s next hs
    rwa [if_neg] at hs
    intro hmem
    rcases List.mem_cons.mp hmem with heq | hmem
    · exact hv.onBlocks.irrefl b (heq ▸ hedge)
    · exact h.forward b s (List.cons_sublist_cons.mpr (List.singleton_sublist.mpr hmem)) hedge
  refine ⟨h.calm.set hv.block (by rw [hv.new_eq]; rfl), fun x hx => h.nodes x (by simp [hx]), hnodup,
    fun x y hsub => h.forward x y (hsub.trans (List.sublist_cons_self _ _)), fun x next hx => ?_⟩
  by_cases hxb : x = b
  · subst hxb
    rw [Array.getElem?_setIfInBounds_self_of_lt hlt] at hx
    rwa [← Option.some.inj hx, if_neg hnot]
  · rw [Array.getElem?_setIfInBounds_ne (Ne.symm hxb)] at hx
    have hx := h.knows x next hx
    simpa [List.mem_cons, hxb] using hx

/-- The notes of all blocks give the uses within `k` blocks. -/
structure Level (c : Compilation) (g : Digraph) (k : Nat) (t : Compilation) : Prop where
  calm : Calm c t
  knows : ∀ (b : Nat) (blk : Block), t.blocks[b]? = some blk → Knows c g k b blk

variable {c₀ d : Compilation}

theorem Level.round (h : Level c g k t) (hs : Searched c₀ g c order d)
    (hrun : Runs (visitAll g order) t changed t') : Level c g (k + 1) t' := by
  have hstart : InPass c g k order t := by
    refine ⟨h.calm, fun b hb => hs.perm.mem_iff.mp hb, hs.nodup, hs.forward, fun b blk hblk => ?_⟩
    have hlt := lt_size hblk
    rw [h.calm.size] at hlt
    rw [if_pos (hs.perm.mem_iff.mpr ((hs.onBlocks.nodes b).mpr (by omega)))]
    exact h.knows b blk hblk
  have hloop := foldlM_runs (b := false)
    (f := fun changed b => do
      let c ← visit g b
      return changed || c)
    (fun rest _ => InPass c g k rest) hstart ?_
  · obtain ⟨_, u, hrun', hend⟩ := hloop
    obtain ⟨-, rfl⟩ := hrun.unique hrun'
    exact ⟨hend.calm, fun b blk hblk => by simpa using hend.knows b blk hblk⟩
  · intro x rest flag s hpass
    obtain ⟨hx0, hxlt⟩ := (hs.onBlocks.nodes x).mp (hpass.nodes x (by simp))
    obtain ⟨b, rfl⟩ := Int.eq_ofNat_of_zero_le hx0
    have hsize := hpass.calm.size
    obtain ⟨blk, new, changed, hv, hrun⟩ :=
      visit_runs (hsize.symm ▸ hs.onBlocks) (by omega : b < s.blocks.size)
    exact ⟨flag || changed, _,
      runs_bind.mpr ⟨changed, _, hrun, runs_pure.mpr ⟨rfl, rfl⟩⟩, hpass.step hv⟩

/-- The loop over rounds ended after `n` of them. -/
inductive SettlesIn (g : Digraph) (order : List Int) : Nat → Compilation → Compilation → Prop where
  | stop {t t' : Compilation} : Runs (visitAll g order) t false t' → SettlesIn g order 1 t t'
  | more {n : Nat} {t t' t'' : Compilation} : Runs (visitAll g order) t true t' →
    SettlesIn g order n t' t'' → SettlesIn g order (n + 1) t t''

theorem Settles.rounds (h : Settles g order t t') : ∃ n, SettlesIn g order n t t' := by
  induction h with
  | stop hrun => exact ⟨1, .stop hrun⟩
  | more hrun _ ih =>
    obtain ⟨n, hn⟩ := ih
    exact ⟨n + 1, .more hrun hn⟩

theorem SettlesIn.level (hn : SettlesIn g order n t t') (h : Level c g k t)
    (hs : Searched c₀ g c order d) : Level c g (k + n) t' := by
  induction hn generalizing k with
  | stop hrun => exact h.round hs hrun
  | @more n _ _ _ hrun _ ih =>
    rw [show k + (n + 1) = k + 1 + n by omega]
    exact ih (h.round hs hrun)

theorem Searched.level_zero (hs : Searched c₀ g c order d) : Level c g 0 c := by
  have hnone : ∀ {r p b}, ¬ UsedWithin c g r p 0 b := nofun
  refine ⟨Calm.refl c, fun b blk hblk => ?_⟩
  obtain ⟨-, hin, hout⟩ := hs.blank b blk hblk
  refine ⟨?_, ?_, ?_, ?_⟩ <;> simp [hin, hout, RegMap.keys, RegMap.UpTo, hnone]

/-- Where the search has ended, a round adds no register. -/
theorem Searched.again (hs : Searched c₀ g c order d) :
    ∃ d', Runs (visitAll g order) d false d' := by
  obtain ⟨changed, d', hrun, happ, hmore, -⟩ :=
    visitAll_runs hs.uses hs.onBlocks (fun b hb => hs.perm.mem_iff.mp hb) hs.approximates
  cases changed with
  | false => exact ⟨d', hrun⟩
  | true =>
    have hgrows : Grows d' d := by
      refine ⟨fun b r hr => liveIn_of_live hs.closed (happ.liveIn b r hr), ?_⟩
      rintro b r ⟨blk, hblk, hr⟩
      obtain ⟨x, hedge, hx⟩ := happ.liveOut b r ⟨blk, hblk, hr⟩
      have hlt := lt_size hblk
      rw [happ.calm.size] at hlt
      exact (hs.closed b hlt).liveOut x r hedge (liveIn_of_live hs.closed hx)
    have hle := hgrows.weight_le (hs.approximates.calm.size.trans happ.calm.size.symm)
    have hlt := hmore rfl
    omega

/-- Every block has the same entries in its notes. -/
def SameNotes (t t' : Compilation) : Prop :=
  ∀ (b : Nat) (blk blk' : Block), t.blocks[b]? = some blk → t'.blocks[b]? = some blk' →
    (∀ e, e ∈ blk.liveIn ↔ e ∈ blk'.liveIn) ∧ ∀ e, e ∈ blk.liveOut ↔ e ∈ blk'.liveOut

theorem Level.sameNotes_iff (h : Level c g n t) (h' : Level c g (n + 1) t') :
    SameNotes t t' ↔ ∀ r p k b, UsedWithin c g r p k b → UsedWithin c g r p n b := by
  constructor
  · intro hsame r p k b hk
    refine UsedWithin.of_succ (fun b hb => ?_) hk
    -- the block exists, as something is used from there on
    obtain ⟨old, hold⟩ : ∃ old, c.blocks[b]? = some old := by
      cases hb with
      | here hblk _ => exact ⟨_, hblk⟩
      | later hblk _ _ _ => exact ⟨_, hblk⟩
    have hlt := lt_size hold
    have hblk : t.blocks[b]? = some _ := Array.getElem?_eq_getElem (by rw [h.calm.size]; exact hlt)
    have hblk' : t'.blocks[b]? = some _ := Array.getElem?_eq_getElem (by rw [h'.calm.size]; exact hlt)
    rw [← (h'.knows b _ hblk').liveIn] at hb
    rw [← (h.knows b _ hblk).liveIn]
    obtain ⟨q, hq, hmem⟩ := hb
    exact ⟨q, hq, ((hsame b _ _ hblk hblk').1 _).mpr hmem⟩
  · intro hall b blk blk' hblk hblk'
    have hk := h.knows b blk hblk
    have hk' := h'.knows b blk' hblk'
    have hiff : ∀ r p b, UsedWithin c g r p n b ↔ UsedWithin c g r p (n + 1) b :=
      fun r p b => ⟨.succ, hall r p (n + 1) b⟩
    have hin : ∀ r p, blk.liveIn.UpTo r p ↔ blk'.liveIn.UpTo r p := by
      intro r p
      rw [hk.liveIn, hk'.liveIn, hiff]
    have hout : ∀ r p, blk.liveOut.UpTo r p ↔ blk'.liveOut.UpTo r p := by
      intro r p
      simp only [hk.liveOut, hk'.liveOut, hiff]
    exact ⟨fun e => ⟨RegMap.mem_of_upTo hk.nodupIn hin,
        RegMap.mem_of_upTo hk'.nodupIn fun r p => (hin r p).symm⟩,
      fun e => ⟨RegMap.mem_of_upTo hk.nodupOut hout,
        RegMap.mem_of_upTo hk'.nodupOut fun r p => (hout r p).symm⟩⟩

/-- The search for live registers ends after some `n` rounds, with the first uses within
    `n` blocks. One more round adds no register, and it leaves the positions as they are
    if and only if no use that is further away comes earlier in the program. -/
theorem positions_settled_iff {s c : Compilation} {g : Digraph} (h : CutFrom s c)
    (hflow : c.flow = some g) (hac : g.Acyclic) :
    ∃ c₁ order n d d', Runs ((List.range c.blocks.size).forM summariseBlock) c ⟨⟩ c₁
      ∧ g.reverse.byGenerations = .ok order ∧ SettlesIn g order n c₁ d
      ∧ Runs acrossBlocks c ⟨⟩ d
      ∧ (∀ (b : Nat) (blk : Block), d.blocks[b]? = some blk → Knows c₁ g n b blk)
      ∧ Runs (visitAll g order) d false d'
      ∧ (SameNotes d d' ↔ ∀ r p k b, UsedWithin c₁ g r p k b → UsedWithin c₁ g r p n b) := by
  obtain ⟨hsound, hgraph⟩ := h.sound
  obtain ⟨c₁, order, d, hs, -⟩ :=
    acrossBlocks_searched hsound hflow (Option.mem_unique hgraph hflow) hac
  obtain ⟨n, hn⟩ := hs.settles.rounds
  have hlevel := hn.level hs.level_zero hs
  rw [Nat.zero_add] at hlevel
  obtain ⟨d', hagain⟩ := hs.again
  exact ⟨c₁, order, n, d, d', hs.summaries, hs.generations, hn, hs.run, hlevel.knows, hagain,
    hlevel.sameNotes_iff (hlevel.round hs hagain)⟩

/-- A register is read at the end of a short way, and earlier in the program at the end
    of a long one. -/
def nearAndFar : Array Word :=
  #[0xb706000001000000, 0x0500000000000000, 0x0500000000000000, 0x1501050000000000,
    0x0500000000000000, 0x0500000000000000, 0x0500000000000000, 0xbf60000000000000,
    0x9500000000000000, 0xbf60000000000000, 0x9500000000000000]

/-- Register 6 is read at 7, but block 2 still gives 9 when the search ends. -/
theorem positions_settled_iff_nearAndFar :
    ∃ s c g order d d', CutFrom s c ∧ c.flow = some g ∧ g.Acyclic
      ∧ g.reverse.byGenerations = .ok order ∧ Runs acrossBlocks c ⟨⟩ d
      ∧ Runs (visitAll g order) d false d' ∧ ¬ SameNotes d d' := by
  obtain ⟨c, g, hc, hflow, hac, hnoted, hdefs⟩ := exists_fused
    (s := start {} {} nearAndFar (nearAndFar.map fun _ => ""))
    (P := fun c => ((stateAfter acrossBlocks c).blocks[2]?.any fun blk =>
        blk.liveOut.contains (6, 7) && blk.liveIn.all fun e => e.1 != 6 || e.2 == 9) = true
      ∧ ((stateAfter ((List.range c.blocks.size).forM summariseBlock) c).blocks[2]?.any fun blk =>
        !blk.defs.has 6) = true)
    rfl (by decide +kernel) (by decide +kernel) (by decide +kernel) (by decide +kernel)
  obtain ⟨c₁, order, n, d, d', hrun₁, horder, -, hrun, hknows, hagain, hiff⟩ :=
    positions_settled_iff hc hflow hac
  refine ⟨_, c, g, order, d, d', hc, hflow, hac, horder, hrun, hagain, fun hsame => ?_⟩
  rw [stateAfter_of_runs hrun₁] at hdefs
  obtain ⟨old, hold, hnot⟩ := (Option.any_eq_true _ _).mp hdefs
  rw [stateAfter_of_runs hrun] at hnoted
  obtain ⟨blk, hblk, hr⟩ := (Option.any_eq_true _ _).mp hnoted
  obtain ⟨hout, hin⟩ := Bool.and_eq_true_iff.mp hr
  -- the use at 7 is known behind the block, which does not write the register
  have hk := hknows 2 blk hblk
  obtain ⟨x, hedge, hx⟩ := (hk.liveOut 6 7).mp ⟨7, le_refl _, by simpa using hout⟩
  have hused := hiff.mp hsame 6 7 (n + 1) 2 (.later hold (by simpa using hnot) hedge hx)
  obtain ⟨q, hq, hmem⟩ := (hk.liveIn 6 7).mpr hused
  have hnine := List.all_eq_true.mp hin _ hmem
  simp at hnine
  omega

end Liveness
end BpfLanes
