import BpfLanes.Proofs.TopologicalOrder
import Mathlib.Data.Fintype.Card
import Mathlib.Data.Set.Finite.Basic
import Mathlib.Logic.Relation
import Mathlib.Order.WellFounded

/-! # Generations of a graph without cycles

Taking a graph apart generation by generation reaches every node if no way along
its edges leads back to where it started.
-/

namespace BpfLanes.Digraph

variable {n : Int} {generation : List Int}

variable {g : Digraph}

/-! ## Graphs without cycles -/

/-- An edge of a graph. -/
def Edge (g : Digraph) (a b : Int) : Prop := (a, b) ∈ g.edges

/-- A graph without cycles. -/
def Acyclic (g : Digraph) : Prop := ∀ n, ¬ Relation.TransGen g.Edge n n

theorem acyclic_of_ascending (h : ∀ e ∈ g.edges, e.1 < e.2) : g.Acyclic := by
  have hlt : ∀ a b, Relation.TransGen g.Edge a b → a < b := by
    intro a b hab
    induction hab with
    | single hstep => exact h _ hstep
    | tail _ hstep ih => exact Int.lt_trans ih (h _ hstep)
  intro n hn
  exact absurd (hlt n n hn) (Int.lt_irrefl n)

theorem Acyclic.exists_first (h : g.Acyclic) {xs : List Int} (hne : xs ≠ []) :
    ∃ n ∈ xs, ∀ m ∈ xs, ¬ g.Edge m n := by
  let before : {x // x ∈ xs} → {x // x ∈ xs} → Prop :=
    fun a b => Relation.TransGen g.Edge a.1 b.1
  have hirrefl : Std.Irrefl before := ⟨fun a => h a.1⟩
  have hwf : WellFounded before := Finite.wellFounded_of_trans_of_irrefl before
  obtain ⟨x, hx⟩ := List.exists_mem_of_ne_nil xs hne
  obtain ⟨n, _, hmin⟩ := hwf.has_min Set.univ ⟨⟨x, hx⟩, trivial⟩
  refine ⟨n.1, n.2, ?_⟩
  intro m hm hedge
  exact hmin ⟨m, hm⟩ trivial (Relation.TransGen.single hedge)

theorem mem_after {m : Int} : m ∈ g.after n ↔ g.Edge n m := by
  unfold after Edge
  simp

theorem nodup_after (h : g.edges.Nodup) (n : Int) : (g.after n).Nodup := by
  apply List.Nodup.map_on _ (h.filter _)
  intro a ha b hb hab
  have ha' : a.1 = n := by simpa using (List.mem_filter.mp ha).2
  have hb' : b.1 = n := by simpa using (List.mem_filter.mp hb).2
  exact Prod.ext (ha'.trans hb'.symm) hab

/-! ## Turning edges around -/

theorem edge_reverse (h : g.Simple) {a b : Int} : g.reverse.Edge a b ↔ g.Edge b a := by
  unfold Edge reverse
  simp only [List.mem_flatMap, List.mem_map, Prod.mk.injEq, mem_after]
  constructor
  · rintro ⟨u, _, v, hv, rfl, rfl⟩
    exact hv
  · intro hab
    exact ⟨b, (h.ends _ hab).1, a, hab, rfl, rfl⟩

theorem Simple.reverse (h : g.Simple) : g.reverse.Simple := by
  refine ⟨h.nodes, ?_, ?_⟩
  · show (g.nodes.flatMap fun u => (g.after u).map fun v => (v, u)).Nodup
    rw [List.nodup_flatMap]
    refine ⟨?_, ?_⟩
    · intro u _
      apply (nodup_after h.edges u).map
      intro a b hab
      exact (Prod.mk.inj hab).1
    · -- edges of different nodes end in different nodes
      apply h.nodes.imp
      intro u u' hne e he he'
      obtain ⟨v, _, rfl⟩ := List.mem_map.mp he
      obtain ⟨v', _, heq⟩ := List.mem_map.mp he'
      exact hne (Prod.mk.inj heq).2.symm
  · intro e he
    have hedge : g.Edge e.2 e.1 := (edge_reverse h).mp he
    exact (h.ends _ hedge).symm

theorem Acyclic.reverse (h : g.Acyclic) (hg : g.Simple) : g.reverse.Acyclic := by
  intro n hn
  have hswap : Relation.TransGen (Function.swap g.Edge) n n :=
    Relation.TransGen.mono (fun a b hab => (edge_reverse hg).mp hab) n n hn
  exact h n (Relation.transGen_swap.mp hswap)

/-! ## The next generation -/

/-- The edges that leave a generation, in the order in which they are taken away. -/
def leaving (g : Digraph) (generation : List Int) : List (Int × Int) :=
  generation.flatMap fun n => (g.after n).map fun c => (n, c)

/-- Takes one edge away. Its end is free if it was the last one that led there. -/
def release (acc : List Int × List (Int × Int)) (e : Int × Int) : List Int × List (Int × Int) :=
  let edges := acc.2.erase e
  if edges.any fun e' => e'.2 == e.2 then (acc.1, edges) else (acc.1 ++ [e.2], edges)

theorem nextGeneration_eq (g : Digraph) (generation : List Int) (edges : List (Int × Int)) :
    g.nextGeneration generation edges = (g.leaving generation).foldl release ([], edges) := by
  unfold nextGeneration leaving release
  rw [List.foldl_flatMap]
  simp only [List.foldl_map]

theorem mem_leaving {e : Int × Int} :
    e ∈ g.leaving generation ↔ e.1 ∈ generation ∧ e ∈ g.edges := by
  unfold leaving
  simp only [List.mem_flatMap, List.mem_map, mem_after]
  constructor
  · rintro ⟨n, hn, c, hc, rfl⟩
    exact ⟨hn, hc⟩
  · intro h
    exact ⟨e.1, h.1, e.2, h.2, rfl⟩

theorem nodup_leaving (hg : g.Simple) (h : generation.Nodup) : (g.leaving generation).Nodup := by
  unfold leaving
  rw [List.nodup_flatMap]
  refine ⟨?_, ?_⟩
  · intro n _
    apply (nodup_after hg.edges n).map
    intro a b hab
    exact (Prod.mk.inj hab).2
  · apply h.imp
    intro n n' hne e he he'
    obtain ⟨c, _, rfl⟩ := List.mem_map.mp he
    obtain ⟨c', _, heq⟩ := List.mem_map.mp he'
    exact hne (Prod.mk.inj heq).1.symm

/-- The edges in `taken` have been taken away from `edges`: what is left of them, and
    the nodes that became free. -/
structure Released (edges taken : List (Int × Int)) (acc : List Int × List (Int × Int)) :
    Prop where
  nodup : acc.1.Nodup
  left : acc.2.Nodup
  mem_left : ∀ e, e ∈ acc.2 ↔ e ∈ edges ∧ e ∉ taken
  mem_free : ∀ n, n ∈ acc.1 ↔ (∃ e ∈ taken, e.2 = n) ∧ ∀ e ∈ acc.2, e.2 ≠ n

variable {edges taken : List (Int × Int)} {acc : List Int × List (Int × Int)} {e : Int × Int}

theorem Released.mem_erase (h : Released edges taken acc) {e' : Int × Int} :
    e' ∈ acc.2.erase e ↔ e' ∈ edges ∧ e' ∉ taken ++ [e] := by
  rw [h.left.mem_erase_iff, h.mem_left, List.mem_append, List.mem_singleton]
  tauto

theorem Released.mem_free_of_ne (h : Released edges taken acc) (hn : n ≠ e.2) :
    n ∈ acc.1 ↔ (∃ e' ∈ taken ++ [e], e'.2 = n) ∧ ∀ e' ∈ acc.2.erase e, e'.2 ≠ n := by
  have hne : ∀ e' : Int × Int, e'.2 = n → e' ≠ e := by
    intro e' hend heq
    rw [heq] at hend
    exact hn hend.symm
  rw [h.mem_free]
  constructor
  · rintro ⟨⟨e₁, he₁, hn₁⟩, hno⟩
    exact ⟨⟨e₁, List.mem_append_left _ he₁, hn₁⟩, fun e₂ he₂ => hno e₂ (List.mem_of_mem_erase he₂)⟩
  rintro ⟨⟨e₁, he₁, hn₁⟩, hno⟩
  refine ⟨⟨e₁, ?_, hn₁⟩, ?_⟩
  · rcases List.mem_append.mp he₁ with hold₁ | hnew₁
    · exact hold₁
    · exact absurd (List.mem_singleton.mp hnew₁) (hne e₁ hn₁)
  · intro e₂ he₂ hn₂
    exact hno e₂ ((List.mem_erase_of_ne (hne e₂ hn₂)).mpr he₂) hn₂

theorem Released.step (h : Released edges taken acc) (he : e ∈ edges) (hnew : e ∉ taken) :
    Released edges (taken ++ [e]) (release acc e) := by
  -- the end of an edge that is still there has not been freed
  have hold : e.2 ∉ acc.1 := by
    intro hfree
    exact ((h.mem_free e.2).mp hfree).2 e ((h.mem_left e).mpr ⟨he, hnew⟩) rfl
  unfold release
  by_cases hany : ∃ e' ∈ acc.2.erase e, e'.2 = e.2
  · have hif : ((acc.2.erase e).any fun e' => e'.2 == e.2) = true := by simpa using hany
    simp only [hif, if_true]
    refine ⟨h.nodup, h.left.erase e, fun _ => h.mem_erase, ?_⟩
    intro n
    by_cases hn : n = e.2
    · obtain ⟨e', he', hend⟩ := hany
      rw [hn]
      exact ⟨fun hfree => absurd hfree hold, fun hfree => absurd hend (hfree.2 e' he')⟩
    · exact h.mem_free_of_ne hn
  · have hif : ((acc.2.erase e).any fun e' => e'.2 == e.2) = false := by
      rw [List.any_eq_false]
      intro e' he' hend
      exact hany ⟨e', he', by simpa using hend⟩
    simp only [hif, Bool.false_eq_true, if_false]
    refine ⟨?_, h.left.erase e, fun _ => h.mem_erase, ?_⟩
    · rw [List.nodup_append]
      refine ⟨h.nodup, List.nodup_singleton _, ?_⟩
      intro a ha b hb hab
      rw [List.mem_singleton] at hb
      rw [hab, hb] at ha
      exact hold ha
    · intro n
      rw [List.mem_append, List.mem_singleton]
      by_cases hn : n = e.2
      · simp only [hn, or_true, true_iff]
        exact ⟨⟨e, by simp, rfl⟩, fun e₂ he₂ hn₂ => hany ⟨e₂, he₂, hn₂⟩⟩
      · simp only [hn, or_false]
        exact h.mem_free_of_ne hn

theorem released_foldl (hedges : edges.Nodup) (htaken : taken.Nodup) (hsub : ∀ e ∈ taken, e ∈ edges) :
    Released edges taken (taken.foldl release ([], edges)) := by
  induction taken using List.reverseRecOn with
  | nil => exact ⟨List.nodup_nil, hedges, by simp, by simp⟩
  | append_singleton taken e ih =>
    obtain ⟨hnodup, _, hdisj⟩ := List.nodup_append.mp htaken
    rw [List.foldl_append]
    apply (ih hnodup fun e' he' => hsub e' (by simp [he'])).step (hsub e (by simp))
    intro he
    exact hdisj e he e (by simp) rfl

/-! ## All generations -/

/-- Where the search stands: `done` holds the nodes of the generations so far, `edges`
    the edges that do not start there, and `generation` the nodes that are free. -/
structure Standing (g : Digraph) (done generation : List Int) (edges : List (Int × Int)) :
    Prop where
  done_nodup : done.Nodup
  done_sub : ∀ n ∈ done, n ∈ g.nodes
  closed : ∀ e ∈ g.edges, e.2 ∈ done → e.1 ∈ done
  nodup : generation.Nodup
  mem : ∀ n, n ∈ generation ↔ n ∈ g.nodes ∧ n ∉ done ∧ ∀ e ∈ edges, e.2 ≠ n
  edges_nodup : edges.Nodup
  mem_edges : ∀ e, e ∈ edges ↔ e ∈ g.edges ∧ e.1 ∉ done
  forward : Forward g.edges done

variable {done : List Int}

theorem standing_start (hg : g.Simple) :
    Standing g [] (g.nodes.filter fun n => !g.edges.any fun e => e.2 == n) g.edges := by
  refine ⟨List.nodup_nil, by simp, by simp, hg.nodes.filter _, ?_, hg.edges, by simp, .nil⟩
  intro n
  simp

theorem Standing.step (hg : g.Simple) (h : Standing g done generation edges) :
    Standing g (done ++ generation) (g.nextGeneration generation edges).1
      (g.nextGeneration generation edges).2 := by
  have hsub : ∀ e ∈ g.leaving generation, e ∈ edges := by
    intro e he
    obtain ⟨hgen, hedge⟩ := mem_leaving.mp he
    exact (h.mem_edges e).mpr ⟨hedge, ((h.mem e.1).mp hgen).2.1⟩
  have hrel := released_foldl h.edges_nodup (nodup_leaving hg h.nodup) hsub
  rw [← nextGeneration_eq] at hrel
  have hleft : ∀ e, e ∈ (g.nextGeneration generation edges).2 ↔
      e ∈ g.edges ∧ e.1 ∉ done ++ generation := by
    intro e
    rw [hrel.mem_left, h.mem_edges, mem_leaving, List.mem_append]
    tauto
  refine ⟨?_, ?_, ?_, hrel.nodup, ?_, hrel.left, hleft, ?_⟩
  · rw [List.nodup_append]
    refine ⟨h.done_nodup, h.nodup, ?_⟩
    intro a ha b hb hab
    rw [hab] at ha
    exact ((h.mem b).mp hb).2.1 ha
  · intro n hn
    rcases List.mem_append.mp hn with hn | hn
    · exact h.done_sub n hn
    · exact ((h.mem n).mp hn).1
  · intro e he hend
    rw [List.mem_append] at hend ⊢
    rcases hend with hend | hend
    · exact .inl (h.closed e he hend)
    · -- no edge that is left leads to a free node
      by_cases hdone : e.1 ∈ done
      · exact .inl hdone
      · exact absurd rfl (((h.mem e.2).mp hend).2.2 e ((h.mem_edges e).mpr ⟨he, hdone⟩))
  · intro n
    rw [hrel.mem_free, List.mem_append]
    constructor
    · rintro ⟨⟨e, he, rfl⟩, hno⟩
      obtain ⟨hgen, hedge⟩ := mem_leaving.mp he
      refine ⟨(hg.ends e hedge).2, ?_, hno⟩
      intro hor
      rcases hor with hdone | hgen'
      · exact ((h.mem e.1).mp hgen).2.1 (h.closed e hedge hdone)
      · exact ((h.mem e.2).mp hgen').2.2 e (hsub e he) rfl
    · rintro ⟨hnode, hnew, hno⟩
      have hlater : n ∉ generation := fun hgen => hnew (.inr hgen)
      -- a node that was not free had an edge, which has been taken away
      have hedge : ∃ e ∈ edges, e.2 = n := by
        by_contra hnone
        push Not at hnone
        exact hlater ((h.mem n).mpr ⟨hnode, fun hdone => hnew (.inl hdone), hnone⟩)
      obtain ⟨e, he, hend⟩ := hedge
      refine ⟨⟨e, ?_, hend⟩, hno⟩
      by_contra hkept
      exact hno e ((hrel.mem_left e).mpr ⟨he, hkept⟩) hend
  · -- what leads to a free node starts in an earlier generation
    have hfree : ∀ a ∈ generation, ∀ b ∉ done, (b, a) ∉ g.edges := fun a ha b hb hedge =>
      ((h.mem a).mp ha).2.2 (b, a) ((h.mem_edges _).mpr ⟨hedge, hb⟩) rfl
    have hnew : ∀ b ∈ generation, b ∉ done := fun b hb => ((h.mem b).mp hb).2.1
    refine List.pairwise_append.mpr ⟨h.forward, ?_, fun a ha b hb hedge => ?_⟩
    · exact List.pairwise_of_forall_mem_list fun a ha b hb => hfree a ha b (hnew b hb)
    · exact hnew b hb (h.closed _ hedge ha)

theorem Standing.all_done (hg : g.Simple) (hac : g.Acyclic) (h : Standing g done [] edges) :
    ∀ n ∈ g.nodes, n ∈ done := by
  by_contra hsome
  push Not at hsome
  obtain ⟨n, hnode, hnew⟩ := hsome
  have hne : (g.nodes.filter fun n => decide (n ∉ done)) ≠ [] :=
    List.ne_nil_of_mem (List.mem_filter.mpr ⟨hnode, by simpa using hnew⟩)
  obtain ⟨first, hfirst, hnone⟩ := hac.exists_first hne
  obtain ⟨hfnode, hfnew⟩ := List.mem_filter.mp hfirst
  have hfree : first ∈ ([] : List Int) := by
    refine (h.mem first).mpr ⟨hfnode, by simpa using hfnew, ?_⟩
    intro e he hend
    obtain ⟨hedge, hstart⟩ := (h.mem_edges e).mp he
    apply hnone e.1
    · exact List.mem_filter.mpr ⟨(hg.ends e hedge).1, by simpa using hstart⟩
    · rwa [← hend]
  cases hfree

theorem descend_spec (hg : g.Simple) (hac : g.Acyclic) (fuel : Nat)
    (h : Standing g done generation edges) (hfuel : g.nodes.length ≤ done.length + fuel) :
    (done ++ g.descend fuel generation edges).Perm g.nodes ∧
      Forward g.edges (done ++ g.descend fuel generation edges) := by
  induction fuel generalizing done generation edges with
  | zero =>
    show (done ++ []).Perm g.nodes ∧ Forward g.edges (done ++ [])
    rw [List.append_nil]
    exact ⟨(h.done_nodup.subperm h.done_sub).perm_of_length_le (by omega), h.forward⟩
  | succ fuel ih =>
    cases generation with
    | nil =>
      show (done ++ []).Perm g.nodes ∧ Forward g.edges (done ++ [])
      rw [List.append_nil]
      refine ⟨(List.perm_ext_iff_of_nodup h.done_nodup hg.nodes).mpr ?_, h.forward⟩
      intro n
      exact ⟨h.done_sub n, h.all_done hg hac n⟩
    | cons n rest =>
      show (done ++ (n :: rest ++ g.descend fuel _ _)).Perm g.nodes ∧
        Forward g.edges (done ++ (n :: rest ++ g.descend fuel _ _))
      rw [← List.append_assoc]
      apply ih (h.step hg)
      rw [List.length_append, List.length_cons]
      omega

theorem byGenerations_spec (hg : g.Simple) (hac : g.Acyclic) :
    ∃ order, g.byGenerations = .ok order ∧ order.Perm g.nodes ∧ Forward g.edges order := by
  obtain ⟨hperm, hforward⟩ :=
    descend_spec hg hac g.nodes.length (standing_start hg) (by simp)
  rw [List.nil_append] at hperm hforward
  refine ⟨_, ?_, hperm, hforward⟩
  unfold byGenerations
  simp only [hperm.length_eq, beq_self_eq_true, if_true]

/-! ## Cycles -/

section
variable (h : Standing g done generation edges) (hdone : ∀ n ∈ done, ¬ Relation.TransGen g.Edge n n)
include h hdone

theorem Standing.free_off_cycles :
    ∀ n ∈ generation, ¬ Relation.TransGen g.Edge n n := by
  intro n hn hcycle
  obtain ⟨m, hpath, hedge⟩ := Relation.TransGen.tail'_iff.mp hcycle
  have hm : m ∈ done := by
    by_contra hnew
    exact ((h.mem n).mp hn).2.2 (m, n) ((h.mem_edges _).mpr ⟨hedge, hnew⟩) rfl
  exact hdone m hm (Relation.TransGen.head' hedge hpath)

theorem descend_off_cycles (hg : g.Simple) (fuel : Nat) :
    ∃ generation' edges', Standing g (done ++ g.descend fuel generation edges) generation' edges'
      ∧ ∀ n ∈ done ++ g.descend fuel generation edges, ¬ Relation.TransGen g.Edge n n := by
  induction fuel generalizing done generation edges with
  | zero =>
    show ∃ _ _, Standing g (done ++ []) _ _ ∧ ∀ n ∈ done ++ [], _
    rw [List.append_nil]
    exact ⟨generation, edges, h, hdone⟩
  | succ fuel ih =>
    cases generation with
    | nil =>
      show ∃ _ _, Standing g (done ++ []) _ _ ∧ ∀ n ∈ done ++ [], _
      rw [List.append_nil]
      exact ⟨[], edges, h, hdone⟩
    | cons n rest =>
      have hnext : ∀ m ∈ done ++ n :: rest, ¬ Relation.TransGen g.Edge m m := by
        intro m hm
        rcases List.mem_append.mp hm with hm | hm
        · exact hdone m hm
        · exact h.free_off_cycles hdone m hm
      have hrest := ih (h.step hg) hnext
      rwa [List.append_assoc] at hrest

end

theorem acyclic_of_byGenerations (hg : g.Simple) {order : List Int}
    (h : g.byGenerations = .ok order) : g.Acyclic := by
  obtain ⟨_, _, hend, hoff⟩ := descend_off_cycles (standing_start hg) (by simp) hg g.nodes.length
  unfold byGenerations at h
  dsimp only at h
  split at h
  · next hlen =>
    -- as many different nodes as there are: all of them
    have hperm := (hend.done_nodup.subperm hend.done_sub).perm_of_length_le
      (Nat.le_of_eq (beq_iff_eq.mp hlen).symm)
    intro n hcycle
    obtain ⟨m, hedge, -⟩ := Relation.TransGen.head'_iff.mp hcycle
    have hnode : n ∈ g.nodes := (hg.ends (n, m) hedge).1
    exact hoff n (hperm.mem_iff.mpr hnode) hcycle
  · cases h

theorem Acyclic.of_reverse (h : g.reverse.Acyclic) (hg : g.Simple) : g.Acyclic := by
  intro n hn
  have hswap : Relation.TransGen (Function.swap g.reverse.Edge) n n :=
    Relation.TransGen.mono (fun a b hab => (edge_reverse hg).mpr hab) n n hn
  exact h n (Relation.transGen_swap.mp hswap)

end BpfLanes.Digraph
