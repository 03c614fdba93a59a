import BpfLanes.Graph.Digraph
import Mathlib.Data.List.Basic
import Mathlib.Data.List.Sort

/-! # Topological orders

A graph built from lists has the given nodes once each and the given edges in
their order. The order that takes the smallest node first lists every node once,
and none of its edges leads back. Where all edges lead to greater nodes it is the
ascending order.
-/

namespace BpfLanes.Digraph

variable {e : Int × Int} {fuel : Nat}

variable {g : Digraph} {n x : Int} {ns remaining order : List Int} {es edges : List (Int × Int)}

/-! ## Building a graph -/

theorem mem_addNode : x ∈ (g.addNode n).nodes ↔ x ∈ g.nodes ∨ x = n := by
  unfold addNode
  split
  · next h =>
    have hn : n ∈ g.nodes := by simpa using h
    constructor
    · exact .inl
    · rintro (hx | rfl)
      · exact hx
      · exact hn
  · simp

theorem nodup_addNode (h : g.nodes.Nodup) : (g.addNode n).nodes.Nodup := by
  unfold addNode
  split
  · exact h
  next hn =>
  have hn' : n ∉ g.nodes := by simpa using hn
  rw [List.nodup_append]
  refine ⟨h, by simp, ?_⟩
  intro a ha b hb
  rintro rfl
  rw [List.mem_singleton] at hb
  exact hn' (hb ▸ ha)

@[simp] theorem edges_addNode : (g.addNode n).edges = g.edges := by
  unfold addNode
  split <;> rfl

theorem nodes_addEdge (g : Digraph) (e : Int × Int) :
    (g.addEdge e).nodes = ((g.addNode e.1).addNode e.2).nodes := by
  unfold addEdge
  dsimp only
  split <;> rfl

theorem mem_nodes_addEdge : x ∈ (g.addEdge e).nodes ↔ x ∈ g.nodes ∨ x = e.1 ∨ x = e.2 := by
  rw [nodes_addEdge, mem_addNode, mem_addNode, or_assoc]

theorem nodup_nodes_addEdge (h : g.nodes.Nodup) : (g.addEdge e).nodes.Nodup := by
  rw [nodes_addEdge]
  exact nodup_addNode (nodup_addNode h)

theorem edges_addEdge (g : Digraph) (e : Int × Int) :
    (g.addEdge e).edges = if e ∈ g.edges then g.edges else g.edges ++ [e] := by
  unfold addEdge
  by_cases h : e ∈ g.edges
  · simp [h]
  · simp [h]

theorem mem_nodes_foldl_addNode : x ∈ (ns.foldl addNode g).nodes ↔ x ∈ g.nodes ∨ x ∈ ns := by
  induction ns generalizing g with
  | nil => simp
  | cons n ns ih =>
    rw [List.foldl_cons, ih, mem_addNode, List.mem_cons, or_assoc]

theorem nodup_foldl_addNode (h : g.nodes.Nodup) : (ns.foldl addNode g).nodes.Nodup := by
  induction ns generalizing g with
  | nil => exact h
  | cons n ns ih => exact ih (nodup_addNode h)

theorem edges_foldl_addNode : (ns.foldl addNode g).edges = g.edges := by
  induction ns generalizing g with
  | nil => rfl
  | cons n ns ih => rw [List.foldl_cons, ih, edges_addNode]

theorem mem_nodes_foldl_addEdge :
    x ∈ (es.foldl addEdge g).nodes ↔ x ∈ g.nodes ∨ ∃ e ∈ es, x = e.1 ∨ x = e.2 := by
  induction es generalizing g with
  | nil => simp
  | cons e es ih =>
    rw [List.foldl_cons, ih, mem_nodes_addEdge]
    simp only [List.mem_cons, exists_eq_or_imp, or_assoc]

theorem nodup_foldl_addEdge (h : g.nodes.Nodup) : (es.foldl addEdge g).nodes.Nodup := by
  induction es generalizing g with
  | nil => exact h
  | cons e es ih => exact ih (nodup_nodes_addEdge h)

theorem edges_foldl_addEdge (es : List (Int × Int)) (g : Digraph) :
    ∃ new, (es.foldl addEdge g).edges = g.edges ++ new ∧ new.Sublist es
      ∧ ∀ e ∈ es, e ∈ g.edges ++ new := by
  induction es generalizing g with
  | nil => exact ⟨[], by simp, List.Sublist.refl _, by simp⟩
  | cons e es ih =>
    obtain ⟨new, hnew, hsub, hmem⟩ := ih (g.addEdge e)
    rw [edges_addEdge] at hnew hmem
    rw [List.foldl_cons, hnew]
    by_cases he : e ∈ g.edges
    · rw [if_pos he] at hmem ⊢
      refine ⟨new, rfl, hsub.cons _, ?_⟩
      intro x hx
      rcases List.mem_cons.mp hx with rfl | hx
      · simp [he]
      · exact hmem x hx
    · rw [if_neg he] at hmem ⊢
      refine ⟨e :: new, by simp, hsub.cons_cons _, ?_⟩
      intro x hx
      rcases List.mem_cons.mp hx with rfl | hx
      · simp
      · simpa using hmem x hx

theorem nodup_edges_addEdge (h : g.edges.Nodup) : (g.addEdge e).edges.Nodup := by
  rw [edges_addEdge]
  split
  · exact h
  · next he => exact h.append (List.nodup_singleton e) (by simpa using he)

theorem nodup_edges_foldl_addEdge (h : g.edges.Nodup) : (es.foldl addEdge g).edges.Nodup := by
  induction es generalizing g with
  | nil => exact h
  | cons e es ih => exact ih (nodup_edges_addEdge h)

/-- Nodes and edges are listed once, and edges lead from nodes to nodes. -/
structure Simple (g : Digraph) : Prop where
  nodes : g.nodes.Nodup
  edges : g.edges.Nodup
  ends : ∀ e ∈ g.edges, e.1 ∈ g.nodes ∧ e.2 ∈ g.nodes

theorem mem_nodes_ofLists : x ∈ (ofLists ns es).nodes ↔ x ∈ ns ∨ ∃ e ∈ es, x = e.1 ∨ x = e.2 := by
  unfold ofLists
  rw [mem_nodes_foldl_addEdge, mem_nodes_foldl_addNode]
  simp

theorem nodup_nodes_ofLists : (ofLists ns es).nodes.Nodup :=
  nodup_foldl_addEdge (nodup_foldl_addNode List.nodup_nil)

theorem edges_ofLists_sublist : (ofLists ns es).edges.Sublist es := by
  obtain ⟨new, hnew, hsub, _⟩ := edges_foldl_addEdge es (ns.foldl addNode {})
  rw [edges_foldl_addNode, List.nil_append] at hnew
  unfold ofLists
  rwa [hnew]

theorem mem_edges_ofLists : e ∈ (ofLists ns es).edges ↔ e ∈ es := by
  constructor
  · intro h
    exact edges_ofLists_sublist.subset h
  · intro h
    obtain ⟨new, hnew, _, hmem⟩ := edges_foldl_addEdge es (ns.foldl addNode {})
    unfold ofLists
    rw [hnew]
    exact hmem e h

theorem simple_ofLists : (ofLists ns es).Simple := by
  refine ⟨nodup_nodes_ofLists, ?_, ?_⟩
  · apply nodup_edges_foldl_addEdge
    rw [edges_foldl_addNode]
    exact List.nodup_nil
  · intro e he
    rw [mem_edges_ofLists] at he
    exact ⟨mem_nodes_ofLists.mpr (.inr ⟨e, he, .inl rfl⟩),
      mem_nodes_ofLists.mpr (.inr ⟨e, he, .inr rfl⟩)⟩

theorem mem_before {p : Int} : p ∈ g.before n ↔ (p, n) ∈ g.edges := by
  unfold before
  simp

theorem Simple.nodup_before (h : g.Simple) (n : Int) : (g.before n).Nodup := by
  refine List.Nodup.map_on ?_ (h.edges.filter _)
  intro e he e' he' heq
  have hn : e.2 = n := by simpa using (List.mem_filter.mp he).2
  have hn' : e'.2 = n := by simpa using (List.mem_filter.mp he').2
  exact Prod.ext heq (hn.trans hn'.symm)

/-! ## Smallest node first -/

theorem insertNode_perm (n : Int) (xs : List Int) : (insertNode n xs).Perm (n :: xs) := by
  induction xs with
  | nil => exact List.Perm.refl _
  | cons x xs ih =>
    unfold insertNode
    split
    · exact List.Perm.refl _
    · exact (ih.cons x).trans (List.Perm.swap n x xs)

theorem ascending_perm (xs : List Int) : (ascending xs).Perm xs := by
  induction xs with
  | nil => exact List.Perm.refl _
  | cons x xs ih => exact (insertNode_perm x _).trans (ih.cons x)

/-- No edge leads from a later element of the list to an earlier one. -/
def Forward (edges : List (Int × Int)) (order : List Int) : Prop :=
  order.Pairwise fun a b => (b, a) ∉ edges

theorem peel_spec (hnd : remaining.Nodup) (h : peel fuel remaining edges = some
    order) : order.Perm remaining ∧ Forward edges order := by
  induction fuel generalizing remaining order edges with
  | zero =>
    cases remaining with
    | nil =>
      cases h
      exact ⟨List.Perm.refl _, List.Pairwise.nil⟩
    | cons x xs => cases h
  | succ fuel ih =>
    cases remaining with
    | nil =>
      cases h
      exact ⟨List.Perm.refl _, List.Pairwise.nil⟩
    | cons x xs =>
      unfold peel at h
      split at h
      · cases h
      next n hfind =>
      obtain ⟨rest, hrest, rfl⟩ := Option.map_eq_some_iff.mp h
      have hmem : n ∈ x :: xs := List.mem_of_find?_eq_some hfind
      have hfree : ∀ e ∈ edges, e.2 ≠ n := by
        have hn := List.find?_some hfind
        simpa using hn
      obtain ⟨hperm, hforward⟩ := ih (hnd.erase n) hrest
      refine ⟨(hperm.cons n).trans (List.perm_cons_erase hmem).symm, ?_⟩
      refine List.Pairwise.cons ?_ ?_
      · intro b _ hedge
        exact hfree (b, n) hedge rfl
      -- the edges taken away leave `n`, which is not among the rest
      refine hforward.imp_of_mem ?_
      intro a b _ hb hnot hedge
      have hbn : b ≠ n := by
        rintro rfl
        exact hnd.not_mem_erase (hperm.mem_iff.mp hb)
      exact hnot (List.mem_filter.mpr ⟨hedge, by simpa using hbn⟩)

theorem smallestFirst_spec (hnd : g.nodes.Nodup) (h : g.smallestFirst = .ok order) :
    order.Perm g.nodes ∧ Forward g.edges order := by
  unfold smallestFirst at h
  split at h
  · next order' hpeel =>
    cases h
    have hperm := ascending_perm g.nodes
    obtain ⟨hp, hf⟩ := peel_spec (hperm.nodup_iff.mpr hnd) hpeel
    exact ⟨hp.trans hperm, hf⟩
  · cases h

theorem insertNode_eq_orderedInsert (n : Int) (xs : List Int) :
    insertNode n xs = xs.orderedInsert (· ≤ ·) n := by
  induction xs with
  | nil => rfl
  | cons x xs ih =>
    unfold insertNode List.orderedInsert
    rw [ih]

theorem ascending_eq_insertionSort (xs : List Int) : ascending xs = xs.insertionSort (· ≤ ·) := by
  unfold ascending List.insertionSort
  congr 1
  funext n xs
  exact insertNode_eq_orderedInsert n xs

theorem ascending_pairwise {xs : List Int} (h : xs.Nodup) : (ascending xs).Pairwise (· < ·) := by
  have hle : (ascending xs).Pairwise (· ≤ ·) := by
    rw [ascending_eq_insertionSort]
    exact List.pairwise_insertionSort _ xs
  have hne : (ascending xs).Nodup := (ascending_perm xs).nodup_iff.mpr h
  exact hle.imp₂ (fun _ _ hle hne => lt_of_le_of_ne hle hne) hne

theorem peel_of_ascending (hasc : remaining.Pairwise (· < ·))
    (hedges : ∀ e ∈ edges, e.1 ∈ remaining ∧ e.1 < e.2)
    (h : peel fuel remaining edges = some order) : order = remaining := by
  induction fuel generalizing remaining order edges with
  | zero =>
    cases remaining with
    | nil => exact (Option.some.inj h).symm
    | cons x xs => cases h
  | succ fuel ih =>
    cases remaining with
    | nil => exact (Option.some.inj h).symm
    | cons x xs =>
      obtain ⟨hleast, hxs⟩ := List.pairwise_cons.mp hasc
      have hfree : (!edges.any fun e => e.2 == x) = true := by
        rw [Bool.not_eq_true', List.any_eq_false]
        intro e he heq
        obtain ⟨hmem, hlt⟩ := hedges e he
        rw [beq_iff_eq.mp heq] at hlt
        rcases List.mem_cons.mp hmem with hmem | hmem
        · omega
        · have := hleast _ hmem
          omega
      unfold peel at h
      rw [List.find?_cons_of_pos (p := fun n => !edges.any fun e => e.2 == n) hfree] at h
      obtain ⟨rest, hrest, rfl⟩ := Option.map_eq_some_iff.mp h
      rw [List.erase_cons_head] at hrest
      rw [ih hxs ?_ hrest]
      intro e he
      obtain ⟨hin, hne⟩ := List.mem_filter.mp he
      obtain ⟨hmem, hlt⟩ := hedges e hin
      exact ⟨(List.mem_cons.mp hmem).resolve_left (by simpa using hne), hlt⟩

theorem smallestFirst_of_ascending (hg : g.Simple) (hedges : ∀ e ∈ g.edges, e.1 < e.2)
    (h : g.smallestFirst = .ok order) : order.Pairwise (· < ·) := by
  unfold smallestFirst at h
  split at h
  · next order' hpeel =>
    cases h
    have hasc := ascending_pairwise hg.nodes
    rw [peel_of_ascending hasc ?_ hpeel]
    · exact hasc
    · intro e he
      exact ⟨(ascending_perm g.nodes).mem_iff.mpr (hg.ends e he).1, hedges e he⟩
  · cases h

end BpfLanes.Digraph
