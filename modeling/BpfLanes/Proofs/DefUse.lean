import BpfLanes.Proofs.DependenceGraph
import BpfLanes.Proofs.Generations
import BpfLanes.Proofs.WordFields

/-! # Definitions and uses in a block

The dependence graph of a block has an edge for every definition and use of a register and
no other, in whatever order the registers that are live before and after the block are
listed. The scheduler visits the predecessors of an instruction in the order of the graph,
and relies on what stands for the code before the block to come first.
-/

namespace BpfLanes.Dependence

open Compilation

variable {liveIn liveOut : RegMap} {body : List Instr}

/-- A list that may start with `x`, and then ascends. -/
def LedBy (x : Int) (xs : List Int) : Prop :=
  ∃ rest, (xs = rest ∨ xs = x :: rest) ∧ x ∉ rest ∧ rest.Pairwise (· < ·)

theorem ledBy_of_pairwise {x : Int} {xs : List Int} (hnodup : xs.Nodup)
    (h : xs.Pairwise fun a b => a = x ∨ b ≠ x ∧ a < b) : LedBy x xs := by
  have hascend : ∀ ys : List Int, x ∉ ys → (ys.Pairwise fun a b => a = x ∨ b ≠ x ∧ a < b) →
      ys.Pairwise (· < ·) := by
    intro ys hnot hys
    refine hys.imp_of_mem ?_
    rintro a b ha _ (rfl | ⟨_, hlt⟩)
    · exact absurd ha hnot
    · exact hlt
  cases xs with
  | nil => exact ⟨[], .inl rfl, List.not_mem_nil, List.Pairwise.nil⟩
  | cons a rest =>
    obtain ⟨hfirst, hrest⟩ := List.pairwise_cons.mp h
    by_cases ha : a = x
    · subst ha
      have hnot := (List.nodup_cons.mp hnodup).1
      exact ⟨rest, .inr rfl, hnot, hascend rest hnot hrest⟩
    · have hnot : x ∉ a :: rest := by
        intro hx
        rcases List.mem_cons.mp hx with rfl | hx
        · exact ha rfl
        · exact ((hfirst x hx).resolve_left ha).1 rfl
      exact ⟨a :: rest, .inl rfl, hnot, hascend _ hnot h⟩

/-- A graph of definitions and uses of registers. -/
structure IsDefUse (liveOut : RegMap) (body : List Instr) (g : Digraph) : Prop where
  inner : ∀ i j : Nat, i < body.length → j < body.length →
    (((i : Int), (j : Int)) ∈ g.edges ↔ ∃ r, Feeds body r i j)
  entry : ∀ j : Nat, j < body.length → ((-1, (j : Int)) ∈ g.edges ↔ ∃ r, ReadsEntry body r j)
  leave : ∀ i : Nat, i < body.length →
    (((i : Int), (body.length : Int)) ∈ g.edges ↔ LeavesBlock liveOut body i)
  ascend : ∀ e ∈ g.edges, e.1 < e.2
  predecessors : ∀ j : Nat, j < body.length → ∃ ps, g.predecessors j = .ok ps ∧
    (∀ p, p ∈ ps ↔ (p, (j : Int)) ∈ g.edges) ∧ LedBy (-1) ps
  successors : ∀ i : Nat, i < body.length → ∃ ns, g.successors i = .ok ns ∧
    (∀ n, n ∈ ns ↔ ((i : Int), n) ∈ g.edges) ∧ LedBy body.length ns

theorem isDefUse_of_graph {g : Digraph} (h : graph liveIn liveOut body = .ok g)
    (hlive : ∀ r j, ReadsEntry body r j → liveIn.has r = true) : IsDefUse liveOut body g := by
  have hedges := graph_spec h
  have hmem := fun {e : Int × Int} => mem_graph_edges (e := e) h
  refine ⟨?_, ?_, ?_, hedges.ascend, ?_, ?_⟩
  · intro i j hi hj
    refine ⟨fun he => ?_, fun ⟨r, hfeeds⟩ => hedges.feeds hfeeds⟩
    obtain ⟨r, i', heq, hfeeds⟩ := hedges.inner _ j hj he (by omega)
    obtain rfl := Int.ofNat.inj heq
    exact ⟨r, hfeeds⟩
  · intro j hj
    rw [hmem]
    constructor
    · rintro (⟨j', r, heq, _, hreads⟩ | ⟨i, heq, _⟩ | ⟨i, j', r, heq, _⟩)
      · obtain rfl := Int.ofNat.inj (Prod.mk.inj heq).2
        exact ⟨r, hreads⟩
      · cases (Prod.mk.inj heq).1
      · cases (Prod.mk.inj heq).1
    · rintro ⟨r, hreads⟩
      exact .inl ⟨j, r, rfl, hlive r j hreads, hreads⟩
  · intro i hi
    rw [hmem]
    constructor
    · rintro (⟨j, r, heq, _⟩ | ⟨i', heq, hleaves⟩ | ⟨i', j, r, heq, hfeeds⟩)
      · cases (Prod.mk.inj heq).1
      · obtain rfl := Int.ofNat.inj (Prod.mk.inj heq).1
        exact hleaves
      · have := Int.ofNat.inj (Prod.mk.inj heq).2
        have := hfeeds.lt_length
        omega
    · intro hleaves
      exact .inr (.inl ⟨i, rfl, hleaves⟩)
  · intro j hj
    refine ⟨g.before j, if_pos (by simpa using hedges.node j hj), fun p => Digraph.mem_before, ?_⟩
    have hnodup := hedges.simple.nodup_before j
    refine ledBy_of_pairwise hnodup ?_
    have hsorted : (g.before j).Pairwise fun a b => (b = -1 → a = -1) ∧ a ≤ b := by
      unfold Digraph.before
      rw [List.pairwise_map, List.pairwise_filter]
      refine (pairwise_graph_edges h).imp fun {e e'} horder he he' => ?_
      simp only [beq_iff_eq] at he he'
      exact ⟨horder.1, horder.2.1 (by omega) (by omega)⟩
    exact hsorted.imp₂ (fun a b hle hne => by omega) hnodup
  · intro i hi
    refine ⟨g.after i, if_pos (by simpa using hedges.node i hi), fun p => Digraph.mem_after, ?_⟩
    refine ledBy_of_pairwise (Digraph.nodup_after hedges.simple.edges i) ?_
    unfold Digraph.after
    rw [List.pairwise_map, List.pairwise_filter]
    refine (pairwise_graph_edges h).imp fun {e e'} horder he he' => ?_
    simp only [beq_iff_eq] at he he'
    exact horder.2.2 (by omega) (by omega)

/-- A block of instructions whose live registers include all that it reads before it writes
    them has the graph of its definitions and uses, in whatever order the registers are
    listed. -/
theorem dependence_graph_exact {c : Compilation} {blk : Block} (hbody : c.bodyOf blk ≠ [])
    (hwords : ∀ a ∈ c.bodyOf blk, a.word.Proper)
    (hlive : ∀ r j, ReadsEntry (c.bodyOf blk) r j → blk.liveIn.has r = true)
    (hin : liveIn.Perm blk.liveIn) (hout : liveOut.Perm blk.liveOut) :
    ∃ g, Runs (ofBlock { blk with liveIn, liveOut }) c g c ∧
      IsDefUse blk.liveOut (c.bodyOf blk) g := by
  have hhas : ∀ {m n : RegMap} (r : Int), m.Perm n → m.has r = n.has r := fun r h => h.any_eq
  have hlast := List.getLast?_eq_some_getLast hbody
  have hdecode := Word.decode_proper (hwords _ (List.getLast_mem hbody))
  have hgraph : ∃ g, graph liveIn liveOut (c.bodyOf blk) = .ok g := by
    unfold graph
    rw [hlast]
    dsimp only
    rw [hdecode]
    exact ⟨_, rfl⟩
  obtain ⟨g, hg⟩ := hgraph
  have hexact := isDefUse_of_graph hg fun r j hreads => (hhas r hin).trans (hlive r j hreads)
  refine ⟨g, ?_, { hexact with leave := fun i hi => (hexact.leave i hi).trans ?_ }⟩
  · unfold ofBlock
    rw [runs_body_bind]
    exact runs_lift.mpr ⟨hg, rfl⟩
  · unfold LeavesBlock
    simp only [hhas _ hout]

/-- A sum that is copied before its register is written again, and a test of the copy. -/
def copiedSum : Compilation where
  words := #[0x0f21000000000000, 0xbf13000000000000, 0xb701000007000000, 0x1503010000000000]
  texts := #[]
  store := #[0x0f21000000000000, 0xbf13000000000000, 0xb701000007000000, 0x1503010000000000].map
    fun w => (Instr.parse w "" 0).toOption.getD Instr.placeholder

/-- A block that adds two registers and copies the sum. -/
def copiedSumBlock : Block where
  kind := .basic
  start := 0
  len := 4
  body := #[0, 1, 2, 3]
  liveIn := [(1, 0), (2, 0)]
  liveOut := [(1, 9), (3, 9)]

theorem dependence_graph_exact_copiedSum :
    ∃ g, Runs (ofBlock { copiedSumBlock with
        liveIn := [(2, 0), (1, 0)], liveOut := [(3, 9), (1, 9)] }) copiedSum g copiedSum ∧
      IsDefUse copiedSumBlock.liveOut (copiedSum.bodyOf copiedSumBlock) g ∧
      g.before 0 = [-1] ∧ g.after 1 = [4, 3] := by
  have hall : ∀ j < (copiedSum.bodyOf copiedSumBlock).length,
      ∀ a ∈ (copiedSum.bodyOf copiedSumBlock)[j]?, ∀ o ∈ a.inputs,
      copiedSumBlock.liveIn.has o.register = true ∨
        ∃ k < j, ∃ b ∈ (copiedSum.bodyOf copiedSumBlock)[k]?, b.writes o.register = true := by
    decide +kernel
  have hlive : ∀ r j, ReadsEntry (copiedSum.bodyOf copiedSumBlock) r j →
      copiedSumBlock.liveIn.has r = true := by
    rintro r j ⟨⟨a, ha, hreads⟩, hbefore⟩
    have hj := (List.getElem?_eq_some_iff.mp ha).1
    obtain ⟨o, ho, heq⟩ := List.any_eq_true.mp hreads
    obtain rfl := beq_iff_eq.mp heq
    rcases hall j hj a ha o ho with hlive | ⟨k, hk, b, hb, hwrites⟩
    · exact hlive
    · cases hwrites.symm.trans (hbefore k b hk hb)
  have hin : List.Perm [(2, 0), (1, 0)] copiedSumBlock.liveIn := by decide
  have hout : List.Perm [(3, 9), (1, 9)] copiedSumBlock.liveOut := by decide
  obtain ⟨g, hg, hexact⟩ := dependence_graph_exact (by decide +kernel)
    (by unfold Word.Proper; decide +kernel) hlive hin hout
  obtain ⟨rfl, -⟩ := hg.unique (runs_after (by decide +kernel))
  exact ⟨_, hg, hexact, by decide +kernel, by decide +kernel⟩

end BpfLanes.Dependence
