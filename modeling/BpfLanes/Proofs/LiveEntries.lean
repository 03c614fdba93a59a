import BpfLanes.Proofs.FirstSlots
import BpfLanes.Proofs.LoopRejection

/-! # Registers noted at the start of a block

What an instruction reads from before its block is noted at the start of the block by
the time that the blocks are placed.
-/

namespace BpfLanes

open Compilation BpfLanes.Flow BpfLanes.Liveness

variable {a : Instr} {r : Int}

variable {words : Array Word} {fresh marked c : Compilation} {b j : Nat} {blk : Block}

theorem readFirst_of_bare {xs ys : List Instr} (hbare : xs.map Instr.bare = ys.map Instr.bare)
    (h : ReadFirst xs r) : ReadFirst ys r := by
  obtain ⟨pre, i, post, rfl, hneeds, hsets⟩ := h
  rw [List.map_append, List.map_cons] at hbare
  obtain ⟨pre', rest, rfl, hpre, hrest⟩ := List.map_eq_append_iff.mp hbare.symm
  obtain ⟨i', post', rfl, hi, _⟩ := List.map_eq_cons_iff.mp hrest
  have hword : ∀ {x y : Instr}, x.bare = y.bare → x.word = y.word := by
    intro x y h
    show x.bare.word = y.bare.word
    rw [h]
  refine ⟨pre', i', post', rfl, ?_, ?_⟩
  · unfold Instr.needs at hneeds ⊢
    rwa [hword hi]
  intro x hx
  obtain ⟨y, hy, hxy⟩ : ∃ y ∈ pre, y.bare = x.bare := by
    have hmem : x.bare ∈ pre.map Instr.bare := hpre ▸ List.mem_map_of_mem hx
    obtain ⟨y, hy, heq⟩ := List.mem_map.mp hmem
    exact ⟨y, hy, heq⟩
  have hnot := hsets y hy
  unfold Instr.sets at hnot ⊢
  rwa [← hword hxy]

section
variable (hb : c.blocks[b]? = some blk) (hkind : blk.kind = .basic)
  (ha : (c.bodyOf blk)[j]? = some a) (hr : a.reads r = true)
  (hfirst : ∀ n i, n < j → (c.bodyOf blk)[n]? = some i → i.writes r = false)
include hb hkind ha hr hfirst

theorem Flow.Laid.readFirst {Q : Instr → Prop} (hc : Laid Q words c) :
    ReadFirst (c.bodyOf blk) r := by
  have hlen := hc.bodyOf_length hb hkind
  -- an instruction of the block, with what its word says
  have hword : ∀ {n i}, (c.bodyOf blk)[n]? = some i → ∃ f, Fields.decode i.word = .ok f ∧
      i.inputs.map Operand.register = f.inputs ∧
      i.output.map Operand.register = (if f.isNop then none else f.output?) ∧
      (f.isCall = true → n + 1 = blk.body.size) := by
    intro n i hi
    have hlt := (List.getElem?_eq_some_iff.mp hi).1
    obtain ⟨id, i', _, hid, hi', hstands, _⟩ := hc.standsFor_index hb hkind (hlen ▸ hlt)
    rw [hc.bodyOf_getElem? hb hkind, hid] at hi
    obtain rfl := Option.mem_unique hi' hi
    obtain ⟨f, hf, hin, hout⟩ := hstands.operands
    refine ⟨f, hf, hin, hout, fun hcall => ?_⟩
    have := hc.branchLast hb hkind n f (by omega) (by omega)
      ⟨id, i', ⟨Position.get_natCast.mpr hid, hi'⟩, hf⟩ (by
        unfold Fields.isBranch
        rw [beq_iff_eq.mp hcall]
        decide)
    omega
  obtain ⟨hlt, heq⟩ := List.getElem?_eq_some_iff.mp ha
  refine ⟨(c.bodyOf blk).take j, a, (c.bodyOf blk).drop (j + 1), ?_, ?_, ?_⟩
  · rw [← heq, List.cons_getElem_drop_succ, List.take_append_drop]
  · obtain ⟨f, hf, hin, _⟩ := hword ha
    have hmem : r ∈ f.inputs := by
      unfold Instr.reads at hr
      rw [← hin]
      simpa using hr
    rw [Instr.needs_eq hf, if_neg fun hcall => by
      rw [Fields.inputs_of_isCall hcall] at hmem
      cases hmem]
    exact hmem
  · intro x hx
    obtain ⟨n, hn⟩ := List.mem_iff_getElem?.mp hx
    rw [List.getElem?_take] at hn
    obtain ⟨hnj, hn⟩ := Option.ite_none_right_eq_some.mp hn
    obtain ⟨f, hf, _, hout, hcall⟩ := hword hn
    have hnot := hfirst n x hnj hn
    unfold Instr.sets
    rw [hf]
    dsimp only
    rw [if_neg fun h => by have := hcall h; omega]
    split
    · simp
    next hnop =>
    rw [if_neg hnop] at hout
    unfold Instr.writes at hnot
    cases ho : x.output with
    | none =>
      rw [ho] at hout
      simp [← hout]
    | some o =>
      rw [ho] at hout hnot
      simp only [← hout, Option.map_some, Option.toList_some, List.mem_singleton]
      rintro rfl
      simp at hnot

theorem Optimize.Prepared.liveIn_of_reads (h : Prepared words fresh marked c) :
    blk.liveIn.has r = true := by
  have hread := h.blocks.readFirst hb hkind ha hr hfirst
  obtain ⟨_, hc⟩ := h.rewritten
  have hblocks : c.blocks = marked.blocks := by rw [hc.rest]
  have hstore : c.store = marked.store := by rw [hc.rest]
  obtain ⟨old, hsound, hflow⟩ := h.sound
  have hrun := h.liveness
  obtain ⟨_, t, hacross, hinside⟩ := runs_bind.mp hrun
  have hac := acyclic_of_acrossBlocks Digraph.simple_ofLists hflow hacross
  obtain ⟨_, _, t', hsearch, _, hexact⟩ := acrossBlocks_exact hsound hflow rfl hac
  obtain ⟨_, rfl⟩ := hacross.unique hsearch.run
  -- marking the instructions changes neither the words nor what is noted
  have htstore := keeps_acrossBlocks_store.runs hacross rfl
  have hsame := keeps_acrossBlocks.runs hacross (Relabelled.refl fresh)
  have ht := h.laid.unwalked hsame htstore
  rw [hblocks] at hb
  obtain ⟨⟨symbols, hblk⟩, hmarked⟩ := runs_insideBlocks ht hinside hb hkind
  have hbare := NextUses.bare hmarked
  unfold bodyOf at hbare hread
  rw [hstore] at hread
  refine ((hexact b _ hblk).1 r).mpr ⟨[b], rfl, List.isChain_singleton b, ?_⟩
  have hbody : bodyAt fresh b = blk.body.toList.filterMap fun id => t.store[id]? := by
    have hat := congrArg (·[b]?) hsame.blocks
    simp only [Array.getElem?_map, hblk, Option.map_some] at hat
    obtain ⟨blk₀, hblk₀, heq⟩ := Option.map_eq_some_iff.mp hat.symm
    have hids : blk₀.body = blk.body := by
      show blk₀.bare.body = blk.body
      rw [heq]
      rfl
    unfold bodyAt bodyOf
    rw [hblk₀, Option.map_some, Option.getD_some, hids, htstore]
  rw [List.flatMap_singleton, hbody]
  exact readFirst_of_bare hbare hread

end
end BpfLanes
