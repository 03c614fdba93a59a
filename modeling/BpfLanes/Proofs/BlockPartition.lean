import BpfLanes.Proofs.ControlFlow

/-! # The positions that blocks list

Blocks are placed by the instructions they list. A program that is cut anywhere is
cut into basic blocks that list every position once, in the order of the program.
A program without a leader gets no basic block at all: its instructions are listed
nowhere.
-/

namespace BpfLanes.Flow

open Compilation

/-- The positions that the basic blocks of a program list, block after block. -/
def listedPositions (c : Compilation) : List (Option Int) :=
  (c.blocks.toList.filter fun blk => blk.kind = .basic).flatMap (positionsOf c)

theorem mem_spanOf {blk : Block} {p : Int} : p ∈ spanOf blk ↔ blk.start ≤ p ∧ p < blk.stop := by
  unfold spanOf Block.stop
  simp only [List.mem_map, List.mem_range]
  constructor
  · intro h
    omega
  · intro h
    exact ⟨(p - blk.start).toNat, by omega, by omega⟩

theorem spanOf_ascending (blk : Block) : (spanOf blk).Pairwise (· < ·) := by
  unfold spanOf
  rw [List.pairwise_map]
  apply List.pairwise_lt_range.imp
  intro i j hij
  omega

/-! ## Programs that are cut -/

variable {words : Array Word} {c : Compilation} {b : Nat} {blk : Block}

theorem Laid.listedPositions_eq {Q : Instr → Prop} (h : Laid Q words c) :
    listedPositions c
      = ((c.blocks.toList.filter fun blk => blk.kind = .basic).flatMap spanOf).map some := by
  unfold listedPositions
  rw [List.map_flatMap]
  apply List.flatMap_congr
  intro blk hblk
  obtain ⟨hmem, hkind⟩ := List.mem_filter.mp hblk
  obtain ⟨b, hb⟩ := List.mem_iff_getElem?.mp hmem
  exact h.positionsOf_eq (by simpa using hb) (by simpa using hkind)

theorem CutWell.spans_ascending {blocks : Array Block} (h : CutWell words blocks) :
    ((blocks.toList.filter fun blk => blk.kind = .basic).flatMap spanOf).Pairwise (· < ·) := by
  rw [List.pairwise_flatMap]
  constructor
  · intro blk _
    exact spanOf_ascending blk
  · rw [List.pairwise_filter]
    apply h.ordered.imp
    intro x y hxy _ hy p hp q hq
    have hstop := (hxy.2 (by simpa using hy)).2
    rw [mem_spanOf] at hp hq
    omega

theorem Analysed.mem_spans (h : Analysed words c) {p : Int} :
    p ∈ (c.blocks.toList.filter fun blk => blk.kind = .basic).flatMap spanOf
      ↔ 0 ≤ p ∧ p < words.size := by
  simp only [List.mem_flatMap, List.mem_filter, mem_spanOf, decide_eq_true_eq]
  constructor
  · rintro ⟨blk, ⟨hmem, hkind⟩, hlow, hhigh⟩
    obtain ⟨b, hb⟩ := List.mem_iff_getElem?.mp hmem
    have hspan := h.laid.cut.span b blk (by simpa using hb) hkind
    omega
  · intro hp
    obtain ⟨b, blk, hb, hkind, hlow, hhigh⟩ := h.endToEnd.covers p.toNat (by omega)
    refine ⟨blk, ⟨?_, hkind⟩, by omega, by omega⟩
    exact Array.mem_toList_iff.mpr (Array.mem_of_getElem? hb)

theorem Analysed.listedPositions_range (h : Analysed words c) :
    listedPositions c = (List.range words.size).map fun (p : Nat) => some (p : Int) := by
  have hrange : ((List.range words.size).map fun (p : Nat) => (p : Int)).Pairwise (· < ·) := by
    rw [List.pairwise_map]
    exact List.pairwise_lt_range.imp fun hij => by omega
  -- two ascending lists with the same members are the same
  have heq := h.laid.cut.spans_ascending.eq_of_mem_iff hrange fun p => by
    rw [h.mem_spans]
    simp only [List.mem_map, List.mem_range]
    constructor
    · intro hp
      exact ⟨p.toNat, by omega, by omega⟩
    · intro hp
      omega
  rw [h.laid.listedPositions_eq, heq, List.map_map]
  rfl

/-! ## Programs that are not cut -/

theorem listedPositions_of_uncut {s : Compilation} (hs : Whole s) (hwf : WellFormed s.words)
    (hlead : ¬ HasLeader s.words) : listedPositions (stateAfter analyse s) = [] := by
  obtain ⟨d, hrun⟩ := cutAndParse_runs hs hwf
  obtain ⟨hlaid, -⟩ := runs_cutAndParse (hs.uncut hwf) hrun
  obtain ⟨c, middle, hc, hparsed⟩ := cutOf_cutAndParse (hs.uncut hwf) hrun
  have hcovered := (hc.covered (hs.uncut hwf)).of_outlines hparsed.outlines
  have hnone : d.blocks.toList.filter (fun blk => blk.kind = .basic) = [] := by
    rw [List.filter_eq_nil_iff]
    intro blk hblk hkind
    obtain ⟨b, hb⟩ := List.mem_iff_getElem?.mp hblk
    rw [Array.getElem?_toList] at hb
    have hspan := hlaid.cut.span b blk hb (by simpa using hkind)
    refine hlead ((hcovered blk.start.toNat (by omega)).mp ⟨b, blk, hb, by simpa using hkind, ?_⟩)
    omega
  rw [analyse_eq, stateAfter_bind hrun]
  obtain ⟨dominators, postdominators, hgraph⟩ := stateAfter_buildGraph d
  rw [hgraph]
  unfold listedPositions
  rw [hnone]
  rfl

/-! ## Which programs are listed -/

/-- Whether a program of `size` words is cut because of the word at a position. -/
def leads (size p : Nat) (w : Word) : Bool :=
  match Fields.decode w with
  | .ok f => f.isJump || f.isBranch && decide (p + 1 < size)
  | .error _ => false

theorem hasLeader_iff :
    HasLeader words
      ↔ ∃ p ∈ List.range words.size, (words[p]?).any (leads words.size p) = true := by
  constructor
  · rintro ⟨p, f, ⟨w, hw, hf⟩, hor⟩
    have hp : p < words.size := lt_size hw
    refine ⟨p, List.mem_range.mpr hp, ?_⟩
    simp only [hw, Option.any_some, leads, hf]
    simpa using hor
  · rintro ⟨p, _, hp⟩
    cases hw : words[p]? with
    | none => simp [hw] at hp
    | some w =>
      simp only [hw, Option.any_some, leads] at hp
      split at hp
      · next f hf => exact ⟨p, f, ⟨w, hw, hf⟩, by simpa using hp⟩
      · cases hp

instance (words : Array Word) : Decidable (HasLeader words) :=
  decidable_of_iff _ hasLeader_iff.symm

/-- The basic blocks of a program list every position once and in order exactly if the
    program has a leader. Otherwise they list none. -/
theorem blocks_list_positions_iff {s : Compilation} (hs : Whole s) (hwf : WellFormed s.words)
    (hne : 0 < s.words.size) :
    (s.options.dominators = false → finishes analyse s = true)
      ∧ (listedPositions (stateAfter analyse s)
            = (List.range s.words.size).map (fun (p : Nat) => some (p : Int))
          ↔ HasLeader s.words)
      ∧ (¬ HasLeader s.words → listedPositions (stateAfter analyse s) = []) := by
  refine ⟨analyse_finishes hs hwf, ⟨?_, ?_⟩, listedPositions_of_uncut hs hwf⟩
  · -- a program that is not empty has a position that should be listed
    intro hall
    by_contra hlead
    have hlen := congrArg List.length ((listedPositions_of_uncut hs hwf hlead).symm.trans hall)
    simp only [List.length_nil, List.length_map, List.length_range] at hlen
    omega
  · intro hlead
    exact (analysed_of_whole hs hwf hlead).listedPositions_range

/-- A result and an exit: the only branch is the last instruction. -/
def straightLine : Array Word :=
  #[0xb700000001000000, 0x9500000000000000]

/-- The blocks of a program without a jump list nothing. -/
theorem blocks_list_positions_iff_straightLine :
    Whole (start {} {} straightLine #["r0 = 1", "exit"]) ∧ WellFormed straightLine
      ∧ ¬ HasLeader straightLine
      ∧ finishes analyse (start {} {} straightLine #["r0 = 1", "exit"]) = true
      ∧ listedPositions (stateAfter analyse (start {} {} straightLine #["r0 = 1", "exit"])) = []
      ∧ listedPositions (stateAfter analyse (start {} {} straightLine #["r0 = 1", "exit"]))
          ≠ [some 0, some 1] := by
  have hs : Whole (start {} {} straightLine #["r0 = 1", "exit"]) := whole_start rfl
  have hwf : WellFormed straightLine := by decide +kernel
  have hlead : ¬ HasLeader straightLine := by decide +kernel
  obtain ⟨hfinishes, hiff, hnone⟩ := blocks_list_positions_iff hs hwf (by decide)
  exact ⟨hs, hwf, hlead, hfinishes rfl, hnone hlead, fun h => hlead (hiff.mp h)⟩

end BpfLanes.Flow
