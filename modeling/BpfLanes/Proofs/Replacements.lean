import BpfLanes.Proofs.GroupEntries
import BpfLanes.Proofs.LoopRejection

/-! # The replacements that are applied

The recognisers read the instructions of a program side by side, each position once,
and all their groups are put together into the replacements that are applied. The
group that a recogniser is still gathering at the end is among them, and groups of
different recognisers may share positions. The replacements are the disjoint union
of finished groups exactly if neither happens.
-/

namespace BpfLanes

open Word (Proper unpacked)

namespace Peephole.Group

/-! ## Putting groups together -/

theorem mem_update_of_nodup {g h : Group} {x : Entry} (hids : (g.ids ++ h.ids).Nodup)
    (hx : x ∈ g ∨ x ∈ h) : x ∈ g.update h := by
  unfold update
  induction h generalizing g with
  | nil => simpa using hx
  | cons e h ih =>
    have hsplit : (g.ids ++ [e.id] ++ ids h).Nodup := by simpa [ids] using hids
    have hnew : e.id ∉ g.ids := by
      intro hmem
      exact (List.nodup_append.mp (List.nodup_append.mp hsplit).1).2.2 _ hmem _ (by simp) rfl
    refine ih ?_ ?_
    · refine ((perm_ids_insert hnew).append_right _).nodup_iff.mpr ?_
      exact ((List.perm_append_singleton _ _).symm.append_right _).nodup_iff.mpr hsplit
    · rcases hx with hx | hx
      · refine .inl (mem_insert_of_ne hx fun heq => hnew ?_)
        exact heq ▸ List.mem_map_of_mem hx
      · rcases List.mem_cons.mp hx with rfl | hx
        · exact .inl (mem_insert_self g x)
        · exact .inr hx

end Peephole.Group

/-! ## The recognisers side by side -/

namespace Removal

open Peephole

namespace Watchers

/-- The closed groups of all recognisers. -/
def closed (w : Watchers) : List Group :=
  w.pairs.notes.closed ++ w.batch.notes.closed ++ w.zeros.notes.closed

/-- The replacements are a disjoint union of finished groups: they are the entries of
    these groups, no position is in two groups, and an entry is shown as dropped exactly
    if it is. -/
structure DisjointUnion (w : Watchers) : Prop where
  finished : ∀ e, e ∈ w.replacements ↔ ∃ g ∈ w.closed, e ∈ g
  apart : (w.groups.flatMap Group.ids).Nodup
  plain : ∀ e ∈ w.replacements, e.Plain

/-- No recogniser is gathering a group. -/
structure Idle (w : Watchers) : Prop where
  pairs : w.pairs.phase = .idle
  batch : w.batch.phase = .idle
  zeros : w.zeros.phase = .idle

/-- No position is in the groups of two recognisers. -/
structure Apart (w : Watchers) : Prop where
  pairs_batch : w.pairs.notes.positions.Disjoint w.batch.notes.positions
  pairs_zeros : w.pairs.notes.positions.Disjoint w.zeros.notes.positions
  batch_zeros : w.batch.notes.positions.Disjoint w.zeros.notes.positions

/-- The groups that are being gathered. -/
def gathered (w : Watchers) : List Group :=
  [w.pairs.notes.pending, w.batch.notes.pending, w.zeros.notes.pending]

namespace Fed

variable {w : Watchers} {fed : List (Word × Int)}

section
variable (hw : w.Fed fed) (hfed : Distinct fed)
include hw hfed

theorem groups_perm : w.groups.Perm (w.closed ++ w.gathered) := by
  have hpairs := Notes.groups_eq (CopyPairs.moves.within_run hfed hw.pairs).1.notes.groups
  have hbatch := Notes.groups_eq (CopyBatch.moves.within_run hfed hw.batch).1.notes.groups
  have hzeros := Notes.groups_eq (ZeroFill.moves.within_run hfed hw.zeros).1
  unfold groups closed gathered
  rw [hpairs, hbatch, hzeros, List.perm_iff_count]
  intro g
  simp only [List.count_append, List.count_cons, List.count_nil]
  omega

theorem idle_iff : w.Idle ↔ ∀ g ∈ w.gathered, g = [] := by
  have hpairs := (CopyPairs.moves.within_run hfed hw.pairs).1.pending_iff
  have hbatch := (CopyBatch.moves.within_run hfed hw.batch).1.pending_iff
  have hzeros := ZeroFill.pending_iff_run hfed hw.zeros
  simp only [gathered, List.forall_mem_cons, List.not_mem_nil, false_implies, implies_true,
    and_true, hpairs, hbatch, hzeros]
  exact ⟨fun h => ⟨h.pairs, h.batch, h.zeros⟩, fun h => ⟨h.1, h.2.1, h.2.2⟩⟩

theorem own_groups_apart : w.pairs.notes.positions.Nodup ∧ w.batch.notes.positions.Nodup
    ∧ w.zeros.notes.positions.Nodup :=
  ⟨(CopyPairs.moves.within_run hfed hw.pairs).2.nodup, (CopyBatch.moves.within_run hfed hw.batch).2.nodup,
    (ZeroFill.moves.within_run hfed hw.zeros).2.nodup⟩

theorem nodup_iff_apart : (w.groups.flatMap Group.ids).Nodup ↔ w.Apart := by
  obtain ⟨hpairs, hbatch, hzeros⟩ := hw.own_groups_apart hfed
  unfold groups
  rw [List.flatMap_append, List.flatMap_append,
    ← Notes.positions_eq (CopyPairs.moves.within_run hfed hw.pairs).1.notes.groups,
    ← Notes.positions_eq (CopyBatch.moves.within_run hfed hw.batch).1.notes.groups,
    ← Notes.positions_eq (ZeroFill.moves.within_run hfed hw.zeros).1,
    List.nodup_append', List.nodup_append', List.disjoint_append_left]
  constructor
  · intro h
    exact ⟨h.1.2.2, h.2.2.1, h.2.2.2⟩
  · intro h
    exact ⟨⟨hpairs, hbatch, h.pairs_batch⟩, hzeros, h.pairs_zeros, h.batch_zeros⟩

theorem plain_or_gathered {e : Entry} (he : e ∈ w.replacements) :
    e.Plain ∨ e.Unsettled ∧ (e ∈ w.pairs.notes.pending ∨ e ∈ w.batch.notes.pending) := by
  have hpairs := CopyPairs.holds_run copyEntries_plain hfed hw.pairs
  have hbatch := CopyBatch.holds_run copyEntries_plain hfed hw.batch
  have hzeros := ZeroFill.holds_run Entry.plain_nop hfed hw.zeros
  rw [replacements_eq] at he
  obtain ⟨g, hg, heg⟩ := List.mem_flatten.mp
    ((Group.mem_of_mem_update he).resolve_left List.not_mem_nil)
  rcases List.mem_append.mp ((hw.groups_perm hfed).mem_iff.mp hg) with hg | hg
  · refine .inl ?_
    simp only [closed, List.mem_append] at hg
    rcases hg with (hg | hg) | hg
    · exact hpairs.closed g hg e heg
    · exact hbatch.closed g hg e heg
    · exact hzeros.closed g hg e heg
  · simp only [gathered, List.mem_cons, List.not_mem_nil, or_false] at hg
    rcases hg with rfl | rfl | rfl
    · exact .inr ⟨hpairs.pending e heg, .inl heg⟩
    · exact .inr ⟨hbatch.pending e heg, .inr heg⟩
    · exact .inl (hzeros.pending e heg)

theorem disjointUnion_iff : w.DisjointUnion ↔ w.Idle ∧ w.Apart := by
  have hperm := hw.groups_perm hfed
  have hmem : ∀ e, e ∈ w.groups.flatten ↔
      (∃ g ∈ w.closed, e ∈ g) ∨ ∃ g ∈ w.gathered, e ∈ g := by
    intro e
    simp only [List.mem_flatten, hperm.mem_iff, List.mem_append, or_and_right, exists_or]
  have hkept : (w.groups.flatMap Group.ids).Nodup → ∀ e ∈ w.groups.flatten,
      e ∈ w.replacements := by
    intro hnodup e he
    rw [replacements_eq]
    refine Group.mem_update_of_nodup ?_ (.inr he)
    show (w.groups.flatten.map Entry.id).Nodup
    rwa [List.map_flatten]
  constructor
  · intro h
    refine ⟨(hw.idle_iff hfed).mpr ?_, (hw.nodup_iff_apart hfed).mp h.apart⟩
    -- an entry that is being gathered would be in a finished group as well
    intro g hg
    refine List.eq_nil_iff_forall_not_mem.mpr fun e he => ?_
    obtain ⟨k, hk, hek⟩ := (h.finished e).mp (hkept h.apart e ((hmem e).mpr (.inr ⟨g, hg, he⟩)))
    have hnodup := (hperm.flatMap_right Group.ids).nodup_iff.mp h.apart
    rw [List.flatMap_append, List.nodup_append] at hnodup
    exact hnodup.2.2 e.id (List.mem_flatMap.mpr ⟨k, hk, List.mem_map_of_mem hek⟩) e.id
      (List.mem_flatMap.mpr ⟨g, hg, List.mem_map_of_mem he⟩) rfl
  · intro ⟨hidle, hapart⟩
    have hempty := (hw.idle_iff hfed).mp hidle
    have hnodup := (hw.nodup_iff_apart hfed).mpr hapart
    have hnone : ∀ e, ¬ ∃ g ∈ w.gathered, e ∈ g := by
      intro e ⟨g, hg, he⟩
      rw [hempty g hg] at he
      cases he
    refine ⟨fun e => ⟨fun he => ?_, fun he => ?_⟩, hnodup, fun e he => ?_⟩
    · rw [replacements_eq] at he
      have hflat := (Group.mem_of_mem_update he).resolve_left List.not_mem_nil
      exact ((hmem e).mp hflat).resolve_right (hnone e)
    · exact hkept hnodup e ((hmem e).mpr (.inl he))
    · rcases hw.plain_or_gathered hfed he with h | ⟨-, h⟩
      · exact h
      · exact absurd (h.elim (fun h => ⟨_, by simp [gathered], h⟩)
          fun h => ⟨_, by simp [gathered], h⟩) (hnone e)

end

end Fed
end Watchers

end Removal

namespace Optimize

open Removal BpfLanes.Flow

/-- The states in which copies and zero fills are looked for, the first and the second time. -/
inductive Replacing (s : Compilation) : Compilation → Prop
  | first {c : Compilation} (h : Runs (beforeReplacing s.options) s () c) : Replacing s c
  | again {c d : Compilation} (h : Runs (beforeReplacing s.options) s () c)
      (hd : Runs Removal.advanced c () d) : Replacing s d

theorem Replacing.laid {s c : Compilation} (h : Replacing s c) (hs : Uncut s) :
    Laid (fun _ => True) s.words c := by
  cases h with
  | first h =>
    obtain ⟨⟨fresh, marked, hprep⟩, -⟩ := runs_beforeReplacing hs h
    exact hprep.blocks
  | again h hd =>
    obtain ⟨⟨fresh, marked, hprep⟩, -⟩ := runs_beforeReplacing hs h
    have hw := (keeps_advanced hprep.blocks).runs hd (rewritten_refl (JumpsFrom.refl _))
    exact (hprep.step hw).blocks

/-- When a program is compiled, the replacements are a disjoint union of finished groups
    exactly if no recogniser is gathering at its end and no two recognisers have claimed
    the same position. A single recogniser does not claim a position twice, and what is
    shown as dropped and is not belongs to a copy that is still being gathered. -/
theorem replacements_disjointUnion_iff {s c : Compilation} {w : Watchers} (hs : Uncut s)
    (hproper : ∀ x ∈ s.words, Proper x) (hc : Replacing s c) (hw : recognised c = .ok w) :
    (w.DisjointUnion ↔ w.Idle ∧ w.Apart)
      ∧ (w.pairs.notes.positions.Nodup ∧ w.batch.notes.positions.Nodup
        ∧ w.zeros.notes.positions.Nodup)
      ∧ ∀ e ∈ w.replacements, e.Plain ∨
        e.Unsettled ∧ (e ∈ w.pairs.notes.pending ∨ e ∈ w.batch.notes.pending) := by
  have hlaid := hc.laid hs
  obtain ⟨fed, hfed, hread, -⟩ := fed_of_recognised hlaid (fun i hi => by
    obtain ⟨_, hstands⟩ := standsFor_of_shown hlaid hi
    exact hproper _ (Array.mem_of_getElem? hstands.word)) hw
  exact ⟨hread.disjointUnion_iff hfed, hread.own_groups_apart hfed,
    fun e he => hread.plain_or_gathered hfed he⟩

/-- A jump to the next instruction, register 0 set to zero, and an exit. -/
def zeroAndExit : Array Word :=
  #[0x0500000000000000, 0xb700000000000000, 0x9500000000000000]

/-- Register 1 set to zero and stored to the stack. -/
def zeroFilled : Array Word :=
  #[0xb701000000000000, 0x631afcff00000000, 0x0500000000000000, 0x9500000000000000]

theorem exists_recognised (words : Array Word) {P : Watchers → Prop} [DecidablePred P]
    (hwords : NoJumpBefore words) (hproper : ∀ x ∈ words, Proper x)
    (hrun : finishes (beforeReplacing {})
      (Compilation.start {} {} words (words.map fun _ => "")) = true)
    (h : (recognised (stateAfter (beforeReplacing {}) (Compilation.start {} {} words
      (words.map fun _ => "")))).toOption.any (fun w => decide (P w)) = true) :
    ∃ s c w, s.words = words ∧ Uncut s ∧ (∀ x ∈ s.words, Proper x) ∧ Replacing s c
      ∧ recognised c = .ok w ∧ P w := by
  obtain ⟨w, hw, hP⟩ := (Option.any_eq_true _ _).mp h
  exact ⟨_, _, w, rfl, uncut_start hwords, hproper, .first (runs_stateAfter hrun),
    eq_ok_of_toOption hw, of_decide_eq_true hP⟩

/-- Without a store, the register set to zero is to be dropped all the same. With one, both
    make a group. -/
theorem replacements_disjointUnion_iff_zeroAndExit :
    (∃ s c w, s.words = zeroAndExit ∧ Uncut s ∧ (∀ x ∈ s.words, Proper x)
      ∧ Replacing s c ∧ recognised c = .ok w
      ∧ w.replacements = [.nop 1] ∧ ¬ w.DisjointUnion) ∧
    ∃ s c w, s.words = zeroFilled ∧ Uncut s ∧ (∀ x ∈ s.words, Proper x)
      ∧ Replacing s c ∧ recognised c = .ok w
      ∧ w.replacements = [.nop 0, .nop 1] ∧ w.DisjointUnion := by
  constructor
  · obtain ⟨s, c, w, hwords, hs, hproper, hc, hw, hfound, hphase⟩ := exists_recognised
      zeroAndExit (P := fun w => w.replacements = [.nop 1] ∧ w.zeros.phase = .zeroed)
      (by decide +kernel) (by unfold Proper; decide) (by decide +kernel) (by decide +kernel)
    refine ⟨s, c, w, hwords, hs, hproper, hc, hw, hfound, fun hunion => ?_⟩
    rw [((replacements_disjointUnion_iff hs hproper hc hw).1.mp hunion).1.zeros] at hphase
    cases hphase
  · obtain ⟨s, c, w, hwords, hs, hproper, hc, hw, hfound, hpairs, hbatch, hzeros, hnone, hnone'⟩ :=
      exists_recognised zeroFilled (P := fun w => w.replacements = [.nop 0, .nop 1]
        ∧ w.pairs.phase = .idle ∧ w.batch.phase = .idle ∧ w.zeros.phase = .idle
        ∧ w.pairs.notes.positions = [] ∧ w.batch.notes.positions = [])
      (by decide +kernel) (by unfold Proper; decide) (by decide +kernel) (by decide +kernel)
    refine ⟨s, c, w, hwords, hs, hproper, hc, hw, hfound,
      (replacements_disjointUnion_iff hs hproper hc hw).1.mpr ⟨⟨hpairs, hbatch, hzeros⟩, ?_⟩⟩
    constructor <;> simp [hnone, hnone']

end Optimize
end BpfLanes
