import BpfLanes.Proofs.GroupMoves

/-! # Recognisers without jumps

The recognisers gather loads, stores and moves of zero, and what they make of them
is an access of six bytes or an instruction that does nothing. So from what they do
in one step it can be seen that none of them ever asks for a jump.
-/

namespace BpfLanes

open Word (Proper Straight unpacked)

theorem Word.straight_redirected (w : Word) {opcode : Int}
    (h : Opcode.branches.contains (opcode % 2 ^ 8) = false) (offset : Int) :
    Straight (w.redirected opcode offset) := by
  refine straight_of_unpacked (proper_redirected ..) ?_
  unfold Fields.isBranch
  rwa [opcode_redirected]

namespace Peephole

theorem copyEntries_straight :
    CopyEntries (fun e => Straight e.word) (fun e => Straight e.word) where
  load hw h := Word.straight_of_unpacked hw (Fields.IsAccess.not_branch (.inl h))
  store hw h := Word.straight_of_unpacked hw (Fields.IsAccess.not_branch (.inr h))
  wideLoad e low := Word.straight_redirected e.word (by decide) low
  wideStore e low _ := Word.straight_redirected e.word (by decide) low
  nop _ := Word.straight_nop

namespace Group

theorem mem_of_mem_update {g h : Group} {x : Entry} (hx : x ∈ g.update h) : x ∈ g ∨ x ∈ h := by
  induction h generalizing g with
  | nil => exact .inl hx
  | cons e h ih =>
    rcases ih hx with hx | hx
    · rcases mem_insert hx with rfl | hx
      · exact .inr List.mem_cons_self
      · exact .inl hx
    · exact .inr (List.mem_cons_of_mem _ hx)

theorem foldl_update (gs : List Group) (g : Group) :
    gs.foldl (fun g h => g.update h) g = g.update gs.flatten := by
  unfold update
  rw [List.foldl_flatten]

end Group
end Peephole

/-! ## All recognisers -/

namespace Removal.Watchers

open Peephole

variable {w : Watchers}

/-- The groups of all recognisers. -/
def groups (w : Watchers) : List Group :=
  w.pairs.notes.groups ++ w.batch.notes.groups ++ w.zeros.notes.groups

/-- All recognisers have read the same instructions. -/
structure Fed (w : Watchers) (fed : List (Word × Int)) : Prop where
  pairs : Runs (readAll CopyPairs.read fed) {} () w.pairs
  batch : Runs (readAll CopyBatch.read fed) {} () w.batch
  zeros : Runs (readAll ZeroFill.read fed) {} () w.zeros

theorem watch_eq_ok {σ : Type} {m : EStateM Fault σ Unit} {s t : σ} :
    watch s m = .ok t ↔ Runs m s () t := by
  rw [runs_iff_outcome, watch_eq]
  constructor
  · intro h
    obtain ⟨⟨_, u⟩, hu, h⟩ := bind_eq_ok.mp h
    exact Except.ok.inj h ▸ hu
  · intro h
    rw [h]
    rfl

theorem fed_of_read {is : List Instr} (h : is.foldlM Watchers.read {} = .ok w) :
    ∃ fed : List (Word × Int), is.map (fun i => (i.word, i.position)) =
      fed.map (fun x => (x.1, some x.2)) ∧ w.Fed fed := by
  induction is using List.reverseRecOn generalizing w with
  | nil =>
    cases h
    exact ⟨[], rfl, runs_pure.mpr ⟨rfl, rfl⟩, runs_pure.mpr ⟨rfl, rfl⟩, runs_pure.mpr ⟨rfl, rfl⟩⟩
  | append_singleton is i ih =>
    rw [List.foldlM_append] at h
    obtain ⟨u, hu, h⟩ := bind_eq_ok.mp h
    obtain ⟨fed, hfed, hread⟩ := ih hu
    obtain ⟨v, hv, h⟩ := bind_eq_ok.mp h
    obtain rfl : v = w := Except.ok.inj h
    unfold Watchers.read at hv
    obtain ⟨p, hp, hv⟩ := bind_eq_ok.mp hv
    obtain ⟨pairs, hpairs, hv⟩ := bind_eq_ok.mp hv
    obtain ⟨batch, hbatch, hv⟩ := bind_eq_ok.mp hv
    obtain ⟨zeros, hzeros, hv⟩ := bind_eq_ok.mp hv
    cases hv
    have hposition : i.position = some p := by
      unfold need at hp
      split at hp
      · next hsome => rw [hsome, Except.ok.inj hp]
      · cases hp
    refine ⟨fed ++ [(i.word, p)], ?_, ?_, ?_, ?_⟩
    · simp [hfed, hposition]
    · exact runs_readAll_concat.mpr ⟨_, hread.pairs, watch_eq_ok.mp hpairs⟩
    · exact runs_readAll_concat.mpr ⟨_, hread.batch, watch_eq_ok.mp hbatch⟩
    · exact runs_readAll_concat.mpr ⟨_, hread.zeros, watch_eq_ok.mp hzeros⟩

theorem replacements_eq (w : Watchers) : w.replacements = Group.update [] w.groups.flatten :=
  Group.foldl_update _ _

/-- What the recognisers ask for: an instruction that goes straight on, in the place of a
    load or a store, or none in the place of a constant. -/
theorem Fed.asked {fed : List (Word × Int)} (hw : w.Fed fed) (hfed : Distinct fed) {e : Entry}
    (he : e ∈ w.replacements) : Straight e.word ∧ ∃ x, (x, e.id) ∈ fed ∧
      ((unpacked x).IsAccess ∨ (unpacked x).isMoveImmediate = true ∧ e.word = Word.nop) := by
  rw [replacements_eq] at he
  obtain ⟨g, hg, heg⟩ := List.mem_flatten.mp
    ((Group.mem_of_mem_update he).resolve_left List.not_mem_nil)
  have hid : ∀ {n : Notes}, n.groups ≠ [] → g ∈ n.groups → e.id ∈ n.positions := by
    intro n hne hg
    rw [Notes.positions_eq hne]
    exact List.mem_flatMap.mpr ⟨g, hg, List.mem_map_of_mem heg⟩
  simp only [groups, List.mem_append] at hg
  rcases hg with (hg | hg) | hg
  · have hne := (CopyPairs.moves.within_run hfed hw.pairs).1.notes.groups
    obtain ⟨x, hx, hfits⟩ := CopyPairs.moves.fits_run hfed hw.pairs e.id (hid hne hg)
    exact ⟨(CopyPairs.holds_run copyEntries_straight hfed hw.pairs).groups hne g hg e heg,
      x, hx, .inl hfits⟩
  · have hne := (CopyBatch.moves.within_run hfed hw.batch).1.notes.groups
    obtain ⟨x, hx, hfits⟩ := CopyBatch.moves.fits_run hfed hw.batch e.id (hid hne hg)
    exact ⟨(CopyBatch.holds_run copyEntries_straight hfed hw.batch).groups hne g hg e heg,
      x, hx, .inl hfits⟩
  · have hne := (ZeroFill.moves.within_run hfed hw.zeros).1
    obtain ⟨x, hx, hfits⟩ := ZeroFill.moves.fits_run hfed hw.zeros e.id (hid hne hg)
    have hnop := (ZeroFill.holds_run (P := fun e => e.word = Word.nop) (fun _ => rfl) hfed
      hw.zeros).groups hne g hg e heg
    refine ⟨hnop ▸ Word.straight_nop, x, hx, ?_⟩
    rcases hfits with hmove | hstore
    · exact .inr ⟨hmove, hnop⟩
    · exact .inl (.inr hstore)

end Removal.Watchers
end BpfLanes
