import BpfLanes.Proofs.GroupMoves

/-! # What groups ask for

An entry of a finished group that is shown as a dropped instruction is one. While a
copy is being gathered its entries are shown so too, but they still hold the words
of the loads and stores. Whether a group is being gathered can be told from the
phase of the recogniser.
-/

namespace BpfLanes

open Word (Proper unpacked)

variable {w : Word}

/-! ## Entries -/

namespace Word

theorem ne_nop_of_isLoad (h : (unpacked w).isLoad = true) : w ≠ nop := by
  rintro rfl
  revert h
  decide

theorem ne_nop_of_isStore (h : (unpacked w).isStore = true) : w ≠ nop := by
  rintro rfl
  revert h
  decide

theorem redirected_ne_nop (w : Word) {opcode : Int} (h : opcode % 2 ^ 8 ≠ 0) (offset : Int) :
    w.redirected opcode offset ≠ nop := by
  intro hnop
  have hopcode := opcode_redirected w opcode offset
  rw [hnop] at hopcode
  exact h hopcode.symm

end Word

namespace Peephole

theorem wideLoadText_ne (f : Fields) : wideLoadText f ≠ "NOP" := by
  intro h
  have hchars := congrArg String.toList h
  simp [wideLoadText] at hchars

theorem wideStoreText_ne (f : Fields) : wideStoreText f ≠ "NOP" := by
  intro h
  have hlength := congrArg String.length h
  have hstart : "*(uint48 *) (r".length = 14 := by decide
  have hnop : "NOP".length = 3 := by decide
  unfold wideStoreText at hlength
  simp only [String.length_append, hstart, hnop] at hlength
  omega

/-- An entry is shown as dropped exactly if it is. -/
def Entry.Plain (e : Entry) : Prop := e.text = "NOP" ↔ e.word = Word.nop

/-- An entry is shown as dropped but still has its word. -/
def Entry.Unsettled (e : Entry) : Prop := e.text = "NOP" ∧ e.word ≠ Word.nop

namespace Entry

theorem plain_nop (id : Int) : (Entry.nop id).Plain := ⟨fun _ => rfl, fun _ => rfl⟩

theorem plain_of_ne {e : Entry} (htext : e.text ≠ "NOP") (hword : e.word ≠ Word.nop) : e.Plain :=
  ⟨fun h => absurd h htext, fun h => absurd h hword⟩

theorem plain_wideLoad (e : Entry) (low : Int) : (e.wideLoad low).Plain :=
  plain_of_ne (wideLoadText_ne _) (Word.redirected_ne_nop e.word (by decide) low)

theorem plain_wideStore (e : Entry) (low : Int) (f : Fields) : (e.wideStore low f).Plain :=
  plain_of_ne (wideStoreText_ne f) (Word.redirected_ne_nop e.word (by decide) low)

end Entry

theorem copyEntries_plain : CopyEntries Entry.Plain Entry.Unsettled where
  load _ h := ⟨rfl, Word.ne_nop_of_isLoad h⟩
  store _ h := ⟨rfl, Word.ne_nop_of_isStore h⟩
  wideLoad := Entry.plain_wideLoad
  wideStore := Entry.plain_wideStore
  nop := Entry.plain_nop

/-! ## Alternating copies -/

namespace CopyPairs

variable {s : CopyPairs}

theorem Sound.pending_iff (hs : s.Sound) : s.notes.pending = [] ↔ s.phase = .idle := by
  have hphase := hs.phase
  cases hp : s.phase with
  | idle =>
    rw [hp] at hphase
    simp [hphase.2]
  | loaded | paired =>
    rw [hp] at hphase
    obtain ⟨d, hgather, hrest⟩ := hphase
    have hlength := hgather.length
    simp only [reduceCtorEq, iff_false]
    intro hempty
    rw [hempty, List.length_nil] at hlength
    have := hgather.count
    omega

end CopyPairs

/-! ## Batched copies -/

namespace CopyBatch

variable {s : CopyBatch}

theorem Sound.pending_iff (hs : s.Sound) : s.notes.pending = [] ↔ s.phase = .idle := by
  constructor
  · intro hempty
    by_contra hp
    exact (hs.active hp).1 hempty
  · intro hp
    obtain ⟨-, hempty⟩ : s.InPhase .idle := hp ▸ hs.phase
    exact hempty

end CopyBatch

/-! ## Zero fills -/

namespace ZeroFill

variable {s t : ZeroFill} {fed : List (Word × Int)}

theorem pending_iff_run (hfed : Distinct fed) (h : Runs (readAll read fed) {} () t) :
    t.notes.pending = [] ↔ t.phase = .idle := by
  refine moves.run_induct (P := fun _ s => s.notes.pending = [] ↔ s.phase = .idle)
    ⟨fun _ => rfl, fun _ => rfl⟩ ?_ hfed h
  intro fed w id u v _ _ _ hu hmove
  cases hmove with
  | rest | touch => exact hu
  | zero | store | again | next => simp [begin, take, mark, Group.insert_ne_nil]
  | lose | spoil | close => simp [abandon, mark]

end ZeroFill

end Peephole
end BpfLanes
