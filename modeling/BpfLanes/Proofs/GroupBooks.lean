import BpfLanes.Proofs.DroppedFills
import BpfLanes.Proofs.PairCopies

/-! # What recognisers keep in their books

The groups of a recogniser, its phase and what it remembers fit together after every
run. The last group has as many entries as the phase says, finished groups hold
exactly what was recognised, and no instruction is in two of them.
-/

namespace BpfLanes.Peephole

open Word (Proper unpacked)

variable {fed : List (Word × Int)} {g : Group} {id : Int} {w : Word}

/-! ## Alternating copies -/

theorem Span.Paired.two_le {d : Direction} {load store : Span}
    {ps : List ((Int × Int) × (Int × Int))} (h : Paired d load store ps) (hd : d ≠ .pending) :
    2 ≤ ps.length := by
  cases h with
  | first => exact absurd rfl hd
  | next h =>
    have hone := List.length_pos_iff.mpr h.ne_nil
    rw [List.length_append, List.length_singleton]
    omega

namespace CopyPairs

variable {t : CopyPairs} {ps : List ((Word × Int) × (Word × Int))} {low start : Int}

/-- A finished copy: in the order of positions, a load of six bytes, a store of six bytes
    and dropped instructions. -/
structure IsWide (g : Group) : Prop where
  sorted : g.ids.Pairwise (· < ·)
  size : g.length = 6 ∨ g.length = 12
  entries : ∃ load store rest, g = load :: store :: rest
    ∧ (unpacked load.word).opcode = Opcode.load48 ∧ (unpacked store.word).opcode = Opcode.store48
    ∧ ∀ e ∈ rest, e = .nop e.id

theorem Finished.pieces (h : Finished fed g ps low start) : ps.length = 3 ∨ ps.length = 6 := by
  obtain ⟨d, load, store, size, hpaired, hwidth, hfull, -⟩ := h.done.spans
  obtain ⟨hcount, hd, -⟩ := Span.isFull_iff.mp hfull
  have htwo := hpaired.two_le hd
  rw [List.length_map] at htwo
  -- wider pieces than half words are complete with one pair or none
  have hall : ∀ n ∈ [1, 2, 4, 6, 8], piecesOf n ≤ 1 ∨ piecesOf n = 3 ∨ piecesOf n = 6 := by decide
  have hpieces := hall size hwidth
  omega

theorem Finished.isWide (h : Finished fed g ps low start) (hfed : Ascending fed) : IsWide g := by
  have hids : g.ids = (flat ps).map Prod.snd := by rw [h.group, ids_fuse, ids_gatheredAll]
  have hlength : g.length = 2 * ps.length := by
    have hsame := congrArg List.length hids
    simpa [Group.ids, flat, List.length_flatMap, Nat.mul_comm] using hsame
  have hpieces := h.pieces
  refine ⟨?_, by omega, ?_⟩
  · rw [hids]
    exact hfed.ascending.sublist ((by simpa using h.among.sublist : (flat ps).Sublist fed).map _)
  · obtain ⟨p, rest, rfl⟩ : ∃ p rest, ps = p :: rest :=
      List.exists_cons_of_ne_nil (List.ne_nil_of_length_pos (by omega))
    exact ⟨_, _, _, h.group, Word.opcode_redirected .., Word.opcode_redirected ..,
      List.forall_mem_map.mpr fun _ _ => rfl⟩

/-- The books of the recogniser of alternating copies. -/
structure Kept (s : CopyPairs) : Prop where
  groups : s.notes.groups ≠ []
  apart : (s.notes.groups.flatMap Group.ids).Nodup
  idle : s.phase = .idle →
    s.notes.pending = [] ∧ s.load = {} ∧ s.store = {} ∧ s.progress = {}
  loaded : s.phase = .loaded → (s.notes.pending.length : Int) = 2 * s.progress.count + 1
  paired : s.phase = .paired →
    (s.notes.pending.length : Int) = 2 * s.progress.count ∧ 1 ≤ s.progress.count
  closed : ∀ g ∈ s.notes.closed, IsWide g

/-- After every run of the recogniser of alternating copies that meets no fault, its
    books are kept. -/
theorem books_kept (hfed : Ascending fed) (h : Runs (readAll read fed) {} () t) : Kept t := by
  obtain ⟨hsound, hwithin⟩ := moves.within_run hfed.distinct h
  refine ⟨hsound.notes.groups, ?_, ?_, ?_, ?_, ?_⟩
  · rw [← Notes.positions_eq hsound.notes.groups]
    exact hwithin.nodup
  · intro hp
    obtain ⟨hfresh, hempty⟩ : t.InPhase .idle := hp ▸ hsound.phase
    rw [hfresh]
    exact ⟨hempty, rfl, rfl, rfl⟩
  · intro hp
    obtain ⟨d, hgather, -⟩ : t.InPhase .loaded := hp ▸ hsound.phase
    exact hgather.length
  · intro hp
    obtain ⟨d, hgather, -, hone⟩ : t.InPhase .paired := hp ▸ hsound.phase
    exact ⟨by simpa using hgather.length, hone⟩
  · intro g hg
    obtain ⟨ps, low, start, hfinished⟩ := (traced_run hfed h).finished g hg
    exact hfinished.isWide hfed

/-- Three pairs of half words become a load and a store of six bytes. -/
theorem books_kept_twoCopies :
    ∃ t, Runs (readAll read twoCopies) {} () t ∧ Kept t ∧ t.notes.closed.map List.length = [6] := by
  have hfed : Ascending twoCopies := by
    constructor
    · unfold Proper
      decide
    · decide
  have hrun : Runs (readAll read twoCopies) {} () (stateAfter (readAll read twoCopies) {}) :=
    runs_stateAfter (by decide +kernel)
  exact ⟨_, hrun, books_kept hfed hrun, by decide +kernel⟩

end CopyPairs

/-! ## Zero fills -/

namespace ZeroFill

variable {s t : ZeroFill} {zero : Word × Int} {stores : List (Word × Int)}

/-- A group holds a move of zero into a register and later stores of that register to
    the stack. -/
structure Gathers (fed : List (Word × Int)) (g : Group) (zero : Word × Int)
    (stores : List (Word × Int)) : Prop where
  sublist : (zero :: stores).Sublist fed
  ids : g.ids.Perm ((zero :: stores).map Prod.snd)
  zeroes : (unpacked zero.1).zeroes = true
  stored : ∀ y ∈ stores,
    (unpacked y.1).storesToStack = true ∧ (unpacked y.1).src = (unpacked zero.1).dst

theorem Gathers.read (h : Gathers fed g zero stores) (x : Word × Int) :
    Gathers (fed ++ [x]) g zero stores :=
  ⟨h.sublist.trans (List.sublist_append_left ..), h.ids, h.zeroes, h.stored⟩

theorem gathers_zero (hzero : (unpacked w).zeroes = true) :
    Gathers (fed ++ [(w, id)]) [.nop id] (w, id) [] :=
  ⟨List.sublist_append_right .., .refl _, hzero, nofun⟩

theorem Gathers.store (h : Gathers fed g zero stores) (hid : id ∉ g.ids)
    (hstack : (unpacked w).storesToStack = true) (hsrc : (unpacked w).src = (unpacked zero.1).dst) :
    Gathers (fed ++ [(w, id)]) (g.insert (.nop id)) zero (stores ++ [(w, id)]) := by
  refine ⟨h.sublist.append (List.Sublist.refl _), ?_, h.zeroes, ?_⟩
  · refine (Group.perm_ids_insert hid).trans ((h.ids.cons id).trans ?_)
    rw [← List.cons_append, List.map_append]
    exact (List.perm_append_singleton _ _).symm
  · exact List.forall_mem_append.mpr ⟨h.stored, List.forall_mem_singleton.mpr ⟨hstack, hsrc⟩⟩

/-- What the last group holds in each phase, and which register is remembered. -/
def Stage (fed : List (Word × Int)) (s : ZeroFill) : Prop :=
  match s.phase with
  | .idle => s.notes.pending = [] ∧ s.register = none
  | .zeroed => ∃ zero, Gathers fed s.notes.pending zero []
    ∧ s.register = some (unpacked zero.1).dst
  | .storing => ∃ zero stores, Gathers fed s.notes.pending zero stores ∧ stores ≠ []
    ∧ s.register = some (unpacked zero.1).dst

theorem Stage.active (h : Stage fed s) (hp : s.phase ≠ .idle) :
    ∃ zero stores, Gathers fed s.notes.pending zero stores
      ∧ s.register = some (unpacked zero.1).dst := by
  unfold Stage at h
  cases hphase : s.phase with
  | idle => exact absurd hphase hp
  | zeroed =>
    simp only [hphase] at h
    obtain ⟨zero, hgathers, hregister⟩ := h
    exact ⟨zero, [], hgathers, hregister⟩
  | storing =>
    simp only [hphase] at h
    obtain ⟨zero, stores, hgathers, -, hregister⟩ := h
    exact ⟨zero, stores, hgathers, hregister⟩

theorem Stage.read (h : Stage fed s) (x : Word × Int) : Stage (fed ++ [x]) s := by
  unfold Stage at h ⊢
  cases hphase : s.phase with
  | idle => simpa only [hphase] using h
  | zeroed =>
    simp only [hphase] at h ⊢
    obtain ⟨zero, hgathers, hregister⟩ := h
    exact ⟨zero, hgathers.read x, hregister⟩
  | storing =>
    simp only [hphase] at h ⊢
    obtain ⟨zero, stores, hgathers, hrest⟩ := h
    exact ⟨zero, stores, hgathers.read x, hrest⟩

/-- Finished groups hold a move and at least one store. -/
def Filled (fed : List (Word × Int)) (n : Notes) : Prop :=
  ∀ g ∈ n.closed, ∃ zero stores, Gathers fed g zero stores ∧ stores ≠ []

/-- One instruction keeps what is known about the groups. -/
theorem Move.staged (h : Move s id (unpacked w) t) (hid : id ∉ s.notes.pending.ids)
    (hstage : Stage fed s) (hfilled : Filled fed s.notes) :
    Stage (fed ++ [(w, id)]) t ∧ Filled (fed ++ [(w, id)]) t.notes := by
  have hread : Filled (fed ++ [(w, id)]) s.notes := by
    intro g hg
    obtain ⟨zero, stores, hgathers, hne⟩ := hfilled g hg
    exact ⟨zero, stores, hgathers.read _, hne⟩
  -- the group of a state in which something was stored is finished
  have hjoin : s.phase = .storing → Filled (fed ++ [(w, id)]) (s.notes.finish s.notes.pending []) := by
    intro hp
    simp only [Stage, hp] at hstage
    obtain ⟨zero, stores, hgathers, hne, -⟩ := hstage
    unfold Filled
    rw [Notes.finish_closed]
    exact List.forall_mem_append.mpr
      ⟨hread, List.forall_mem_singleton.mpr ⟨zero, stores, hgathers.read _, hne⟩⟩
  have hbegin : ∀ {n : Notes}, n.pending = [] → (unpacked w).zeroes = true →
      Stage (fed ++ [(w, id)]) (begin { s with notes := n } id (unpacked w)) := by
    intro n hn hzero
    refine ⟨(w, id), ?_, (output?_of_zeroes hzero).1⟩
    show Gathers _ (n.keep (.nop id)).pending _ _
    rw [Notes.keep_pending, hn]
    exact gathers_zero hzero
  cases h with
  | rest => exact ⟨hstage.read _, hread⟩
  | touch hp => exact ⟨by simpa only [Stage, mark, hp] using hstage, hread⟩
  | zero hp hzero =>
    simp only [Stage, hp] at hstage
    exact ⟨hbegin hstage.1 hzero, by simpa [Filled, begin] using hread⟩
  | again _ hzero =>
    exact ⟨hbegin (by simp) hzero, by simpa [Filled, begin] using hread⟩
  | next hp hzero =>
    exact ⟨hbegin (by simp) hzero, by simpa [Filled, begin] using hjoin hp⟩
  | store hp hstore =>
    obtain ⟨zero, stores, hgathers, hregister⟩ := hstage.active hp
    obtain ⟨hstack, -, hsrc⟩ := zeroStore_eq_true hstore
    refine ⟨⟨zero, stores ++ [(w, id)], ?_, by simp, hregister⟩, ?_⟩
    · show Gathers _ (s.notes.keep (.nop id)).pending _ _
      rw [Notes.keep_pending]
      exact hgathers.store hid hstack (Option.mem_unique hsrc hregister)
    · simpa [Filled, take, mark] using hread
  | lose | spoil => exact ⟨⟨by simp [abandon, mark], rfl⟩, by simpa [Filled, abandon, mark] using hread⟩
  | close hp => exact ⟨⟨by simp [mark], rfl⟩, by simpa [Filled, mark] using hjoin hp⟩

/-- The offsets of the stores in the groups are remembered, and all different. -/
structure Apart (fed : List (Word × Int)) (s : ZeroFill) : Prop where
  marked : ∀ x ∈ fed, x.2 ∈ s.notes.positions → (unpacked x.1).isStore = true →
    (unpacked x.1).offset ∈ s.accessed
  differ : ∀ x ∈ fed, ∀ y ∈ fed, x.2 ∈ s.notes.positions → y.2 ∈ s.notes.positions →
    (unpacked x.1).isStore = true → (unpacked y.1).isStore = true →
    (unpacked x.1).offset = (unpacked y.1).offset → x = y

theorem Move.apart (h : Move s id (unpacked w) t) (hid : id ∉ fed.map Prod.snd)
    (hwithin : s.notes.Within (fed.map Prod.snd)) (hs : Apart fed s) :
    Apart (fed ++ [(w, id)]) t := by
  have hfresh : id ∉ s.notes.positions := fun hmem => hid (hwithin.subset hmem)
  have hold : ∀ x ∈ fed, x.2 ∈ t.notes.positions → x.2 ∈ s.notes.positions := fun _ hx =>
    h.earlier hid hwithin hx
  -- a store that joins a group has an offset that was not remembered before
  have hnew : id ∈ t.notes.positions → (unpacked w).isStore = true →
      (unpacked w).offset ∉ s.accessed ∧ (unpacked w).offset ∈ t.accessed := by
    intro hmem hstore
    rcases h.takes hfresh hmem with hzero | ⟨-, htaken, hmarked⟩
    · rw [Fields.zeroes_of_isStore hstore] at hzero
      cases hzero
    · exact ⟨(zeroStore_eq_true htaken).2.1, hmarked⟩
  constructor
  · intro x hx hmem hstore
    rcases List.mem_append.mp hx with hx | hx
    · exact h.accessed (hs.marked x hx (hold x hx hmem) hstore)
    · obtain rfl := List.mem_singleton.mp hx
      exact (hnew hmem hstore).2
  · intro x hx y hy hxm hym hxs hys heq
    rcases List.mem_append.mp hx with hx | hx <;> rcases List.mem_append.mp hy with hy | hy
    · exact hs.differ x hx y hy (hold x hx hxm) (hold y hy hym) hxs hys heq
    · obtain rfl := List.mem_singleton.mp hy
      exact absurd (heq ▸ hs.marked x hx (hold x hx hxm) hxs) (hnew hym hys).1
    · obtain rfl := List.mem_singleton.mp hx
      exact absurd (heq ▸ hs.marked y hy (hold y hy hym) hys) (hnew hxm hxs).1
    · rw [List.mem_singleton.mp hx, List.mem_singleton.mp hy]

/-- The books of the recogniser of zero fills. -/
structure Kept (fed : List (Word × Int)) (s : ZeroFill) : Prop where
  dropped : ∀ g ∈ s.notes.groups, ∀ e ∈ g, e = .nop e.id
  nodup : (s.notes.groups.flatMap Group.ids).Nodup
  closed : Filled fed s.notes
  stage : Stage fed s
  apart : Apart fed s

/-- After every run of the recogniser of zero fills that meets no fault, its books are
    kept. -/
theorem fills_kept (hfed : Distinct fed) (h : Runs (readAll read fed) {} () t) : Kept fed t := by
  obtain ⟨hgroups, hwithin⟩ := moves.within_run hfed h
  obtain ⟨hstage, hfilled, hapart⟩ := moves.run_induct
    (P := fun fed s => Stage fed s ∧ Filled fed s.notes ∧ Apart fed s)
    ⟨⟨rfl, rfl⟩, nofun, nofun, nofun⟩ (by
      intro fed w id u v hdistinct _ hwithin ⟨hstage, hfilled, hapart⟩ hmove
      have hid := hdistinct.last.2
      obtain ⟨hstage', hfilled'⟩ := hmove.staged
        (fun hmem => hid (hwithin.subset (List.mem_append_right _ hmem))) hstage hfilled
      exact ⟨hstage', hfilled', hmove.apart hid (hwithin.look w id) ⟨hapart.marked, hapart.differ⟩⟩)
    hfed h
  refine ⟨?_, ?_, hfilled, hstage, hapart⟩
  · exact (holds_run (P := fun e => e = .nop e.id) (fun _ => rfl) hfed h).groups hgroups
  · rw [← Notes.positions_eq hgroups]
    exact hwithin.nodup

/-- A move of zero and two stores of it are a finished group. -/
theorem fills_kept_plainFill :
    ∃ t, Runs (readAll read plainFill) {} () t ∧ Kept plainFill t
      ∧ t.notes.closed.map Group.ids = [[0, 1, 2]] := by
  have hfed : Distinct plainFill := by
    refine ⟨?_, by decide⟩
    unfold Proper
    decide
  have hrun : Runs (readAll read plainFill) {} () (stateAfter (readAll read plainFill) {}) :=
    runs_stateAfter (by decide +kernel)
  exact ⟨_, hrun, fills_kept hfed hrun, by decide +kernel⟩

end ZeroFill
end BpfLanes.Peephole
