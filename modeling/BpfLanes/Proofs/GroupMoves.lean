import BpfLanes.Proofs.CopyBatchSteps
import BpfLanes.Proofs.CopyPairsSteps
import BpfLanes.Proofs.ZeroFillSteps
import Mathlib.Data.List.Nodup
import Mathlib.Data.List.Perm.Subperm

/-! # What becomes of groups

All recognisers treat their groups alike. Reading an instruction leaves the group
that is being gathered as it is, puts the instruction into it, drops it or finishes
it, and in the last two cases the instruction may begin the next one. So when no two
instructions have the same position, no position is in two groups.
-/

namespace BpfLanes.Peephole

open Fields
open Word (Proper unpacked)

variable {e : Entry} {P Q : Entry → Prop} {f : Fields} {g : Group} {id : Int} {ids : List Int}
  {n n' : Notes} {w : Word} {x : Word × Int} {fits : Prop}

variable {fed : List (Word × Int)}

theorem Group.perm_ids_insert (h : e.id ∉ g.ids) : (g.insert e).ids.Perm (e.id :: g.ids) := by
  induction g with
  | nil => exact .refl _
  | cons f g ih =>
    simp only [ids, List.map_cons, List.mem_cons, not_or] at h
    unfold Group.insert
    split
    · exact .refl _
    · rw [if_neg h.1]
      exact ((ih h.2).cons f.id).trans (.swap ..)

namespace Notes

/-- What reading the instruction at a position can do to the groups. An instruction that
    is put into a group is of some kind. -/
inductive Step (n : Notes) (id : Int) (fits : Prop) (n' : Notes) : Prop
  | stay (hclosed : n'.closed = n.closed) (hpending : n'.pending = n.pending)
  | keep {e : Entry} (hfits : fits) (hid : e.id = id) (hclosed : n'.closed = n.closed)
      (hpending : n'.pending = n.pending.insert e)
  | drop (hclosed : n'.closed = n.closed) (hpending : n'.pending = [])
  | restart {e : Entry} (hfits : fits) (hid : e.id = id) (hclosed : n'.closed = n.closed)
      (hpending : n'.pending = [e])
  | finish {g : Group} (hids : g.ids = n.pending.ids) (hclosed : n'.closed = n.closed ++ [g])
      (hpending : n'.pending = [])
  | next {g : Group} {e : Entry} (hfits : fits) (hid : e.id = id) (hids : g.ids = n.pending.ids)
      (hclosed : n'.closed = n.closed ++ [g]) (hpending : n'.pending = [e])

/-- The positions in all groups. -/
def positions (n : Notes) : List Int := n.closed.flatMap Group.ids ++ n.pending.ids

theorem positions_eq (hg : n.groups ≠ []) : n.positions = n.groups.flatMap Group.ids := by
  rw [groups_eq hg]
  simp [positions]

/-- All positions in the groups are among some, and none is there twice. -/
structure Within (n : Notes) (ids : List Int) : Prop where
  nodup : n.positions.Nodup
  subset : n.positions ⊆ ids

theorem Step.subperm (h : n.Step id fits n') (hid : id ∉ n.pending.ids) :
    n'.positions.Subperm (n.positions ++ [id]) := by
  unfold positions
  cases h with
  | stay hclosed hpending =>
    rw [hclosed, hpending]
    exact (List.sublist_append_left ..).subperm
  | keep _ he hclosed hpending =>
    subst he
    rw [hclosed, hpending, List.append_assoc]
    refine List.Perm.subperm (.append_left _ ?_)
    exact (Group.perm_ids_insert hid).trans (List.perm_append_singleton _ _).symm
  | drop hclosed hpending =>
    rw [hclosed, hpending, List.append_assoc]
    exact ((List.nil_sublist _).append_left _).subperm
  | restart _ he hclosed hpending =>
    subst he
    rw [hclosed, hpending, List.append_assoc]
    exact ((List.sublist_append_right _ _).append_left _).subperm
  | finish hids hclosed hpending =>
    rw [hclosed, hpending, List.flatMap_append, List.flatMap_singleton, hids]
    exact ((List.nil_sublist _).append_left _).subperm
  | next _ he hids hclosed hpending =>
    subst he
    rw [hclosed, hpending, List.flatMap_append, List.flatMap_singleton, hids]
    exact List.Subperm.refl _

theorem Step.fits_of_new (h : n.Step id fits n') (hnew : id ∉ n.positions) (hid : id ∈ n'.positions) :
    fits := by
  unfold positions at hnew hid
  cases h with
  | keep h | restart h | next h => exact h
  | stay hclosed hpending => exact absurd (hclosed ▸ hpending ▸ hid) hnew
  | drop hclosed hpending =>
    rw [hclosed, hpending] at hid
    exact absurd (List.mem_append_left _ (by simpa [Group.ids] using hid)) hnew
  | finish hids hclosed hpending =>
    rw [hclosed, hpending, List.flatMap_append, List.flatMap_singleton, hids] at hid
    exact absurd (by simpa [Group.ids] using hid) hnew

theorem Within.step (hn : n.Within ids) (h : n.Step id fits n') (hid : id ∉ ids) :
    n'.Within (ids ++ [id]) := by
  have hnew : id ∉ n.positions := fun hmem => hid (hn.subset hmem)
  have hsubperm := h.subperm fun hmem => hnew (List.mem_append_right _ hmem)
  constructor
  · obtain ⟨l, hperm, hsub⟩ := hsubperm
    refine hperm.nodup_iff.mp (List.Nodup.sublist hsub ?_)
    rw [List.nodup_append]
    refine ⟨hn.nodup, List.nodup_singleton id, ?_⟩
    rintro i hi j hj rfl
    exact hnew (List.mem_singleton.mp hj ▸ hi)
  · intro i hi
    rcases List.mem_append.mp (hsubperm.subset hi) with hi | hi
    · exact List.mem_append_left _ (hn.subset hi)
    · exact List.mem_append_right _ hi

end Notes

/-- Instructions with proper words, no two at one position. -/
structure Distinct (fed : List (Word × Int)) : Prop where
  proper : ∀ x ∈ fed, Proper x.1
  nodup : (fed.map Prod.snd).Nodup

theorem Distinct.init (h : Distinct (fed ++ [x])) : Distinct fed where
  proper y hy := h.proper y (List.mem_append_left _ hy)
  nodup := by
    have hnodup := h.nodup
    rw [List.map_append] at hnodup
    exact hnodup.sublist (List.sublist_append_left ..)

theorem Distinct.last (h : Distinct (fed ++ [x])) : Proper x.1 ∧ x.2 ∉ fed.map Prod.snd := by
  refine ⟨h.proper x (by simp), fun hmem => ?_⟩
  have hnodup := h.nodup
  rw [List.map_append, List.nodup_append] at hnodup
  exact hnodup.2.2 x.2 hmem x.2 (by simp) rfl

theorem Notes.Within.look (h : n.Within ids) (w : Word) (id : Int) :
    (n.look w id).Within ids := ⟨h.nodup, h.subset⟩

theorem Notes.within_init : Notes.Within {} [] := ⟨List.nodup_nil, List.nil_subset _⟩

/-! ## Runs -/

/-- Reading an instruction is a move. From a reached state a move leads to a reached
    state, and it is a step of the groups. -/
structure Moves {σ : Type} (start : σ) (read : Word → Int → EStateM Fault σ Unit)
    (notes : σ → Notes) (Reached : σ → Prop) (Move : σ → Word → Int → σ → Prop)
    (Fits : Fields → Prop) : Prop where
  start : Reached start ∧ (notes start).Within []
  runs : ∀ {u v w id}, Reached u → Proper w → Runs (read w id) u () v → Move u w id v
  step : ∀ {u v w id}, Move u w id v → ((notes u).look w id).Step id (Fits (unpacked w)) (notes v)
  reached : ∀ {u v w id}, Reached u → Proper w → id ∉ (notes u).pending.ids →
    Move u w id v → Reached v

namespace Moves

variable {σ : Type} {start t : σ} {read : Word → Int → EStateM Fault σ Unit} {notes : σ → Notes}
variable {Reached : σ → Prop} {Move : σ → Word → Int → σ → Prop} {Fits : Fields → Prop}

variable (hmoves : Moves start read notes Reached Move Fits)
include hmoves

theorem within_run (hfed : Distinct fed)
    (h : Runs (readAll read fed) start () t) :
    Reached t ∧ (notes t).Within (fed.map Prod.snd) := by
  refine readAll_invariant (F := Distinct)
    (P := fun fed u => Reached u ∧ (notes u).Within (fed.map Prod.snd))
    (fun _ _ h => h.init) hmoves.start ?_ hfed h
  intro fed x u v hx ⟨hreached, hwithin⟩ hread
  obtain ⟨hproper, hnew⟩ := hx.last
  have hmove := hmoves.runs hreached hproper hread
  have hid : x.2 ∉ (notes u).pending.ids := fun hmem =>
    hnew (hwithin.subset (List.mem_append_right _ hmem))
  rw [List.map_append]
  exact ⟨hmoves.reached hreached hproper hid hmove,
    (hwithin.look x.1 x.2).step (hmoves.step hmove) hnew⟩

theorem run_induct {P : List (Word × Int) → σ → Prop} (hinit : P [] start)
    (hstep : ∀ fed w id u v, Distinct (fed ++ [(w, id)]) → Reached u →
      (notes u).Within (fed.map Prod.snd) → P fed u → Move u w id v → P (fed ++ [(w, id)]) v)
    (hfed : Distinct fed) (h : Runs (readAll read fed) start () t) : P fed t := by
  refine (readAll_invariant (F := Distinct)
    (P := fun fed u => Runs (readAll read fed) start () u ∧ P fed u)
    (fun _ _ h => h.init) ⟨runs_pure.mpr ⟨rfl, rfl⟩, hinit⟩ ?_ hfed h).2
  intro fed x u v hx ⟨hrun, hu⟩ hread
  obtain ⟨hreached, hwithin⟩ := hmoves.within_run hx.init hrun
  exact ⟨runs_readAll_concat.mpr ⟨u, hrun, hread⟩,
    hstep fed x.1 x.2 u v hx hreached hwithin hu (hmoves.runs hreached hx.last.1 hread)⟩

/-- What is in the groups was read, and is of the kind that they take. -/
theorem fits_run (hfed : Distinct fed) (h : Runs (readAll read fed) start () t) :
    ∀ id ∈ (notes t).positions, ∃ w, (w, id) ∈ fed ∧ Fits (unpacked w) := by
  refine hmoves.run_induct
    (P := fun fed s => ∀ id ∈ (notes s).positions, ∃ w, (w, id) ∈ fed ∧ Fits (unpacked w))
    (fun id hid => absurd (hmoves.start.2.subset hid) List.not_mem_nil) ?_ hfed h
  intro fed w id u v hx _ hwithin hu hmove i hi
  have hnew : id ∉ (notes u).positions := fun hmem => hx.last.2 (hwithin.subset hmem)
  have hstep := hmoves.step hmove
  rcases List.mem_append.mp ((hstep.subperm fun hmem =>
    hnew (List.mem_append_right _ hmem)).subset hi) with hold | hlast
  · obtain ⟨x, hx, hfits⟩ := hu i hold
    exact ⟨x, List.mem_append_left _ hx, hfits⟩
  · obtain rfl := List.mem_singleton.mp hlast
    exact ⟨w, by simp, hstep.fits_of_new hnew hi⟩

end Moves

/-! ## Entries -/

/-- What holds of the entries of finished groups, and of those that are being gathered. -/
structure Notes.Holds (P Q : Entry → Prop) (n : Notes) : Prop where
  closed : ∀ g ∈ n.closed, ∀ e ∈ g, P e
  pending : ∀ e ∈ n.pending, Q e

namespace Notes.Holds

theorem look (h : n.Holds P Q) (w : Word) (id : Int) : (n.look w id).Holds P Q :=
  ⟨h.closed, h.pending⟩

theorem drop (h : n.Holds P Q) : (n.gather []).Holds P Q := by
  refine ⟨?_, by simp⟩
  rw [gather_closed]
  exact h.closed

theorem finish (h : n.Holds P Q) (hg : ∀ e ∈ g, P e) : (n.finish g []).Holds P Q := by
  refine ⟨?_, by simp⟩
  rw [finish_closed]
  exact List.forall_mem_append.mpr ⟨h.closed, List.forall_mem_singleton.mpr hg⟩

theorem keep (h : n.Holds P Q) (he : Q e) : (n.keep e).Holds P Q := by
  constructor
  · rw [keep_closed]
    exact h.closed
  · rw [keep_pending]
    intro x hx
    rcases Group.mem_insert hx with rfl | hx
    · exact he
    · exact h.pending x hx

theorem groups (h : n.Holds P P) (hg : n.groups ≠ []) : ∀ g ∈ n.groups, ∀ e ∈ g, P e := by
  rw [groups_eq hg, List.forall_mem_append, List.forall_mem_singleton]
  exact ⟨h.closed, h.pending⟩

end Notes.Holds

/-- What holds of the entries of a copy, when it is finished and while it is gathered. -/
structure CopyEntries (P Q : Entry → Prop) : Prop where
  load : ∀ {w id}, Proper w → (unpacked w).isLoad = true → Q (.gathered w id)
  store : ∀ {w id}, Proper w → (unpacked w).isStore = true → Q (.gathered w id)
  wideLoad : ∀ e low, P (Entry.wideLoad e low)
  wideStore : ∀ e low f, P (Entry.wideStore e low f)
  nop : ∀ id, P (.nop id)

/-! ## The recognisers -/

namespace ZeroFill

variable {s t : ZeroFill}

/-- A move of a constant, or a store. -/
def Fits (f : Fields) : Prop := f.isMoveImmediate = true ∨ f.isStore = true

theorem Move.notes (h : Move s id f t) : s.notes.Step id (Fits f) t.notes := by
  have hzero : f.zeroes = true → Fits f := fun h => .inl (Bool.and_eq_true_iff.mp h).1
  cases h with
  | rest | touch => exact .stay rfl rfl
  | zero _ h =>
    exact .keep (e := .nop id) (hzero h) rfl (Notes.keep_closed ..) (Notes.keep_pending ..)
  | store _ h =>
    refine .keep (e := .nop id) (.inr ?_) rfl (Notes.keep_closed ..) (Notes.keep_pending ..)
    unfold zeroStore at h
    split at h
    · next htest => exact (Bool.and_eq_true_iff.mp htest).1
    · cases h
  | again _ h =>
    exact .restart (e := .nop id) (hzero h) rfl (by simp [begin]) (by simp [begin, Group.insert])
  | next _ h =>
    exact .next (e := .nop id) (hzero h) rfl rfl (by simp [begin]) (by simp [begin, Group.insert])
  | lose | spoil => exact .drop (by simp [abandon, mark]) (by simp [abandon, mark])
  | close => exact .finish rfl (by simp [mark]) (by simp [mark])

theorem Move.groups_ne_nil (h : Move s id f t) (hs : s.notes.groups ≠ []) :
    t.notes.groups ≠ [] := by
  cases h with
  | rest | touch => exact hs
  | _ => simp [begin, take, abandon, mark, Notes.keep]

theorem moves : Moves {} read ZeroFill.notes (fun s => s.notes.groups ≠ [])
    (fun u w id v => Move (u.look w id) id (unpacked w) v) Fits where
  start := ⟨by simp, Notes.within_init⟩
  runs := runs_read
  step h := h.notes
  reached hu _ _ h := h.groups_ne_nil hu

theorem holds_run (hnop : ∀ id, P (.nop id)) (hfed : Distinct fed)
    (h : Runs (readAll read fed) {} () t) : t.notes.Holds P P := by
  refine moves.run_induct (P := fun _ s => s.notes.Holds P P) ⟨nofun, nofun⟩ ?_ hfed h
  intro fed w id u v _ _ _ hu hmove
  replace hu : (u.look w id).notes.Holds P P := hu.look w id
  cases hmove with
  | rest | touch => exact hu
  | zero | store => exact hu.keep (hnop id)
  | again => exact hu.drop.keep (hnop id)
  | next => exact (hu.finish hu.pending).keep (hnop id)
  | lose | spoil => exact hu.drop
  | close => exact hu.finish hu.pending

end ZeroFill

namespace CopyPairs

variable {s t : CopyPairs}

theorem ids_fuse (low start : Int) (g : Group) : (fuse low start g).ids = g.ids := by
  match g with
  | e₁ :: e₂ :: rest =>
    simp only [fuse, Group.ids, List.map_cons, List.map_map]
    rfl
  | [] | [_] => rfl

theorem ids_finished (h : s.finished = .ok g) : g.ids = s.notes.pending.ids := by
  unfold finished at h
  split at h
  · exact Except.ok.inj h ▸ ids_fuse ..
  · cases h

theorem Move.notes (h : Move s w id f t) : s.notes.Step id f.IsAccess t.notes := by
  cases h with
  | rest | note => exact .stay rfl rfl
  | first _ h | load _ h =>
    exact .keep (e := .gathered w id) (Or.inl (isLoad_of_isNarrowLoad h)) rfl
      (Notes.keep_closed ..) (Notes.keep_pending ..)
  | store _ h =>
    exact .keep (e := .gathered w id) (Or.inr (isStore_of_isNarrowStore h)) rfl
      (Notes.keep_closed ..) (Notes.keep_pending ..)
  | giveUp => exact .drop (by simp [fresh]) (by simp [fresh])
  | startOver h =>
    exact .restart (e := .gathered w id) (Or.inl (isLoad_of_isNarrowLoad h)) rfl (by simp [begun])
      (by simp [begun, Group.insert])
  | finish _ _ _ hg => exact .finish (ids_finished hg) (by simp [fresh]) (by simp [fresh])
  | finishFirst _ _ _ hg h =>
    exact .next (e := .gathered w id) (Or.inl (isLoad_of_isNarrowLoad h)) rfl (ids_finished hg)
      (by simp [begun]) (by simp [begun, Group.insert])

theorem moves : Moves {} read CopyPairs.notes Sound
    (fun u w id v => Move (u.look w id) w id (unpacked w) v) Fields.IsAccess where
  start := ⟨sound_init, Notes.within_init⟩
  runs := runs_read
  step h := h.notes
  reached hu hw hid h := h.sound (hu.look _ _) hw hid

theorem forall_finished (hentries : CopyEntries P Q) (hs : s.Sound) (hp : s.phase = .paired)
    (h : s.finished = .ok g) : ∀ e ∈ g, P e := by
  obtain ⟨d, hgather, -, hone⟩ : s.InPhase .paired := hp ▸ hs.phase
  have hlength := hgather.length
  unfold finished at h
  split at h
  · cases h
    rcases hgroup : s.notes.pending with _ | ⟨e₁, _ | ⟨e₂, rest⟩⟩
    · simp [hgroup] at hlength
      omega
    · simp [hgroup] at hlength
      omega
    · simp only [fuse, List.forall_mem_cons, List.forall_mem_map]
      exact ⟨hentries.wideLoad .., hentries.wideStore .., fun e _ => hentries.nop e.id⟩
  · cases h

theorem holds_run (hentries : CopyEntries P Q) (hfed : Distinct fed)
    (h : Runs (readAll read fed) {} () t) : t.notes.Holds P Q := by
  refine moves.run_induct (P := fun _ s => s.notes.Holds P Q) ⟨nofun, nofun⟩ ?_ hfed h
  intro fed w id u v hx hsound _ hu hmove
  replace hu : (u.look w id).notes.Holds P Q := hu.look w id
  have hload : (unpacked w).isNarrowLoad = true → Q (.gathered w id) := fun h =>
    hentries.load hx.last.1 (isLoad_of_isNarrowLoad h)
  have hdone := fun g => forall_finished (g := g) hentries (hsound.look w id)
  cases hmove with
  | rest | note => exact hu
  | first _ h | load _ h => exact hu.keep (hload h)
  | store _ h => exact hu.keep (hentries.store hx.last.1 (isStore_of_isNarrowStore h))
  | giveUp => exact hu.drop
  | startOver h => exact hu.drop.keep (hload h)
  | finish hp _ _ hg => exact hu.finish (hdone _ hp hg)
  | finishFirst hp _ _ hg h => exact (hu.finish (hdone _ hp hg)).keep (hload h)

end CopyPairs

namespace CopyBatch

variable {s t : CopyBatch}

theorem ids_fuse (low start : Int) (g : Group) : (fuse low start g).ids = g.ids := by
  cases g with
  | nil => rfl
  | cons e rest => simp [fuse, Group.ids, fuseStore_id, Entry.wideLoad, Function.comp_def]

theorem settled_notes {size : Int} (h : s.settled size = .ok t) : t.notes = s.notes := by
  unfold settled at h
  split at h
  · obtain ⟨registers, -, h⟩ := bind_eq_ok.mp h
    exact Except.ok.inj h ▸ rfl
  · exact Except.ok.inj h ▸ rfl

theorem Move.notes (h : Move s w id f t) : s.notes.Step id f.IsAccess t.notes := by
  have hkeep : f.IsAccess → s.notes.Step id f.IsAccess (s.notes.keep (.gathered w id)) := fun h =>
    .keep (e := .gathered w id) h rfl (Notes.keep_closed ..) (Notes.keep_pending ..)
  cases h with
  | rest | note => exact .stay rfl rfl
  | first _ h => exact hkeep (Or.inl (isLoad_of_isNarrowLoad h))
  | load _ h => exact hkeep (Or.inl (isLoad_of_loadBytes? h))
  | store _ h => exact hkeep (Or.inr (isStore_of_isNarrowStore h))
  | giveUp => exact .drop (by simp [fresh]) (by simp [fresh])
  | startOver h =>
    exact .restart (e := .gathered w id) (Or.inl (isLoad_of_isNarrowLoad h)) rfl (by simp [begun])
      (by simp [begun, Group.insert])
  | settle _ _ _ ht =>
    rw [settled_notes ht]
    exact .stay rfl rfl
  | finish => exact .finish (ids_fuse ..) (by simp [fresh]; rfl) (by simp [fresh])
  | finishFirst _ _ _ h =>
    exact .next (e := .gathered w id) (Or.inl (isLoad_of_isNarrowLoad h)) rfl (ids_fuse ..)
      (by simp [begun]; rfl) (by simp [begun, Group.insert])

theorem moves : Moves {} read CopyBatch.notes Sound
    (fun u w id v => Move (u.look w id) w id (unpacked w) v) Fields.IsAccess where
  start := ⟨sound_init, Notes.within_init⟩
  runs := runs_read
  step h := h.notes
  reached hu hw _ h := h.sound (hu.look _ _) hw

theorem forall_finished (hentries : CopyEntries P Q) (s : CopyBatch) : ∀ e ∈ s.finished, P e := by
  unfold finished
  cases s.notes.pending with
  | nil => exact nofun
  | cons e rest =>
    simp only [fuse, List.forall_mem_cons, List.forall_mem_map]
    refine ⟨hentries.wideLoad .., fun x _ => ?_⟩
    unfold fuseStore
    split
    · exact hentries.wideStore ..
    · exact hentries.nop x.id

theorem holds_run (hentries : CopyEntries P Q) (hfed : Distinct fed)
    (h : Runs (readAll read fed) {} () t) : t.notes.Holds P Q := by
  refine moves.run_induct (P := fun _ s => s.notes.Holds P Q) ⟨nofun, nofun⟩ ?_ hfed h
  intro fed w id u v hx _ _ hu hmove
  replace hu : (u.look w id).notes.Holds P Q := hu.look w id
  have hload : (unpacked w).isNarrowLoad = true → Q (.gathered w id) := fun h =>
    hentries.load hx.last.1 (isLoad_of_isNarrowLoad h)
  have hdone := forall_finished hentries (u.look w id)
  cases hmove with
  | rest | note => exact hu
  | first _ h => exact hu.keep (hload h)
  | load _ h => exact hu.keep (hentries.load hx.last.1 (isLoad_of_loadBytes? h))
  | store _ h => exact hu.keep (hentries.store hx.last.1 (isStore_of_isNarrowStore h))
  | settle _ _ _ ht =>
    rwa [settled_notes ht]
  | giveUp => exact hu.drop
  | startOver h => exact hu.drop.keep (hload h)
  | finish => exact hu.finish hdone
  | finishFirst _ _ _ h => exact (hu.finish hdone).keep (hload h)

end CopyBatch

end BpfLanes.Peephole
