import BpfLanes.Proofs.SpanForms
import BpfLanes.Proofs.WideAccesses

/-! # Steps of the recogniser of alternating copies

What reading one instruction does to the recogniser of alternating copies, phase
by phase (`react`), in the states that it can be in (`Sound`). A test notes the size
of the access that it looks at, so the size of a copy is that of the last access
tested.
-/

namespace BpfLanes.Peephole.CopyPairs

open Fields
open Word (Proper unpacked)

variable {t : CopyPairs} {n : Notes}

variable {s : CopyPairs} {w : Word} {id : Int} {f : Fields} {d : Direction} {size : Int}

/-! ## Tests -/

/-- The size of the last access that was tested is noted. -/
def sized (s : CopyPairs) (size : Int) : CopyPairs :=
  { s with progress := { s.progress with size := some size } }

/-- The direction of the copy, which is pending until it is known. -/
def heading (s : CopyPairs) : Direction := s.progress.direction.getD .pending

/-- All six bytes have been stored, in pieces of a size. -/
def full (s : CopyPairs) (size : Int) : Bool :=
  s.store.isFull s.heading s.progress.count size

/-- Whether a load fits the pieces that were loaded. -/
def nextLoad (s : CopyPairs) (f : Fields) : Bool :=
  s.load.continues s.heading (s.full f.loadSize) f.offset f.loadSize
    ((piecesOf f.loadSize - s.progress.count) * f.loadSize)

/-- Whether a store fits the pieces that were stored. -/
def nextStore (s : CopyPairs) (f : Fields) : Bool :=
  s.heading == .pending ||
    s.store.continues s.heading (s.full f.storeSize) f.offset f.storeSize
      (piecesOf f.storeSize - s.progress.count * f.storeSize)

theorem heading_eq (hd : s.progress.direction = some d) : s.heading = d := by
  rw [heading, hd, Option.getD_some]

section
variable (s) (f) (size size' : Int)

/-! The size that was noted plays no part in the tests. -/

@[simp] theorem sized_sized : (s.sized size).sized size' = s.sized size' := rfl

@[simp] theorem sized_load : (s.sized size).load = s.load := rfl

@[simp] theorem sized_store : (s.sized size).store = s.store := rfl

@[simp] theorem sized_notes : (s.sized size).notes = s.notes := rfl

@[simp] theorem sized_full : (s.sized size).full size' = s.full size' := rfl

@[simp] theorem sized_nextLoad : (s.sized size).nextLoad f = s.nextLoad f := rfl

@[simp] theorem sized_nextStore : (s.sized size).nextStore f = s.nextStore f := rfl

end

attribute [local simp] fields

section
variable (hf : s.notes.fields = .ok f)
include hf

theorem outcome_isNextLoad (hd : s.progress.direction = some d) (hl : s.load.Formed d)
    (hst : s.store.Formed d) (hload : f.isNarrowLoad = true) :
    outcome isNextLoad s = .ok (s.nextLoad f, s.sized f.loadSize) := by
  have hpos := loadSize_pos hload
  have hcomplete := hst.complete_eq (p := (s.sized f.loadSize).progress) hd rfl hpos
  simp only [sized, hd] at hcomplete
  unfold isNextLoad setSize nextLoad full sized
  rw [heading_eq hd]
  simp only [fields, hf, outcome_bind, ok_bind, outcome_get, outcome_ite, outcome_lift, hd,
    isLoad_of_isNarrowLoad hload, bytesOfBits_load, loadBytes?_eq_loadSize hload]
  cases d with
  | pending => simp [need, hd, Span.continues]
  | forward =>
    simp [need, hd, hcomplete, hl.continuesForward_eq hpos _
      ((piecesOf f.loadSize - s.progress.count) * f.loadSize)]
  | backward => simp [need, hd, hcomplete, pieces_eq hpos, hl.continuesBackward_eq]

theorem outcome_isNextStore (hd : s.progress.direction = some d)
    (hst : d ≠ .pending → s.store.Formed d) (hstore : f.isStore = true)
    (himm : f.isImmediateStore = false) :
    outcome isNextStore s = .ok (s.nextStore f, s.sized f.storeSize) := by
  obtain ⟨hbytes, hpos⟩ := storeBytes?_eq_storeSize hstore himm
  unfold isNextStore setSize nextStore full sized
  rw [heading_eq hd]
  simp only [fields, hf, outcome_bind, ok_bind, outcome_get, outcome_ite, outcome_lift, hd,
    hstore, bytesOfBits_store, hbytes]
  have hcomplete := fun hne => (hst hne).complete_eq (p := (s.sized f.storeSize).progress) hd rfl hpos
  simp only [sized, hd] at hcomplete
  cases d with
  | pending => simp [need, hd]
  | forward =>
    have hst := hst (by decide)
    simp [need, hd, hcomplete, hst.continuesForward_eq hpos _
      (piecesOf f.storeSize - s.progress.count * f.storeSize)]
  | backward =>
    have hst := hst (by decide)
    simp [need, hd, hcomplete, pieces_eq hpos, hst.continuesBackward_eq]

theorem outcome_isNextStore_of_immediate (himm : f.isImmediateStore = true) :
    outcome isNextStore s = .error .missingNumber := by
  simp only [Fields.isImmediateStore, Bool.and_eq_true, Option.isNone_iff_eq_none] at himm
  simp [isNextStore, hf, himm.1, himm.2, bytesOfBits, need]

theorem outcome_isNextStore_of_not (hstore : f.isStore = false) :
    outcome isNextStore s = .ok (false, s) := by
  simp [isNextStore, hf, hstore]

end

theorem outcome_isComplete (hd : s.progress.direction = some d) (hst : s.store.Formed d)
    (hsize : s.progress.size = some size) (hpos : 0 < size) :
    outcome isComplete s = .ok (s.full size, s) := by
  unfold isComplete full
  rw [heading_eq hd]
  simp [hst.complete_eq hd hsize hpos]

/-! ## Actions -/

/-- Nothing is being copied. -/
def fresh (n : Notes) : CopyPairs := { notes := n }

/-- A load begins a copy. -/
def begun (n : Notes) (w : Word) (id : Int) (f : Fields) : CopyPairs :=
  { phase := .loaded
    load := Span.start {} f.offset f.loadSize
    progress := { direction := some .pending, size := some f.loadSize }
    notes := n.keep (.gathered w id) }

/-- The copy with one more load. The second one decides about the direction, also of the
    stores, whose run is then taken to end where the loads end. -/
def withLoad (s : CopyPairs) (w : Word) (id : Int) (f : Fields) : CopyPairs :=
  let next := s.load.push s.heading f.offset f.loadSize
  { s with
    phase := .loaded
    load := next.2
    store :=
      if s.heading = .pending ∧ next.1 = .forward then
        s.store.turnForward (f.offset + f.loadSize)
      else s.store
    progress := { s.progress with direction := some next.1, size := some f.loadSize }
    notes := s.notes.keep (.gathered w id) }

/-- One more piece is stored. -/
def withStore (s : CopyPairs) (w : Word) (id : Int) (f : Fields) : CopyPairs :=
  { s with
    phase := .paired
    store :=
      if s.heading = .pending then Span.start {} f.offset f.storeSize
      else (s.store.push s.heading f.offset f.storeSize).2
    progress := { s.progress with count := s.progress.count + 1, size := some f.storeSize }
    notes := s.notes.keep (.gathered w id) }

/-- A store that passes the test though it does not fit to the pieces stored. -/
def misjudges (s : CopyPairs) (f : Fields) : Bool :=
  s.heading == .backward &&
    !s.store.continues .backward false f.offset f.storeSize
      ((piecesOf f.storeSize - s.progress.count) * f.storeSize)

theorem outcome_keep (hnow : s.notes.now = .ok (w, id)) (hg : s.notes.groups ≠ []) :
    outcome keep s = .ok ((), { s with notes := s.notes.keep (.gathered w id) }) := by
  unfold keep
  simp only [outcome_bind, outcome_get, ok_bind, outcome_lift, hnow, Notes.put_eq hg, outcome_set]
  rfl

theorem outcome_addLoad_fresh (hf : n.fields = .ok f) (hnow : n.now = .ok (w, id))
    (hg : n.groups ≠ []) (hload : f.isNarrowLoad = true) :
    outcome addLoad { phase := .loaded, notes := n } = .ok ((), begun n w id f) := by
  obtain ⟨bits, hbits, hsize⟩ :=
    Option.map_eq_some_iff.mp (loadBytes?_eq_loadSize hload)
  have hkeep := fun load progress =>
    outcome_keep (s := { phase := .loaded, load, progress, notes := n }) hnow hg
  unfold addLoad agreeSize extendLoad setSize
  simp [hf, hbits, hsize, hkeep, begun]

section
variable (hf : s.notes.fields = .ok f) (hnow : s.notes.now = .ok (w, id))
  (hg : s.notes.groups ≠ [])
include hf hnow hg

theorem outcome_addLoad (hload : f.isNarrowLoad = true) (hd : s.progress.direction = some d)
    (hl : s.load.Formed d) (hsize : s.progress.size = some f.loadSize)
    (hfits : s.load.continues d false f.offset f.loadSize
      ((piecesOf f.loadSize - s.progress.count) * f.loadSize) = true) :
    outcome addLoad s = .ok ((), { s.withLoad w id f with phase := s.phase }) := by
  obtain ⟨bits, hbits, hbytes⟩ :=
    Option.map_eq_some_iff.mp (loadBytes?_eq_loadSize hload)
  have hpos := loadSize_pos hload
  have hkeep := fun load store progress =>
    outcome_keep (s := { s with load, store, progress }) hnow hg
  unfold addLoad agreeSize extendLoad withLoad
  rw [heading_eq hd]
  have hprogress : s.progress =
      { direction := some d, count := s.progress.count, size := some f.loadSize } := by
    rw [← hd, ← hsize]
  cases d with
  | pending =>
    have hsecond := Span.Formed.second_eq s.load f.offset f.loadSize loadRefusal
    rw [if_pos (show s.load.touches f.offset f.loadSize = true from hfits)] at hsecond
    by_cases hforward : (s.load.push .pending f.offset f.loadSize).1 = .forward <;>
      simp [hf, hbits, hbytes, hsize, hd, hkeep, require, hsecond, hforward]
  | forward =>
    have hextend := hl.extendForward_eq hpos f.offset
      ((piecesOf f.loadSize - s.progress.count) * f.loadSize) loadRefusal
    rw [if_pos hfits] at hextend
    simp [hf, hbits, hbytes, hsize, hd, hkeep, require, hextend, ← hprogress,
      Span.push_heading]
  | backward =>
    have hextend := hl.extendBackward_eq hpos f.offset s.progress.count loadRefusal
    rw [if_pos hfits] at hextend
    simp [hf, hbits, hbytes, hsize, hd, hkeep, require, hextend, ← hprogress,
      Span.push_heading]

theorem outcome_addStore (hstore : f.isNarrowStore = true) (hd : s.progress.direction = some d)
    (hsize : s.progress.size = some f.storeSize)
    (hst : if d = .pending then s.store = {} else s.store.Formed d)
    (hfits : s.nextStore f = true) :
    outcome addStore s =
      if s.misjudges f then .error (.violated storeRefusal)
      else .ok ((), { s.withStore w id f with phase := s.phase }) := by
  obtain ⟨bits, hbits, hbytes⟩ := storeBits?_of_isNarrowStore hstore
  have hpos := storeSize_pos hstore
  have hkeep := fun load store progress =>
    outcome_keep (s := { s with load, store, progress }) hnow hg
  unfold nextStore at hfits
  unfold addStore checkSize extendStore withStore misjudges
  rw [heading_eq hd] at hfits ⊢
  cases d with
  | pending =>
    simp at hst
    simp [hf, hbits, hbytes, hsize, hd, hkeep, require, need, hst]
  | forward =>
    simp only [reduceCtorEq, if_false] at hst
    have hextend := hst.extendForward_eq hpos f.offset
      (piecesOf f.storeSize - s.progress.count * f.storeSize) storeRefusal
    rw [if_pos (Span.continues_of_full (by simpa using hfits))] at hextend
    simp [hf, hbits, hbytes, hsize, hd, hkeep, require, need, hextend]
  | backward =>
    simp only [reduceCtorEq, if_false] at hst
    have hextend := hst.extendBackward_eq hpos f.offset s.progress.count storeRefusal
    cases hright : s.store.continues .backward false f.offset f.storeSize
        ((piecesOf f.storeSize - s.progress.count) * f.storeSize) <;>
      simp [hf, hbits, hbytes, hsize, hd, hkeep, require, need, hextend, hright]

end
/-! ## Finishing a copy -/

/-- The group of a finished copy: the first two entries carry the accesses of six bytes. -/
def fuse (low start : Int) : Group → Group
  | e₁ :: e₂ :: rest =>
    e₁.wideLoad low :: e₂.wideStore start (unpacked (e₂.word.wideStore start))
      :: rest.map fun e => .nop e.id
  | g => g

/-- The finished group. Both spans must have a left run. -/
def finished (s : CopyPairs) : Except Fault Group :=
  match s.load.leftLow, s.store.leftLow with
  | some low, some start => .ok (fuse low start s.notes.pending)
  | _, _ => .error .missingPart

theorem outcome_put_replace {a b : Group} {x e : Entry} (hid : e.id = x.id)
    (h : Group.ids (a ++ x :: b) |>.Pairwise (· < ·)) :
    outcome (put e) { s with notes := s.notes.gather (a ++ x :: b) } =
      .ok ((), { s with notes := s.notes.gather (a ++ e :: b) }) := by
  unfold put
  simp [Notes.put_replace hid h]

theorem outcome_finish (hn : s.notes.Sound) (hlength : 2 ≤ s.notes.pending.length)
    (hl : ∀ low, s.load.leftLow = some low → Field.offset.Takes low)
    (hst : ∀ low, s.store.leftLow = some low → Field.offset.Takes low) :
    outcome finish s =
      (s.finished >>= fun g => .ok ((), { s with notes := s.notes.gather g })) := by
  obtain ⟨e₁, e₂, rest, hgroup⟩ : ∃ e₁ e₂ rest, s.notes.pending = e₁ :: e₂ :: rest := by
    match h : s.notes.pending with
    | e₁ :: e₂ :: rest => exact ⟨e₁, e₂, rest, rfl⟩
    | [] | [_] => simp [h] at hlength
  have hsame : s = { s with notes := s.notes.gather (e₁ :: e₂ :: rest) } := by
    rw [← hgroup, Notes.gather, ← Notes.groups_eq hn.groups]
  have hload := hn.proper e₁ (by simp [hgroup])
  have hstore := hn.proper e₂ (by simp [hgroup])
  have hsorted := hn.sorted
  rw [hgroup] at hsorted
  unfold finish finished
  simp only [outcome_bind, outcome_get, ok_bind, outcome_lift, Notes.last_eq hn.groups, hgroup,
    Position.get_first, Position.get_second]
  cases hlow : s.load.leftLow with
  | none => simp [lowest]
  | some low =>
    obtain ⟨hset, -, hdecode, htext⟩ := wideLoad_spec hload (hl low hlow)
    simp only [lowest, ok_bind, hset, hdecode, htext]
    cases hstart : s.store.leftLow with
    | none => simp
    | some start =>
      obtain ⟨hset, -, hdecode, htext⟩ := wideStore_spec hstore (hst start hstart)
      have hfirst := outcome_put_replace (s := s) (a := []) (x := e₁) (e := e₁.wideLoad low) rfl
        hsorted
      have hsecond := outcome_put_replace (s := s) (a := [e₁.wideLoad low]) (x := e₂)
        (e := e₂.wideStore start (unpacked (e₂.word.wideStore start))) rfl hsorted
      have hrest := outcome_forM_replace (fun e => put (.nop e.id))
        (fun g => { s with notes := s.notes.gather g }) (fun e => .nop e.id) (fun _ => rfl)
        [e₁.wideLoad low, e₂.wideStore start (unpacked (e₂.word.wideStore start))]
        (fun e _ a b h => outcome_put_replace rfl h) hsorted
      rw [List.nil_append, ← hsame] at hfirst
      simp only [List.cons_append, List.nil_append] at hfirst hsecond hrest
      simp only [ok_bind, hset, hdecode, htext]
      show (outcome (put (e₁.wideLoad low)) s >>= fun x =>
        outcome (put (e₂.wideStore start (unpacked (e₂.word.wideStore start)))) x.2 >>= fun x =>
        outcome (rest.forM fun e => put (.nop e.id)) x.2) = _
      simp only [hfirst, ok_bind, hsecond, hrest]
      rfl

/-! ## One instruction -/

/-- The next instruction is looked at. -/
def look (s : CopyPairs) (w : Word) (id : Int) : CopyPairs :=
  { s with notes := s.notes.look w id }

/-- The size that is noted, or 0. -/
def bytes (s : CopyPairs) : Int := s.progress.size.getD 0

theorem bytes_eq (hsize : s.progress.size = some size) : s.bytes = size := by
  rw [bytes, hsize, Option.getD_some]

/-- What reading an instruction does, phase by phase. -/
def react (s : CopyPairs) (w : Word) (id : Int) (f : Fields) : Except Fault CopyPairs :=
  match s.phase with
  | .idle => .ok (if f.isNarrowLoad then begun s.notes w id f else s)
  | .loaded =>
    if f.isStore then
      if f.isImmediateStore then .error .missingNumber
      else if s.nextStore f then
        if f.isNarrowStore then
          if s.misjudges f then .error (.violated storeRefusal) else .ok (s.withStore w id f)
        else .ok (s.sized f.storeSize)
      else .ok (fresh (s.notes.gather []))
    else if f.isNarrowLoad then .ok (begun (s.notes.gather []) w id f)
    else .ok (fresh (s.notes.gather []))
  | .paired =>
    if f.isNarrowLoad then
      if s.full f.loadSize then
        if s.nextLoad f then .ok (s.sized f.loadSize)
        else s.finished >>= fun g => .ok (begun (s.notes.finish g []) w id f)
      else if s.nextLoad f then .ok (s.withLoad w id f)
      else .ok (begun (s.notes.gather []) w id f)
    else if s.full s.bytes then s.finished >>= fun g => .ok (fresh (s.notes.finish g []))
    else .ok (fresh (s.notes.gather []))

/-- A copy is being gathered: each run is in the form of the direction, and the group
    holds a load and a store for each piece that was counted, and `more` entries. -/
structure Gathering (s : CopyPairs) (d : Direction) (more : Int) : Prop where
  direction : s.progress.direction = some d
  size : ∃ size, s.progress.size = some size ∧ IsWidth size
  load : s.load.Formed d
  count : 0 ≤ s.progress.count
  length : (s.notes.pending.length : Int) = 2 * s.progress.count + more

/-- What holds in a phase: which pieces were loaded and stored by then. -/
def InPhase (s : CopyPairs) : Phase → Prop
  | .idle => s = fresh s.notes ∧ s.notes.pending = []
  | .loaded => ∃ d, s.Gathering d 1 ∧ if d = .pending then s.store = {} else s.store.Formed d
  | .paired => ∃ d, s.Gathering d 0 ∧ s.store.Formed d ∧ 1 ≤ s.progress.count

/-- The states that the recogniser can be in. -/
structure Sound (s : CopyPairs) : Prop where
  notes : s.notes.Sound
  phase : s.InPhase s.phase

theorem InPhase.unseen {p : Phase} (h : s.InPhase p) (hp : p ≠ .idle)
    (hn : n.pending = s.notes.pending) {q : Option Int}
    (hq : ∃ size, q = some size ∧ IsWidth size) :
    InPhase { s with notes := n, progress := { s.progress with size := q } } p := by
  cases p with
  | idle => exact absurd rfl hp
  | loaded | paired =>
    obtain ⟨d, ⟨hd, -, hload, hcount, hlength⟩, hst⟩ := h
    exact ⟨d, ⟨hd, hq, hload, hcount, hn ▸ hlength⟩, hst⟩

theorem Sound.look (hs : s.Sound) (w : Word) (id : Int) : (s.look w id).Sound := by
  refine ⟨⟨hs.notes.groups, hs.notes.sorted, hs.notes.proper⟩, ?_⟩
  have hphase := hs.phase
  show InPhase _ s.phase
  cases hp : s.phase with
  | idle =>
    obtain ⟨hfresh, hempty⟩ := hp ▸ hphase
    exact ⟨congrArg (CopyPairs.look · w id) hfresh, hempty⟩
  | loaded | paired =>
    rw [hp] at hphase
    have ⟨d, hgather, _⟩ := hphase
    exact hphase.unseen (n := s.notes.look w id) (by decide) rfl hgather.size

/-- The rules of the present phase, in their order. -/
abbrev applyRules : Step Unit := Rule.step phase (fun p s => { s with phase := p }) rules

section
variable (hf : s.notes.fields = .ok f) (hnow : s.notes.now = .ok (w, id))
  (hs : s.Sound)
include hf hnow hs

/-! The rules that start in a phase, worked out test by test. -/

attribute [local simp] rules isLoad isStore dropGroup openGroup reset

theorem leadsTo_step_idle (hp : s.phase = .idle) :
    LeadsTo applyRules s (s.react w id f) := by
  obtain ⟨hempty, -⟩ : s.InPhase .idle := hp ▸ hs.phase
  have hfresh : { s with phase := .loaded } = { fresh s.notes with phase := .loaded } := by
    rw [← hempty]
  have hadd := outcome_addLoad_fresh hf hnow hs.notes.groups
  rw [Rule.leadsTo_step hp, react, hp]
  cases hload : f.isNarrowLoad with
  | true => simp [hf, hload, hfresh, fresh, hadd]
  | false => simp [hf, hload]

theorem leadsTo_step_loaded (hp : s.phase = .loaded) :
    LeadsTo applyRules s (s.react w id f) := by
  obtain ⟨d, hgather, hst⟩ : s.InPhase .loaded := hp ▸ hs.phase
  have hform : d ≠ .pending → s.store.Formed d := fun hne => by rwa [if_neg hne] at hst
  have hrestart := outcome_addLoad_fresh (n := s.notes.gather []) hf hnow (by simp)
  rw [Rule.leadsTo_step hp, react, hp]
  cases hstore : f.isStore with
  | false =>
    have hnarrow : f.isNarrowStore = false :=
      Bool.eq_false_iff.mpr fun h => by simp [isStore_of_isNarrowStore h] at hstore
    cases hload : f.isNarrowLoad <;>
      simp [hf, hnarrow, hload, outcome_isNextStore_of_not hf hstore, hrestart, fresh]
  | true =>
    have hload : f.isNarrowLoad = false := (classes_of_isStore hstore).2.2
    cases himm : f.isImmediateStore with
    | true =>
      have hnarrow : f.isNarrowStore = false :=
        Bool.eq_false_iff.mpr fun h => by simp [isImmediateStore_of_isNarrowStore h] at himm
      simp [hf, hnarrow, outcome_isNextStore_of_immediate hf himm]
    | false =>
      have hnext := outcome_isNextStore hf hgather.direction hform hstore himm
      have hnext' := outcome_isNextStore (s := s.sized f.storeSize) hf hgather.direction hform hstore himm
      cases hn : s.nextStore f with
      | false =>
        cases hnarrow : f.isNarrowStore <;> simp [hf, hnarrow, hload, hnext, hnext', hn, fresh]
      | true =>
        cases hnarrow : f.isNarrowStore with
        | false => simp [hf, hnarrow, hload, hnext, hn]
        | true =>
          have hadd := outcome_addStore (s := { s.sized f.storeSize with phase := .paired })
            hf hnow hs.notes.groups hnarrow hgather.direction rfl hst hn
          simp [hf, hnarrow, hnext, hn]
          refine Eq.trans hadd ?_
          show (if s.misjudges f = true then _ else Except.ok ((), s.withStore w id f)) = _
          split <;> rfl

theorem leadsTo_step_paired (hp : s.phase = .paired) :
    LeadsTo applyRules s (s.react w id f) := by
  obtain ⟨d, hgather, hst, hcount⟩ : s.InPhase .paired := hp ▸ hs.phase
  obtain ⟨size, hsize, hwidth⟩ := hgather.size
  have hlength : 2 ≤ s.notes.pending.length := by have := hgather.length; omega
  rw [Rule.leadsTo_step hp, react, hp]
  cases hload : f.isNarrowLoad with
  | false =>
    have hcomplete := outcome_isComplete hgather.direction hst hsize hwidth.pos
    have hfinish := outcome_finish (s := { s with phase := .idle }) hs.notes
      hlength (fun _ => hgather.load.takes_left) (fun _ => hst.takes_left)
    rw [bytes_eq hsize]
    cases hfull : s.full size with
    | true =>
      simp [hf, hload, hcomplete, hfull, hfinish]
      rfl
    | false =>
      simp [hf, hload, hcomplete, hfull]
      rfl
  | true =>
    have hpos := loadSize_pos hload
    have hnext := outcome_isNextLoad hf hgather.direction hgather.load hst hload
    have hcomplete := outcome_isComplete (s := s.sized f.loadSize) hgather.direction hst rfl hpos
    cases hfull : s.full f.loadSize with
    | true =>
      have hnext' := outcome_isNextLoad (s := s.sized f.loadSize) hf hgather.direction
        hgather.load hst hload
      cases hn : s.nextLoad f with
      | true => simp [hf, hload, hcomplete, hfull, hnext, hnext', hn]
      | false =>
        have hfinish := outcome_finish
          (s := { s with phase := .loaded, progress := (s.sized f.loadSize).progress })
          hs.notes hlength (fun _ => hgather.load.takes_left)
          (fun _ => hst.takes_left)
        have hbegin := fun g => outcome_addLoad_fresh (n := s.notes.finish g []) hf hnow (by simp)
        simp [hf, hload, hcomplete, hfull, hnext, hnext', hn, hfinish, hbegin]
        rfl
    | false =>
      cases hn : s.nextLoad f with
      | true =>
        have hfits : s.load.continues d false f.offset f.loadSize
            ((piecesOf f.loadSize - s.progress.count) * f.loadSize) = true := by
          rw [← heading_eq hgather.direction]
          exact Span.continues_of_full hn
        have hadd := outcome_addLoad
          (s := { s with phase := .loaded, progress := (s.sized f.loadSize).progress })
          hf hnow hs.notes.groups hload hgather.direction hgather.load rfl hfits
        simp [hf, hload, hcomplete, hfull, hnext, hn, hadd]
        rfl
      | false =>
        have hrestart := outcome_addLoad_fresh (n := s.notes.gather []) hf hnow (by simp) hload
        simp [hf, hload, hcomplete, hfull, hnext, hn, hrestart]

theorem leadsTo_step :
    LeadsTo applyRules s (s.react w id f) := by
  cases hp : s.phase with
  | idle => exact leadsTo_step_idle hf hnow hs hp
  | loaded => exact leadsTo_step_loaded hf hnow hs hp
  | paired => exact leadsTo_step_paired hf hnow hs hp

end

theorem leadsTo_read (hw : Proper w) (hs : s.Sound) :
    LeadsTo (read w id) s ((s.look w id).react w id (unpacked w)) :=
  leadsTo_step (Notes.look_fields hw) rfl (hs.look w id)

/-! ## The states that can be reached -/

theorem sound_fresh (hg : n.groups ≠ []) (hpending : n.pending = []) : (fresh n).Sound :=
  ⟨Notes.sound_of_empty hg hpending, rfl, hpending⟩

theorem sound_begun (hg : n.groups ≠ []) (hpending : n.pending = []) (hw : Proper w)
    (hload : (unpacked w).isNarrowLoad = true) : (begun n w id (unpacked w)).Sound := by
  have hwidth := isWidth_loadBytes? (loadBytes?_eq_loadSize hload)
  refine ⟨(Notes.sound_of_empty hg hpending).keep hw, .pending,
    ⟨rfl, ⟨_, rfl, hwidth⟩, Span.formed_start (Word.takes_offset hw), le_rfl, ?_⟩, rfl⟩
  show ((n.keep (.gathered w id)).pending.length : Int) = 1
  rw [Notes.keep_pending, hpending]
  rfl

theorem Sound.sized (hs : s.Sound) (hp : s.phase ≠ .idle) (hwidth : IsWidth size) :
    (s.sized size).Sound :=
  ⟨hs.notes, hs.phase.unseen hp rfl ⟨size, rfl, hwidth⟩⟩

section
variable (hs : s.Sound) (hw : Proper w) (hid : id ∉ s.notes.pending.ids)
include hs hw hid

theorem Sound.withStore (hp : s.phase = .loaded) (hstore : (unpacked w).isNarrowStore = true) :
    (s.withStore w id (unpacked w)).Sound := by
  obtain ⟨d, hgather, hst⟩ : s.InPhase .loaded := hp ▸ hs.phase
  have hwidth := isWidth_storeSize (isStore_of_isNarrowStore hstore)
    (isImmediateStore_of_isNarrowStore hstore)
  have hlength := hgather.length
  refine ⟨hs.notes.keep hw, d, ⟨hgather.direction, ⟨_, rfl, hwidth⟩, hgather.load, ?_, ?_⟩, ?_, ?_⟩
  · show 0 ≤ s.progress.count + 1
    omega
  · show ((s.notes.keep (.gathered w id)).pending.length : Int) = 2 * (s.progress.count + 1) + 0
    rw [Notes.keep_pending, Group.length_insert hid]
    omega
  · show (if s.heading = .pending then _ else _ : Span).Formed d
    rw [heading_eq hgather.direction]
    by_cases hpending : d = .pending
    · rw [if_pos hpending, hpending]
      exact Span.formed_start (Word.takes_offset hw)
    · rw [if_neg hpending] at hst ⊢
      have hpush := hst.push_formed (Word.takes_offset hw) (unpacked w).storeSize
      rwa [Span.push_heading _ hpending] at hpush
  · show 1 ≤ s.progress.count + 1
    omega

theorem Sound.withLoad (hp : s.phase = .paired) (hload : (unpacked w).isNarrowLoad = true) :
    (s.withLoad w id (unpacked w)).Sound := by
  obtain ⟨d, hgather, hst, hone⟩ : s.InPhase .paired := hp ▸ hs.phase
  have hwidth := isWidth_loadBytes? (loadBytes?_eq_loadSize hload)
  have hlength := hgather.length
  obtain rfl := heading_eq hgather.direction
  have hpush := hgather.load.push_formed (Word.takes_offset hw) (unpacked w).loadSize
  have hdecided := s.load.push_heading_ne s.heading (unpacked w).offset (unpacked w).loadSize
  refine ⟨hs.notes.keep hw, _, ⟨rfl, ⟨_, rfl, hwidth⟩, hpush, hgather.count, ?_⟩, ?_⟩
  · show ((s.notes.keep (.gathered w id)).pending.length : Int) = 2 * s.progress.count + 1
    rw [Notes.keep_pending, Group.length_insert hid]
    omega
  · rw [if_neg hdecided]
    show (if _ then _ else _ : Span).Formed _
    cases hheading : s.heading with
    | pending =>
      rw [hheading] at hst hdecided
      cases hturn : (s.load.push .pending (unpacked w).offset (unpacked w).loadSize).1 with
      | pending => exact absurd hturn hdecided
      | forward => exact hst.turnForward_formed
      | backward => exact hst.turnBackward_formed
    | forward | backward =>
      rwa [if_neg (by simp), Span.push_heading _ (by decide), ← hheading]

end

/-- Everything that reading an instruction can do. -/
inductive Move (s : CopyPairs) (w : Word) (id : Int) (f : Fields) : CopyPairs → Prop
  | rest (hp : s.phase = .idle) : Move s w id f s
  | first (hp : s.phase = .idle) (hload : f.isNarrowLoad = true) :
      Move s w id f (begun s.notes w id f)
  | note {size : Int} (hp : s.phase ≠ .idle) (hwidth : IsWidth size)
      (hstore : s.phase = .loaded → f.isStore = true) : Move s w id f (s.sized size)
  | giveUp : Move s w id f (fresh (s.notes.gather []))
  | startOver (hload : f.isNarrowLoad = true) : Move s w id f (begun (s.notes.gather []) w id f)
  | store (hp : s.phase = .loaded) (hstore : f.isNarrowStore = true)
      (hnext : s.nextStore f = true) (hfit : s.misjudges f = false) :
      Move s w id f (s.withStore w id f)
  | load (hp : s.phase = .paired) (hload : f.isNarrowLoad = true)
      (hopen : s.full f.loadSize = false) (hnext : s.nextLoad f = true) :
      Move s w id f (s.withLoad w id f)
  | finish {size : Int} {g : Group} (hp : s.phase = .paired) (hwidth : IsWidth size)
      (hfull : s.full size = true) (hg : s.finished = .ok g) :
      Move s w id f (fresh (s.notes.finish g []))
  | finishFirst {size : Int} {g : Group} (hp : s.phase = .paired) (hwidth : IsWidth size)
      (hfull : s.full size = true) (hg : s.finished = .ok g) (hload : f.isNarrowLoad = true) :
      Move s w id f (begun (s.notes.finish g []) w id f)

theorem move_of_react (hs : s.Sound) (h : s.react w id f = .ok t) : Move s w id f t := by
  unfold react at h
  cases hp : s.phase with
  | idle =>
    simp only [hp, Except.ok.injEq] at h
    split at h
    · next hload => exact h ▸ .first hp hload
    · exact h ▸ .rest hp
  | loaded =>
    have hactive : s.phase ≠ .idle := by rw [hp]; decide
    simp only [hp] at h
    split at h
    · next hstore =>
      split at h
      · cases h
      next himm =>
      have hsize := isWidth_storeSize hstore (Bool.eq_false_iff.mpr himm)
      split at h
      · next hnext =>
        split at h
        · next hnarrow =>
          split at h
          · cases h
          · next hfit =>
            cases h
            exact .store hp hnarrow hnext (Bool.eq_false_iff.mpr hfit)
        · exact Except.ok.inj h ▸ .note hactive hsize fun _ => hstore
      · exact Except.ok.inj h ▸ .giveUp
    · split at h
      · next hload => exact Except.ok.inj h ▸ .startOver hload
      · exact Except.ok.inj h ▸ .giveUp
  | paired =>
    have hactive : s.phase ≠ .idle := by rw [hp]; decide
    simp only [hp] at h
    split at h
    · next hload =>
      have hwidth := isWidth_loadBytes? (loadBytes?_eq_loadSize hload)
      split at h
      · next hfull =>
        split at h
        · exact Except.ok.inj h ▸ .note hactive hwidth (by rw [hp]; exact nofun)
        · obtain ⟨g, hg, h⟩ := bind_eq_ok.mp h
          exact Except.ok.inj h ▸ .finishFirst hp hwidth hfull hg hload
      · next hopen =>
        split at h
        · next hnext =>
          exact Except.ok.inj h ▸ .load hp hload (Bool.eq_false_iff.mpr hopen) hnext
        · exact Except.ok.inj h ▸ .startOver hload
    · split at h
      · next hfull =>
        obtain ⟨g, hg, h⟩ := bind_eq_ok.mp h
        obtain ⟨d, hgather, -⟩ : s.InPhase .paired := hp ▸ hs.phase
        obtain ⟨size, hsize, hwidth⟩ := hgather.size
        exact Except.ok.inj h ▸ .finish hp (bytes_eq hsize ▸ hwidth) hfull hg
      · exact Except.ok.inj h ▸ .giveUp

theorem Move.sound (h : Move s w id (unpacked w) t) (hs : s.Sound) (hw : Proper w)
    (hid : id ∉ s.notes.pending.ids) : t.Sound := by
  cases h with
  | rest => exact hs
  | first hp hload =>
    obtain ⟨-, hempty⟩ : s.InPhase .idle := hp ▸ hs.phase
    exact sound_begun hs.notes.groups hempty hw hload
  | note hp hwidth => exact hs.sized hp hwidth
  | giveUp => exact sound_fresh (by simp) (by simp)
  | startOver hload => exact sound_begun (by simp) (by simp) hw hload
  | store hp hstore => exact hs.withStore hw hid hp hstore
  | load hp hload => exact hs.withLoad hw hid hp hload
  | finish => exact sound_fresh (by simp) (by simp)
  | finishFirst _ _ _ _ hload => exact sound_begun (by simp) (by simp) hw hload

theorem runs_read (hs : s.Sound) (hw : Proper w) (h : Runs (read w id) s () t) :
    Move (s.look w id) w id (unpacked w) t :=
  move_of_react (hs.look w id) ((leadsTo_read hw hs).eq_ok h)

theorem sound_init : Sound {} := sound_fresh (by decide) rfl

end BpfLanes.Peephole.CopyPairs
