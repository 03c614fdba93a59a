import BpfLanes.Proofs.SpanForms
import BpfLanes.Proofs.WideAccesses

/-! # Steps of the recogniser of batched copies

What reading one instruction does to the recogniser of batched copies, phase by
phase (`react`), in the states that it can be in (`Sound`). Where a copy is taken
to be whole, the registers of its pieces are looked up by offset, and a piece that
is not where it is looked for is a fault.
-/

namespace BpfLanes.Peephole.CopyBatch

open Fields
open Word (Proper unpacked)

variable {t : CopyBatch} {e : Entry} {n : Notes} {p : Progress}

variable {low high : Int}

variable {s : CopyBatch} {w : Word} {id : Int} {f : Fields} {d : Direction} {size : Int}

/-! ## Looking up pieces -/

/-- The offsets of the pieces of six bytes from `low` on. -/
def steps (low size : Int) : List Int :=
  (List.range ((6 + size - 1) / size).toNat).map fun (k : Nat) => low + k * size

theorem offsets_eq (hhigh : high - low = 6) (hpos : 0 < size) :
    offsets (some low) (some high) (some size) = .ok (steps low size) := by
  unfold offsets steps need
  simp only [ok_bind]
  rw [if_neg (by omega), if_neg (by omega), hhigh]
  rfl

/-- Whether the registers recorded for the pieces are those of the loads, in order. -/
def matching (area order : List (Int × Int)) : List (Int × Nat) → Except Fault Bool
  | [] => .ok true
  | (offset, i) :: rest => recorded area offset >>= fun stored =>
    recorded order i >>= fun loaded =>
      if stored = loaded then matching area order rest else .ok false

theorem inOrder_eq (hhigh : high - low = 6) (hpos : 0 < size) (hsize : s.progress.size = some
    size) :
    s.inOrder (some low) (some high) = matching s.area s.order (steps low size).zipIdx := by
  unfold inOrder
  rw [hsize, offsets_eq hhigh hpos, ok_bind]
  generalize (steps low size).zipIdx = xs
  induction xs with
  | nil => rfl
  | cons x xs ih =>
    obtain ⟨offset, i⟩ := x
    unfold matching
    cases hstored : recorded s.area offset with
    | error e => simp [hstored]
    | ok stored =>
      cases hloaded : recorded s.order i with
      | error e => simp [hstored, hloaded]
      | ok loaded =>
        by_cases h : stored = loaded
        · simpa [hstored, hloaded, h] using ih
        · simp [hstored, hloaded, h]

/-! ## Tests -/

/-- The size of the last access that was tested is noted. -/
def sized (s : CopyBatch) (size : Int) : CopyBatch :=
  { s with progress := { s.progress with size := some size } }

/-- The direction of the copy, which is pending until it is known. -/
def heading (s : CopyBatch) : Direction := s.progress.direction.getD .pending

/-- The size that is noted, or 0. -/
def bytes (s : CopyBatch) : Int := s.progress.size.getD 0

/-- All six bytes have been loaded, in pieces of a size. -/
def loadsFull (s : CopyBatch) (size : Int) : Bool :=
  s.load.isFull s.heading s.progress.count size

/-- Whether a load fits the pieces that were loaded. -/
def nextLoad (s : CopyBatch) (f : Fields) : Bool :=
  s.load.continues s.heading (s.loadsFull f.loadSize) f.offset f.loadSize
    ((piecesOf f.loadSize - s.progress.count) * f.loadSize)

/-- Whether an instruction reads or writes a register that holds a piece. -/
def touches (s : CopyBatch) (f : Fields) : Bool :=
  f.inputs.any s.registers.contains || f.output?.any s.registers.contains

/-- The loads have but one run, and it is not the one that the direction of the stores
    asks for. -/
def crossed (s : CopyBatch) (d : Direction) : Bool :=
  match d with
  | .pending => false
  | .forward => s.load.leftLow.isSome && s.load.rightHigh.isNone
  | .backward => s.load.rightLow.isSome && s.load.leftLow.isNone

/-- Whether a store passes for the next one. When as many pieces were stored as there
    are, the loads are asked whether they are complete in the direction of the stores. -/
def nextStore (s : CopyBatch) (f : Fields) : Except Fault Bool :=
  if s.registers.contains f.src then
    match s.progress.direction with
    | none => .ok true
    | some d =>
      let last := s.progress.count == piecesOf f.storeSize
      let reach := piecesOf f.storeSize - s.progress.count * f.storeSize
      if last && s.crossed d && !s.store.continues d true f.offset f.storeSize reach then
        .error .missingNumber
      else .ok (s.store.continues d last f.offset f.storeSize reach)
  else .ok false

/-- Whether all six bytes have been stored, in pieces of a size and in the order of the
    loads. -/
def storesFull (s : CopyBatch) (size : Int) : Except Fault Bool :=
  if s.progress.count = piecesOf size ∧ s.heading ≠ .pending then
    match s.store.outer? with
    | some (low, _) => matching s.area s.order (steps low size).zipIdx
    | none => .ok false
  else .ok false

theorem storesFull_eq_true :
    s.storesFull size = .ok true ↔ s.progress.count = piecesOf size ∧ s.heading ≠ .pending ∧
      ∃ low high, s.store.outer? = some (low, high) ∧
        matching s.area s.order (steps low size).zipIdx = .ok true := by
  unfold storesFull
  by_cases hwhole : s.progress.count = piecesOf size ∧ s.heading ≠ .pending
  · rw [if_pos hwhole]
    rcases s.store.outer? with _ | ⟨low, high⟩ <;> simp [hwhole]
  · rw [if_neg hwhole]
    constructor
    · intro h
      cases h
    · rintro ⟨hcount, hheading, -⟩
      exact absurd ⟨hcount, hheading⟩ hwhole

theorem bytes_eq (hsize : s.progress.size = some size) : s.bytes = size := by
  rw [bytes, hsize, Option.getD_some]

theorem heading_eq (hd : s.progress.direction = some d) : s.heading = d := by
  rw [heading, hd, Option.getD_some]

section
variable (s) (f) (size size' : Int)

/-! The size that was noted plays no part in the tests. -/

@[simp] theorem sized_sized : (s.sized size).sized size' = s.sized size' := rfl

@[simp] theorem sized_load : (s.sized size).load = s.load := rfl

@[simp] theorem sized_store : (s.sized size).store = s.store := rfl

@[simp] theorem sized_notes : (s.sized size).notes = s.notes := rfl

@[simp] theorem sized_registers : (s.sized size).registers = s.registers := rfl

@[simp] theorem sized_area : (s.sized size).area = s.area := rfl

@[simp] theorem sized_order : (s.sized size).order = s.order := rfl

@[simp] theorem sized_loadsFull : (s.sized size).loadsFull size' = s.loadsFull size' := rfl

@[simp] theorem sized_nextLoad : (s.sized size).nextLoad f = s.nextLoad f := rfl

@[simp] theorem sized_nextStore : (s.sized size).nextStore f = s.nextStore f := rfl

@[simp] theorem sized_storesFull : (s.sized size).storesFull size' = s.storesFull size' := rfl

end

/-- Loads that are complete, whatever the direction of the stores. -/
structure Loaded (s : CopyBatch) (d : Direction) (low high : Int) : Prop where
  load : s.load.Formed d
  decided : d ≠ .pending
  outer : s.load.outer? = some (low, high)

theorem Loaded.complete_eq {dl : Direction} (h : s.Loaded dl low high) (hd : p.direction = some d)
    (hne : d ≠ .pending) (hsize : p.size = some size) (hpos : 0 <
    size) : s.load.complete p =
      if p.count == piecesOf size then
        if s.crossed d then .error .missingNumber else .ok true
      else .ok false := by
  obtain ⟨hload, -, houter⟩ := h
  have hsix := Span.outer?_length houter
  unfold Span.complete Span.bounds? crossed
  rw [hsize, pieces_eq hpos, hd]
  simp only [ok_bind]
  by_cases hcount : p.count = piecesOf size
  · generalize s.load = l at hload houter
    cases d with
    | pending => exact absurd rfl hne
    | forward => cases hload <;> simp_all [sixApart, need, Span.outer?]
    | backward => cases hload <;> simp_all [sixApart, need, Span.outer?]
  · simp [hcount]

section
variable (hf : s.notes.fields = .ok f)
include hf

attribute [local simp] fields isLoad isStore

theorem outcome_touchesRegisters : outcome touchesRegisters s = .ok (s.touches f, s) := by
  simp [touchesRegisters, touches, hf]

theorem outcome_isNextLoad (hd : s.progress.direction = some d) (hl : s.load.Formed d)
    (hload : f.loadBytes? = some f.loadSize) :
    outcome isNextLoad s = .ok (s.nextLoad f, s.sized f.loadSize) := by
  have hpos := loadBytes?_pos hload
  obtain ⟨bits, hbits, _⟩ := Option.map_eq_some_iff.mp hload
  have hcomplete := hl.complete_eq (p := (s.sized f.loadSize).progress) hd rfl hpos
  simp only [sized, hd] at hcomplete
  unfold isNextLoad setSize nextLoad loadsFull sized
  rw [heading_eq hd]
  simp only [fields, outcome_bind, ok_bind, outcome_get, outcome_ite, outcome_lift, hf, hd,
    isLoad_of_loadBits? hbits, bytesOfBits_load, hload]
  cases d with
  | pending => simp [need, hd, Span.continues]
  | forward =>
    simp [need, hd, hcomplete, hl.continuesForward_eq hpos _
      ((piecesOf f.loadSize - s.progress.count) * f.loadSize)]
  | backward => simp [need, hd, hcomplete, pieces_eq hpos, hl.continuesBackward_eq]

theorem outcome_isNextLoad_of_sizeless (hload : f.isLoad = true) (hbytes : f.loadBytes? = none)
    (hd : s.progress.direction = some d) :
    outcome isNextLoad s = .error .missingNumber := by
  unfold isNextLoad
  simp [hf, hload, hd, bytesOfBits_load, hbytes, need]

theorem outcome_isNextLoad_of_not (hload : f.isLoad = false) :
    outcome isNextLoad s = .ok (false, s) := by
  simp [isNextLoad, hf, hload]

/-- The first store is only asked for its register. -/
theorem outcome_isNextStore (hstore : f.isNarrowStore = true)
    (hst : ∀ d, s.progress.direction = some d →
      (∃ dl low high, s.Loaded dl low high) ∧ s.store.Formed d) :
    outcome isNextStore s = (s.nextStore f >>= fun b => .ok (b, s.sized f.storeSize)) := by
  obtain ⟨bits, hbits, -⟩ := storeBits?_of_isNarrowStore hstore
  obtain ⟨hbytes, hpos⟩ := storeBytes?_eq_storeSize (isStore_of_isNarrowStore hstore)
    (isImmediateStore_of_isNarrowStore hstore)
  unfold isNextStore setSize nextStore sized
  simp only [fields, outcome_bind, ok_bind, outcome_get, outcome_ite, outcome_lift, hf,
    isStore_of_isNarrowStore hstore, bytesOfBits_store, hbytes,
    inputs_of_storeBits? hbits, Position.get_first]
  cases hreg : s.registers.contains f.src with
  | false => simp_all [need]
  | true =>
    have hmem : f.src ∈ s.registers := by simpa using hreg
    rcases hd : s.progress.direction with _ | d
    · simp_all [need]
    obtain ⟨⟨dl, low, high, hl⟩, hst⟩ := hst d hd
    cases d with
    | pending => simp_all [need, crossed, Span.continues]
    | forward =>
      have hcomplete := hl.complete_eq (p := (s.sized f.storeSize).progress) hd (by decide) rfl hpos
      simp only [sized, hd] at hcomplete
      generalize piecesOf f.storeSize - s.progress.count * f.storeSize = reach
      cases hlast : s.progress.count == piecesOf f.storeSize <;>
        cases hcross : s.crossed .forward <;>
        cases hadjoins : s.store.continues .forward true f.offset f.storeSize reach <;>
        simp [need, hd, hmem, hcomplete, hlast, hcross, hadjoins,
          hst.continuesForward_eq hpos _ reach, Span.Formed.continuesForward_error _ reach]
    | backward =>
      have hcomplete := hl.complete_eq (p := (s.sized f.storeSize).progress) hd (by decide) rfl hpos
      simp only [sized, hd] at hcomplete
      cases hlast : s.progress.count == piecesOf f.storeSize <;>
        cases hcross : s.crossed .backward <;>
        cases hadjoins : s.store.continues .backward true f.offset f.storeSize
          (piecesOf f.storeSize - s.progress.count * f.storeSize) <;>
        simp [need, hd, hmem, hcomplete, hlast, hcross, hadjoins, pieces_eq hpos,
          hst.continuesBackward_eq, Span.Formed.continuesBackward_error]

end

theorem outcome_isLoadComplete (hd : s.progress.direction = some d) (hl : s.load.Formed d)
    (hsize : s.progress.size = some size) (hpos : 0 < size) :
    outcome isLoadComplete s = .ok (s.loadsFull size, s) := by
  unfold isLoadComplete loadsFull
  rw [heading_eq hd]
  simp [hl.complete_eq hd hsize hpos]

theorem outcome_isStoreComplete (hd : s.progress.direction = some d) (hst : s.store.Formed d)
    (hsize : s.progress.size = some size) (hpos : 0 < size) :
    outcome isStoreComplete s = (s.storesFull size >>= fun b => .ok (b, s)) := by
  unfold isStoreComplete storesFull
  rw [heading_eq hd]
  simp only [outcome_bind, outcome_get, ok_bind, outcome_lift, hst.bounds?_eq hd hsize hpos]
  by_cases hwhole : s.progress.count = piecesOf size ∧ d ≠ .pending
  · rw [if_pos hwhole, if_pos hwhole]
    cases houter : s.store.outer? with
    | none => simp
    | some bounds => simp [inOrder_eq (Span.outer?_length houter) hpos hsize]
  · rw [if_neg hwhole, if_neg hwhole]
    simp

/-! ## Actions -/

/-- Nothing is being copied. -/
def fresh (n : Notes) : CopyBatch := { notes := n }

/-- A load begins a copy. -/
def begun (n : Notes) (w : Word) (id : Int) (f : Fields) : CopyBatch :=
  { phase := .loading
    load := Span.start {} f.offset f.loadSize
    progress := { direction := some .pending, count := 1, size := some f.loadSize }
    registers := [f.dst]
    area := [(f.offset, f.dst)]
    notes := n.keep (.gathered w id) }

/-- One more piece is loaded. -/
def withLoad (s : CopyBatch) (w : Word) (id : Int) (f : Fields) : CopyBatch :=
  let next := s.load.push s.heading f.offset f.loadSize
  { s with
    phase := .loading
    load := next.2
    progress :=
      { direction := some next.1, count := s.progress.count + 1, size := some f.loadSize }
    registers := if s.registers.contains f.dst then s.registers else s.registers ++ [f.dst]
    area := record s.area f.offset f.dst
    notes := s.notes.keep (.gathered w id) }

/-- The span of the stores with one more piece. -/
def pushStore (s : CopyBatch) (offset size : Int) : Direction × Span :=
  match s.progress.direction with
  | none => (.pending, s.store.start offset size)
  | some d => s.store.push d offset size

/-- One more piece is stored. -/
def withStore (s : CopyBatch) (w : Word) (id : Int) (f : Fields) : CopyBatch :=
  let next := s.pushStore f.offset f.storeSize
  { s with
    phase := .storing
    store := next.2
    progress :=
      { direction := some next.1, count := s.progress.count + 1, size := some f.storeSize }
    area := record s.area f.offset f.src
    notes := s.notes.keep (.gathered w id) }

/-- A store that passes the test though it does not fit to the pieces stored. -/
def misjudges (s : CopyBatch) (f : Fields) : Bool :=
  s.progress.direction == some .backward &&
    !s.store.continues .backward false f.offset f.storeSize
      ((piecesOf f.storeSize - s.progress.count) * f.storeSize)

theorem continues_of_nextStore (hd : s.progress.direction = some d)
    (h : s.nextStore f = .ok true) :
    s.store.continues d false f.offset f.storeSize
      (piecesOf f.storeSize - s.progress.count * f.storeSize) = true := by
  unfold nextStore at h
  rw [hd] at h
  dsimp only at h
  split at h
  · split at h
    · cases h
    · exact Span.continues_of_full (Except.ok.inj h)
  · cases h

theorem extended_eq {span : Span} (hd : p.direction = some d) (hform : span.Formed d)
    (hpos : 0 < size) (offset : Int) (refusal : String) : extended span p offset size refusal =
      if span.continues d false offset size ((piecesOf size - p.count) * size) then
        .ok (span.push d offset size)
      else .error (.violated (if d = .pending then loadRefusal else refusal)) := by
  unfold extended
  rw [hd]
  cases d with
  | pending => exact Span.Formed.second_eq span offset size loadRefusal
  | forward =>
    have hsame := span.push_heading (by decide : Direction.forward ≠ .pending) offset size
    simp only [hform.extendForward_eq hpos offset ((piecesOf size - p.count) * size) refusal]
    split <;> simp [Prod.ext_iff, hsame]
  | backward =>
    have hsame := span.push_heading (by decide : Direction.backward ≠ .pending) offset size
    simp only [hform.extendBackward_eq hpos offset p.count refusal]
    split <;> simp [Prod.ext_iff, hsame]

theorem outcome_keep (hnow : s.notes.now = .ok (w, id)) (hg : s.notes.groups ≠ []) :
    outcome keep s = .ok ((), { s with notes := s.notes.keep (.gathered w id) }) := by
  unfold keep
  simp only [outcome_bind, outcome_get, ok_bind, outcome_lift, hnow, Notes.put_eq hg, outcome_set]
  rfl

theorem outcome_addLoad_fresh (hf : n.fields = .ok f) (hnow : n.now = .ok (w, id))
    (hg : n.groups ≠ []) (hload : f.isNarrowLoad = true) :
    outcome addLoad { phase := .loading, notes := n } = .ok ((), begun n w id f) := by
  obtain ⟨bits, hbits, hsize⟩ :=
    Option.map_eq_some_iff.mp (loadBytes?_eq_loadSize hload)
  have hkeep := fun load progress =>
    outcome_keep (s := { phase := .loading, load, progress, notes := n }) hnow hg
  unfold addLoad agreeSize extended setSize countPiece
  simp [fields, hf, hbits, hsize, hkeep, begun, record]

section
variable (hf : s.notes.fields = .ok f) (hnow : s.notes.now = .ok (w, id))
  (hg : s.notes.groups ≠ [])
include hf hnow hg

theorem outcome_addLoad (hload : f.loadBytes? = some f.loadSize)
    (hd : s.progress.direction = some d) (hl : s.load.Formed d)
    (hsize : s.progress.size = some f.loadSize)
    (hfits : s.load.continues d false f.offset f.loadSize
      ((piecesOf f.loadSize - s.progress.count) * f.loadSize) = true) :
    outcome addLoad s = .ok ((), { s.withLoad w id f with phase := s.phase }) := by
  obtain ⟨bits, hbits, hbytes⟩ := Option.map_eq_some_iff.mp hload
  have hpos := loadBytes?_pos hload
  have hkeep := fun load progress =>
    outcome_keep (s := { s with load, progress }) hnow hg
  have hextended := extended_eq hd hl hpos f.offset loadRefusal
  rw [if_pos hfits] at hextended
  unfold addLoad agreeSize withLoad countPiece
  rw [heading_eq hd]
  simp [fields, hf, hbits, hbytes, hsize, hkeep, require, hextended]

theorem outcome_addStore (hstore : f.isNarrowStore = true)
    (hsize : s.progress.size = some f.storeSize)
    (hst : ∀ d, s.progress.direction = some d → s.store.Formed d)
    (hfits : s.nextStore f = .ok true) :
    outcome addStore s =
      if s.misjudges f then .error (.violated storeRefusal)
      else .ok ((), { s.withStore w id f with phase := s.phase }) := by
  obtain ⟨bits, hbits, hbytes⟩ := storeBits?_of_isNarrowStore hstore
  have hpos := storeSize_pos hstore
  have hkeep := fun store progress =>
    outcome_keep (s := { s with store, progress }) hnow hg
  have hextended : extended s.store s.progress f.offset f.storeSize storeRefusal =
      if s.misjudges f then .error (.violated storeRefusal)
      else .ok (s.pushStore f.offset f.storeSize) := by
    unfold misjudges pushStore
    cases hd : s.progress.direction with
    | none => simp [extended, hd]
    | some d =>
      have hpass := continues_of_nextStore hd hfits
      rw [extended_eq hd (hst d hd) hpos]
      cases d with
      | pending => exact if_pos hpass
      | forward => exact if_pos hpass
      | backward =>
        cases s.store.continues .backward false f.offset f.storeSize
          ((piecesOf f.storeSize - s.progress.count) * f.storeSize) <;> rfl
  unfold addStore agreeSize withStore countPiece
  cases hmis : s.misjudges f <;>
    simp [fields, hf, hbits, hbytes, hsize, hkeep, require, hextended, hmis,
      inputs_of_storeBits? hbits, Position.get_first]

end

/-! ## Between loads and stores -/

/-- Registers recorded under their numbers, from `k` on. -/
def numbered (registers : List Int) (k : Nat) : List (Int × Int) :=
  (registers.zipIdx k).map fun x => ((x.2 : Int), x.1)

theorem record_of_lt {m : List (Int × Int)} {k v : Int} (h : ∀ e ∈ m, e.1 < k) :
    record m k v = m ++ [(k, v)] := by
  unfold record
  rw [List.filter_eq_self.mpr]
  intro e he
  have := h e he
  simp only [bne_iff_ne, ne_eq]
  omega

theorem outcome_recordAll (area : List (Int × Int)) (xs : List Int) (k : Nat) (t : CopyBatch)
    (h : ∀ e ∈ t.order, e.1 < (k : Int)) :
    outcome ((xs.zipIdx k).forM fun (offset, i) => do
        let register ← recorded area offset
        modify fun s : CopyBatch => { s with order := record s.order i register }) t =
      (xs.mapM (recorded area) >>= fun registers =>
        .ok ((), { t with order := t.order ++ numbered registers k })) := by
  induction xs generalizing k t with
  | nil => simp [numbered]
  | cons x xs ih =>
    rw [List.zipIdx_cons, List.forM_eq_forM, List.forM_cons, List.mapM_cons]
    cases hx : recorded area x with
    | error e => simp [hx]
    | ok register =>
      have hnext := ih (k + 1) { t with order := t.order ++ [((k : Int), register)] }
        (List.forall_mem_append.mpr ⟨fun e he => by have := h e he; omega,
          List.forall_mem_singleton.mpr (by dsimp only; omega)⟩)
      rw [List.forM_eq_forM] at hnext
      simp only [outcome_bind, outcome_lift, hx, ok_bind, outcome_modify, record_of_lt h, hnext]
      cases xs.mapM (recorded area) with
      | error e => rfl
      | ok registers => simp [numbered]

/-- The copy when all pieces are loaded: which register holds which piece is noted. -/
def settled (s : CopyBatch) (size : Int) : Except Fault CopyBatch :=
  match s.load.outer? with
  | some (low, _) => (steps low size).mapM (recorded s.area) >>= fun registers =>
    .ok { s with
      phase := .loaded
      area := []
      order := numbered registers 0
      progress := { size := some size } }
  | none => .ok s

theorem outcome_finishLoads (hd : s.progress.direction = some d) (hl : s.load.Formed d)
    (hne : d ≠ .pending) (houter : s.load.outer? = some (low, high))
    (hsize : s.progress.size = some size) (hpos : 0 < size) (horder : s.order = []) :
    outcome finishLoads s =
      ((steps low size).mapM (recorded s.area) >>= fun registers =>
        .ok ((), { s with order := numbered registers 0 })) := by
  have hrecord := outcome_recordAll s.area (steps low size) 0 s (by simp [horder])
  rw [horder] at hrecord
  have hoffsets := offsets_eq (Span.outer?_length houter) hpos
  unfold finishLoads
  simp only [outcome_bind, outcome_get, ok_bind]
  rw [hd]
  cases d with
  | pending => exact absurd rfl hne
  | forward =>
    dsimp only
    rw [hl.outer_forward houter, hsize]
    simpa [hoffsets] using hrecord
  | backward =>
    dsimp only
    rw [hl.outer_backward houter, hsize]
    simpa [hoffsets] using hrecord

/-! ## Finishing a copy -/

/-- What becomes of an instruction of a finished copy whose load of six bytes sets a
    register: a store of that register carries the store of six bytes. -/
def fuseStore (start register : Int) (e : Entry) : Entry :=
  if (unpacked e.word).isStore && (unpacked e.word).src == register then
    e.wideStore start (unpacked e.word)
  else .nop e.id

/-- A group with one load and one store of six bytes. -/
def fuse (low start : Int) : Group → Group
  | e :: rest => e.wideLoad low :: rest.map (fuseStore start (unpacked e.word).dst)
  | [] => []

/-- What a finished group asks for. -/
def finished (s : CopyBatch) : Group :=
  fuse ((s.load.leftLow.or s.load.rightLow).getD 0) ((s.store.leftLow.or s.store.rightLow).getD 0)
    s.notes.pending

/-- All stores of a group are narrow ones. -/
def NarrowStores (g : Group) : Prop :=
  ∀ e ∈ g, (unpacked e.word).isStore = true → (unpacked e.word).isNarrowStore = true

theorem outcome_put_replace {a b : Group} {x : Entry} (hid : e.id = x.id)
    (h : Group.ids (a ++ x :: b) |>.Pairwise (· < ·)) :
    outcome (put e) { s with notes := s.notes.gather (a ++ x :: b) } =
      .ok ((), { s with notes := s.notes.gather (a ++ e :: b) }) := by
  unfold put
  simp [Notes.put_replace hid h]

theorem fuseStore_id (start register : Int) (e : Entry) : (fuseStore start register e).id = e.id := by
  unfold fuseStore
  split <;> rfl

theorem outcome_finish (hn : s.notes.Sound) (hne : s.notes.pending ≠ [])
    (hstores : NarrowStores s.notes.pending) {start : Int}
    (hlow : s.load.leftLow.or s.load.rightLow = some low) (hlowTakes : Field.offset.Takes low)
    (hstart : s.store.leftLow.or s.store.rightLow = some start)
    (hstartTakes : Field.offset.Takes start) :
    outcome finish s = .ok ((), { s with notes := s.notes.gather s.finished }) := by
  obtain ⟨e₁, rest, hgroup⟩ := List.exists_cons_of_ne_nil hne
  have hsame : s = { s with notes := s.notes.gather (e₁ :: rest) } := by
    rw [← hgroup, Notes.gather, ← Notes.groups_eq hn.groups]
  have hload := hn.proper e₁ (by simp [hgroup])
  have hsorted := hn.sorted
  rw [hgroup] at hsorted
  obtain ⟨hset, hfields, hdecode, htext⟩ := wideLoad_spec hload hlowTakes
  have hdst : (unpacked (e₁.word.wideLoad low)).dst = (unpacked e₁.word).dst := by rw [hfields]
  have hfirst := outcome_put_replace (s := s) (a := []) (x := e₁) (e := e₁.wideLoad low) rfl
    hsorted
  rw [List.nil_append, ← hsame] at hfirst
  unfold finish finished
  simp only [outcome_bind, outcome_get, ok_bind, outcome_lift, Notes.last_eq hn.groups, hgroup,
    Position.get_first, hlow, hstart, lowest, hset, hdecode, htext, hdst, Option.getD_some]
  show (outcome (put (e₁.wideLoad low)) s >>= fun x => _) = _
  rw [hfirst, ok_bind]
  refine outcome_forM_replace _ (fun g => { s with notes := s.notes.gather g })
    (fuseStore start (unpacked e₁.word).dst) (fuseStore_id start _) [e₁.wideLoad low] ?_ hsorted
  -- one entry: a narrow store of the register is widened, anything else is dropped
  intro e he a b h
  have hproper := hn.proper e (by simp [hgroup, he])
  unfold fuseStore
  simp only [outcome_bind, outcome_lift, Word.decode_proper hproper, ok_bind]
  cases hstore : (unpacked e.word).isStore with
  | false => simpa [hstore] using outcome_put_replace (x := e) (e := .nop e.id) rfl h
  | true =>
    have hnarrow := hstores e (by simp [hgroup, he]) hstore
    obtain ⟨bits, hbits, -⟩ := storeBits?_of_isNarrowStore hnarrow
    have hinputs := inputs_of_storeBits? hbits
    obtain ⟨hset, -⟩ := wideStore_spec hproper hstartTakes
    by_cases hsrc : (unpacked e.word).src = (unpacked e₁.word).dst
    · simp only [hinputs, hsrc, hset, storeText_eq hinputs, List.head?_cons, beq_self_eq_true,
        Bool.and_self, if_true, outcome_bind, outcome_lift, ok_bind]
      exact outcome_put_replace (x := e) (e := e.wideStore start (unpacked e.word)) rfl h
    · simpa [hinputs, hsrc] using outcome_put_replace (x := e) (e := .nop e.id) rfl h

/-! ## One instruction -/

/-- The next instruction is looked at. -/
def look (s : CopyBatch) (w : Word) (id : Int) : CopyBatch :=
  { s with notes := s.notes.look w id }

/-- The notes when no store is to come: a full copy is finished, any other is given up. -/
def close (s : CopyBatch) (full : Bool) : Notes :=
  if full then s.notes.finish s.finished [] else s.notes.gather []

/-- What reading an instruction does, phase by phase. -/
def react (s : CopyBatch) (w : Word) (id : Int) (f : Fields) : Except Fault CopyBatch :=
  match s.phase with
  | .idle => .ok (if f.isNarrowLoad then begun s.notes w id f else s)
  | .loading =>
    if f.isNarrowLoad then
      if s.nextLoad f then
        if s.loadsFull f.loadSize then s.settled f.loadSize else .ok (s.withLoad w id f)
      else .ok (begun (s.notes.gather []) w id f)
    else if s.loadsFull s.bytes then
      if f.isLoad then
        if f.loadBytes?.isNone then .error .missingNumber
        else if s.loadsFull f.loadSize then s.settled f.loadSize
        else .ok (if s.nextLoad f then s.withLoad w id f else s.sized f.loadSize)
      else s.settled s.bytes
    else .ok (fresh (s.notes.gather []))
  | .loaded =>
    .ok (if s.touches f then
      if f.isNarrowLoad then begun (s.notes.gather []) w id f
      else if f.isNarrowStore then
        if s.registers.contains f.src then s.withStore w id f else s.sized f.storeSize
      else s
    else s)
  | .storing =>
    if f.isNarrowStore then
      s.nextStore f >>= fun next =>
        if next then
          if s.misjudges f then .error (.violated storeRefusal) else .ok (s.withStore w id f)
        else s.storesFull f.storeSize >>= fun full => .ok (fresh (s.close full))
    else s.storesFull s.bytes >>= fun full =>
      .ok (if f.isNarrowLoad then begun (s.close full) w id f else fresh (s.close full))

/-- What holds in each phase of the spans and of the directions. -/
def InPhase (s : CopyBatch) : Phase → Prop
  | .idle => s = fresh s.notes ∧ s.notes.pending = []
  | .loading => s.store = {} ∧ s.order = [] ∧ ∃ d, s.progress.direction = some d ∧ s.load.Formed d
  | .loaded => s.store = {} ∧ s.progress.direction = none ∧ ∃ d low high, s.Loaded d low high
  | .storing => (∃ d low high, s.Loaded d low high) ∧
    ∃ d, s.progress.direction = some d ∧ s.store.Formed d

/-- The states that the recogniser can be in. -/
structure Sound (s : CopyBatch) : Prop where
  notes : s.notes.Sound
  stores : NarrowStores s.notes.pending
  phase : s.InPhase s.phase
  active : s.phase ≠ .idle →
    s.notes.pending ≠ [] ∧ ∃ size, s.progress.size = some size ∧ 0 < size

theorem InPhase.unseen {p : Phase} (h : s.InPhase p) (hp : p ≠ .idle) (n : Notes)
    (size : Option Int) :
    InPhase { s with notes := n, progress := { s.progress with size := size } } p := by
  cases p with
  | idle => exact absurd rfl hp
  | loading => exact h
  | loaded =>
    obtain ⟨hst, hd, d, low, high, ⟨hload, hne, houter⟩⟩ := h
    exact ⟨hst, hd, d, low, high, hload, hne, houter⟩
  | storing =>
    obtain ⟨⟨d, low, high, ⟨hload, hne, houter⟩⟩, hst⟩ := h
    exact ⟨⟨d, low, high, hload, hne, houter⟩, hst⟩

theorem Sound.look (hs : s.Sound) (w : Word) (id : Int) : (s.look w id).Sound := by
  refine ⟨⟨hs.notes.groups, hs.notes.sorted, hs.notes.proper⟩, hs.stores, ?_, hs.active⟩
  by_cases hp : s.phase = .idle
  · obtain ⟨hfresh, hempty⟩ : s.InPhase .idle := hp ▸ hs.phase
    rw [show (s.look w id).phase = .idle from hp]
    exact ⟨congrArg (CopyBatch.look · w id) hfresh, hempty⟩
  · exact hs.phase.unseen hp _ s.progress.size

/-- The rules of the present phase, in their order. -/
abbrev applyRules : Step Unit := Rule.step phase (fun p s => { s with phase := p }) rules

section
variable (hf : s.notes.fields = .ok f) (hnow : s.notes.now = .ok (w, id))
  (hs : s.Sound)
include hf hnow hs

/-! The rules that start in a phase, worked out test by test. -/

attribute [local simp] rules fields isLoad isStore dropGroup openGroup reset

theorem leadsTo_step_idle (hp : s.phase = .idle) :
    LeadsTo applyRules s (s.react w id f) := by
  obtain ⟨hempty, -⟩ : s.InPhase .idle := hp ▸ hs.phase
  have hfresh : { s with phase := .loading } = { fresh s.notes with phase := .loading } := by
    rw [← hempty]
  have hadd := outcome_addLoad_fresh hf hnow hs.notes.groups
  rw [Rule.leadsTo_step hp, react, hp]
  cases hload : f.isNarrowLoad with
  | true => simp [hf, hload, hfresh, fresh, hadd]
  | false => simp [hf, hload]

omit hf hnow in
theorem outcome_settle (hp : s.phase = .loading) (hfull : s.loadsFull size = true)
    (hpos : 0 < size) :
    (outcome finishLoads { s with phase := .loaded, progress := (s.sized size).progress } >>=
      fun x => outcome beginStores x.2) = (s.settled size >>= fun t => .ok ((), t)) := by
  obtain ⟨-, horder, d, hd, hl⟩ : s.InPhase .loading := hp ▸ hs.phase
  unfold loadsFull at hfull
  rw [heading_eq hd, Span.isFull_iff] at hfull
  obtain ⟨-, hne, low, high, houter⟩ := hfull
  have hfinish := outcome_finishLoads
    (s := { s with phase := .loaded, progress := (s.sized size).progress }) hd hl hne houter rfl
    hpos horder
  unfold settled beginStores
  simp only [hfinish, houter]
  cases (steps low size).mapM (recorded s.area) <;> rfl

theorem leadsTo_step_loading (hp : s.phase = .loading) :
    LeadsTo applyRules s (s.react w id f) := by
  obtain ⟨-, -, d, hd, hl⟩ : s.InPhase .loading := hp ▸ hs.phase
  obtain ⟨-, size, hsize, hpos⟩ := hs.active (by rw [hp]; decide)
  rw [Rule.leadsTo_step hp, react, hp]
  -- a load with a size notes it, whether it is taken or not
  have hsized : ∀ (hload : f.loadBytes? = some f.loadSize),
      outcome isNextLoad s = .ok (s.nextLoad f, s.sized f.loadSize)
        ∧ outcome isNextLoad (s.sized f.loadSize) = .ok (s.nextLoad f, s.sized f.loadSize)
        ∧ outcome isLoadComplete (s.sized f.loadSize) =
            .ok (s.loadsFull f.loadSize, s.sized f.loadSize)
        ∧ (s.nextLoad f = true →
            outcome addLoad { s with phase := .loading, progress := (s.sized f.loadSize).progress } =
              .ok ((), s.withLoad w id f)) := by
    intro hload
    have hpos := loadBytes?_pos hload
    refine ⟨outcome_isNextLoad hf hd hl hload,
      outcome_isNextLoad (s := s.sized f.loadSize) hf hd hl hload,
      outcome_isLoadComplete (s := s.sized f.loadSize) hd hl rfl hpos, fun hnext => ?_⟩
    refine outcome_addLoad hf hnow hs.notes.groups hload hd hl rfl ?_
    rw [← heading_eq hd]
    exact Span.continues_of_full hnext
  cases hload : f.isNarrowLoad with
  | true =>
    have hbytes := loadBytes?_eq_loadSize hload
    obtain ⟨hnext, hnext', hcomplete, hadd⟩ := hsized hbytes
    have hrestart := outcome_addLoad_fresh (n := s.notes.gather []) hf hnow (by simp) hload
    cases hn : s.nextLoad f with
    | true =>
      cases hfull : s.loadsFull f.loadSize with
      | true =>
        have hsettle := outcome_settle hs hp hfull (loadBytes?_pos hbytes)
        simpa [hf, hload, hnext, hnext', hn, hcomplete, hfull] using hsettle
      | false => simp [hf, hload, hnext, hn, hcomplete, hfull, hadd]
    | false => simp [hf, hload, hnext, hnext', hn, hrestart]
  | false =>
    have hcomplete := outcome_isLoadComplete hd hl hsize hpos
    rw [bytes_eq hsize]
    cases hfull : s.loadsFull size with
    | false => simp [hf, hload, hcomplete, hfull, fresh]
    | true =>
      cases hany : f.isLoad with
      | false =>
        have hsettle := outcome_settle hs hp hfull hpos
        have hsame : (s.sized size).progress = s.progress := by
          show { s.progress with size := some size } = s.progress
          rw [← hsize]
        rw [hsame] at hsettle
        simpa [hf, hload, hcomplete, hfull, outcome_isNextLoad_of_not hf hany] using hsettle
      | true =>
        cases hbits : f.loadBytes? with
        | none =>
          simp [hf, hcomplete, hfull, outcome_isNextLoad_of_sizeless hf hany hbits hd]
        | some bytes =>
          have hbits : f.loadBytes? = some f.loadSize := by
            rw [Fields.loadSize, hbits, Option.getD_some]
          obtain ⟨hnext, hnext', hcomplete', hadd⟩ := hsized hbits
          cases hfull' : s.loadsFull f.loadSize with
          | true =>
            have hsettle := outcome_settle hs hp hfull' (loadBytes?_pos hbits)
            cases hn : s.nextLoad f <;>
              simpa [hf, hload, hnext, hnext', hn, hcomplete, hcomplete', hfull, hfull']
                using hsettle
          | false =>
            cases hn : s.nextLoad f <;>
              simp [hf, hload, hnext, hn, hcomplete, hcomplete', hfull, hfull', hadd]

theorem leadsTo_step_loaded (hp : s.phase = .loaded) :
    LeadsTo applyRules s (s.react w id f) := by
  obtain ⟨-, hd, -⟩ : s.InPhase .loaded := hp ▸ hs.phase
  have hsame : ({ s with phase := .loaded } : CopyBatch) = s := by rw [← hp]
  have hrestart := outcome_addLoad_fresh (n := s.notes.gather []) hf hnow (by simp)
  rw [Rule.leadsTo_step hp, react, hp]
  have htest := outcome_touchesRegisters hf
  cases htouch : s.touches f with
  | false => cases hload : f.isNarrowLoad <;> simp [hf, htest, htouch, hload, hsame]
  | true =>
    cases hload : f.isNarrowLoad with
    | true => simp [hf, htest, htouch, hload, hrestart]
    | false =>
      cases hstore : f.isNarrowStore with
      | false => simp [hf, htest, htouch, hload, hstore]
      | true =>
        have hnone : ∀ {p : Direction → Prop} d, s.progress.direction = some d → p d :=
          fun d h => absurd (h.symm.trans hd) (by simp)
        have hnext := outcome_isNextStore hf hstore hnone
        have hregister : s.nextStore f = .ok (s.registers.contains f.src) := by
          unfold nextStore
          rw [hd]
          cases s.registers.contains f.src <;> rfl
        rw [hregister] at hnext
        cases hsrc : s.registers.contains f.src with
        | false =>
          have hsrc' : f.src ∉ s.registers := by simpa using hsrc
          simp [hf, htest, htouch, hload, hstore, hnext, hsrc']
        | true =>
          have hsrc' : f.src ∈ s.registers := by simpa using hsrc
          have hadd := outcome_addStore
            (s := { s with phase := .storing, progress := (s.sized f.storeSize).progress })
            hf hnow hs.notes.groups hstore rfl hnone (hregister.trans (by rw [hsrc]))
          have hfits : misjudges
              { s with phase := .storing, progress := (s.sized f.storeSize).progress } f = false := by
            show (s.progress.direction == some .backward && _) = false
            rw [hd]
            rfl
          rw [hfits] at hadd
          simp [hf, htest, htouch, hload, hstore, hnext, hsrc', hadd]
          rfl

omit hf hnow in
theorem outcome_finish_full (hp : s.phase = .storing) (hfull : s.storesFull size = .ok true)
    (p : Phase) (q : Progress) :
    outcome finish { s with phase := p, progress := q } =
      .ok ((), { s with phase := p, progress := q, notes := s.notes.gather s.finished }) := by
  obtain ⟨⟨dl, low, high, hl⟩, d, hd, hst⟩ : s.InPhase .storing := hp ▸ hs.phase
  obtain ⟨hne, -⟩ := hs.active (by rw [hp]; decide)
  obtain ⟨-, -, start, stop, houter, -⟩ := storesFull_eq_true.mp hfull
  obtain ⟨hlow, hlowTakes⟩ := hl.load.outer_low hl.outer
  obtain ⟨hstart, hstartTakes⟩ := hst.outer_low houter
  exact outcome_finish (s := { s with phase := p, progress := q }) hs.notes hne hs.stores hlow
    hlowTakes hstart hstartTakes

theorem leadsTo_step_storing (hp : s.phase = .storing) :
    LeadsTo applyRules s (s.react w id f) := by
  obtain ⟨hloaded, d, hd, hst⟩ : s.InPhase .storing := hp ▸ hs.phase
  obtain ⟨hne, size, hsize, hpos⟩ := hs.active (by rw [hp]; decide)
  rw [Rule.leadsTo_step hp, react, hp]
  cases hstore : f.isNarrowStore with
  | false =>
    have hcomplete := outcome_isStoreComplete hd hst hsize hpos
    rw [bytes_eq hsize]
    cases hfull : s.storesFull size with
    | error e => cases hload : f.isNarrowLoad <;> simp [hf, hload, hstore, hcomplete, hfull]
    | ok full =>
      cases full with
      | false =>
        have hrestart := outcome_addLoad_fresh (n := s.notes.gather []) hf hnow (by simp)
        cases hload : f.isNarrowLoad <;>
          simp [hf, hload, hstore, hcomplete, hfull, hrestart, fresh, close]
      | true =>
        have hfinish := outcome_finish_full hs hp hfull
        have hbegin := outcome_addLoad_fresh (n := s.notes.finish s.finished []) hf hnow
        cases hload : f.isNarrowLoad <;>
          simp [hf, hload, hstore, hcomplete, hfull, hfinish, hbegin, fresh, close]
  | true =>
    have hload : f.isNarrowLoad = false :=
      (classes_of_isStore (isStore_of_isNarrowStore hstore)).2.2
    have hpos := storeSize_pos hstore
    have hst : ∀ d', s.progress.direction = some d' → s.store.Formed d' := fun d' h =>
      Option.mem_unique hd h ▸ hst
    have hnext := outcome_isNextStore hf hstore fun d' h => ⟨hloaded, hst d' h⟩
    have hcomplete := outcome_isStoreComplete (s := s.sized f.storeSize) hd (hst d hd) rfl hpos
    cases hn : s.nextStore f with
    | error e => simp [hf, hstore, hnext, hn]
    | ok next =>
      cases next with
      | true =>
        have hadd := outcome_addStore
          (s := { s with phase := .storing, progress := (s.sized f.storeSize).progress })
          hf hnow hs.notes.groups hstore rfl hst hn
        simp [hf, hstore, hnext, hn, hadd]
        show (if s.misjudges f = true then _ else Except.ok ((), s.withStore w id f)) = _
        split <;> rfl
      | false =>
        cases hfull : s.storesFull f.storeSize with
        | error e => simp [hf, hload, hstore, hnext, hn, hcomplete, hfull]
        | ok full =>
          cases full with
          | true =>
            have hfinish := outcome_finish_full hs hp hfull
            simp [hf, hload, hstore, hnext, hn, hcomplete, hfull, hfinish, fresh, close]
          | false => simp [hf, hload, hstore, hnext, hn, hcomplete, hfull, fresh, close]

theorem leadsTo_step :
    LeadsTo applyRules s (s.react w id f) := by
  cases hp : s.phase with
  | idle => exact leadsTo_step_idle hf hnow hs hp
  | loading => exact leadsTo_step_loading hf hnow hs hp
  | loaded => exact leadsTo_step_loaded hf hnow hs hp
  | storing => exact leadsTo_step_storing hf hnow hs hp

end

theorem leadsTo_read (hw : Proper w) (hs : s.Sound) :
    LeadsTo (read w id) s ((s.look w id).react w id (unpacked w)) :=
  leadsTo_step (Notes.look_fields hw) rfl (hs.look w id)

/-! ## The states that can be reached -/

theorem NarrowStores.keep (hn : NarrowStores n.pending) (w : Word) (id : Int)
    (hw : (unpacked w).isStore = true → (unpacked w).isNarrowStore = true) :
    NarrowStores (n.keep (.gathered w id)).pending ∧ (n.keep (.gathered w id)).pending ≠ [] := by
  rw [Notes.keep_pending]
  refine ⟨fun x hx => ?_, Group.insert_ne_nil _ _⟩
  rcases Group.mem_insert hx with rfl | hx
  · exact hw
  · exact hn x hx

theorem narrowStores_of_empty (h : n.pending = []) : NarrowStores n.pending := by
  rw [h]
  exact nofun

theorem sound_fresh (hg : n.groups ≠ []) (hpending : n.pending = []) : (fresh n).Sound :=
  ⟨Notes.sound_of_empty hg hpending, narrowStores_of_empty hpending, ⟨rfl, hpending⟩, nofun⟩

theorem sound_begun (hg : n.groups ≠ []) (hpending : n.pending = []) (hw : Proper w)
    (hload : (unpacked w).isNarrowLoad = true) : (begun n w id (unpacked w)).Sound := by
  have hbytes := loadBytes?_eq_loadSize hload
  obtain ⟨hstores, hne⟩ := (narrowStores_of_empty hpending).keep w id fun h =>
    absurd h (by simp [not_isStore_of_loadBytes? hbytes])
  exact ⟨(Notes.sound_of_empty hg hpending).keep hw, hstores,
    ⟨rfl, rfl, .pending, rfl, Span.formed_start (Word.takes_offset hw)⟩,
    fun _ => ⟨hne, _, rfl, loadBytes?_pos hbytes⟩⟩

theorem Sound.sized (hs : s.Sound) (hp : s.phase ≠ .idle) (hpos : 0 < size) :
    (s.sized size).Sound :=
  ⟨hs.notes, hs.stores, hs.phase.unseen hp s.notes _,
    fun _ => ⟨(hs.active hp).1, size, rfl, hpos⟩⟩

theorem Sound.settled (hs : s.Sound) (hp : s.phase = .loading) (hfull : s.loadsFull size = true)
    (hpos : 0 < size) (h : s.settled size = .ok t) : t.Sound := by
  obtain ⟨hst, -, d, hd, hl⟩ : s.InPhase .loading := hp ▸ hs.phase
  unfold loadsFull at hfull
  rw [heading_eq hd, Span.isFull_iff] at hfull
  obtain ⟨-, hne, low, high, houter⟩ := hfull
  unfold CopyBatch.settled at h
  rw [houter] at h
  obtain ⟨registers, -, h⟩ := bind_eq_ok.mp h
  cases h
  exact ⟨hs.notes, hs.stores, ⟨hst, rfl, d, low, high, hl, hne, houter⟩,
    fun _ => ⟨(hs.active (by rw [hp]; decide)).1, size, rfl, hpos⟩⟩

section
variable (hs : s.Sound) (hw : Proper w)
include hs hw

theorem Sound.withLoad (hp : s.phase = .loading)
    (hload : (unpacked w).loadBytes? = some (unpacked w).loadSize) :
    (s.withLoad w id (unpacked w)).Sound := by
  obtain ⟨hst, horder, d, hd, hl⟩ : s.InPhase .loading := hp ▸ hs.phase
  obtain rfl := heading_eq hd
  obtain ⟨hstores, hne⟩ := hs.stores.keep w id fun h =>
    absurd h (by simp [not_isStore_of_loadBytes? hload])
  exact ⟨hs.notes.keep hw, hstores, ⟨hst, horder, _, rfl, hl.push_formed (Word.takes_offset hw) _⟩,
    fun _ => ⟨hne, _, rfl, loadBytes?_pos hload⟩⟩

theorem Sound.withStore (hp : s.phase = .loaded ∨ s.phase = .storing)
    (hstore : (unpacked w).isNarrowStore = true) :
    (s.withStore w id (unpacked w)).Sound := by
  have hpos := storeSize_pos hstore
  have hspan : (s.pushStore (unpacked w).offset (unpacked w).storeSize).2.Formed
      (s.pushStore (unpacked w).offset (unpacked w).storeSize).1
      ∧ ∃ d low high, s.Loaded d low high := by
    unfold pushStore
    rcases hp with hp | hp
    · obtain ⟨hst, hd, hl⟩ : s.InPhase .loaded := hp ▸ hs.phase
      rw [hd, hst]
      exact ⟨Span.formed_start (Word.takes_offset hw), hl⟩
    · obtain ⟨hl, d, hd, hst⟩ : s.InPhase .storing := hp ▸ hs.phase
      rw [hd]
      exact ⟨hst.push_formed (Word.takes_offset hw) _, hl⟩
  obtain ⟨hformed, d, low, high, h₁, h₂, h₃⟩ := hspan
  obtain ⟨hstores, hne⟩ := hs.stores.keep w id fun _ => hstore
  exact ⟨hs.notes.keep hw, hstores, ⟨⟨d, low, high, h₁, h₂, h₃⟩, _, rfl, hformed⟩,
    fun _ => ⟨hne, _, rfl, hpos⟩⟩

end

/-- Everything that reading an instruction can do. -/
inductive Move (s : CopyBatch) (w : Word) (id : Int) (f : Fields) : CopyBatch → Prop
  | rest (hp : s.phase = .idle ∨ s.phase = .loaded) : Move s w id f s
  | first (hp : s.phase = .idle) (hload : f.isNarrowLoad = true) :
      Move s w id f (begun s.notes w id f)
  | note {size : Int} (hp : s.phase = .loading ∨ s.phase = .loaded) (hpos : 0 < size) :
      Move s w id f (s.sized size)
  | giveUp : Move s w id f (fresh (s.notes.gather []))
  | startOver (hload : f.isNarrowLoad = true) : Move s w id f (begun (s.notes.gather []) w id f)
  | load (hp : s.phase = .loading) (hload : f.loadBytes? = some f.loadSize)
      (hopen : s.loadsFull f.loadSize = false) (hnext : s.nextLoad f = true) :
      Move s w id f (s.withLoad w id f)
  | settle {size : Int} {t : CopyBatch} (hp : s.phase = .loading) (hpos : 0 < size)
      (hfull : s.loadsFull size = true) (ht : s.settled size = .ok t) : Move s w id f t
  | store (hp : s.phase = .loaded ∨ s.phase = .storing) (hstore : f.isNarrowStore = true)
      (hnext : s.nextStore f = .ok true) (hfit : s.misjudges f = false) :
      Move s w id f (s.withStore w id f)
  | finish {size : Int} (hp : s.phase = .storing) (hpos : 0 < size)
      (hfull : s.storesFull size = .ok true) :
      Move s w id f (fresh (s.notes.finish s.finished []))
  | finishFirst {size : Int} (hp : s.phase = .storing) (hpos : 0 < size)
      (hfull : s.storesFull size = .ok true) (hload : f.isNarrowLoad = true) :
      Move s w id f (begun (s.notes.finish s.finished []) w id f)

theorem move_of_react (hs : s.Sound) (h : s.react w id f = .ok t) : Move s w id f t := by
  unfold react at h
  have hbytes : s.phase ≠ .idle → 0 < s.bytes := by
    intro hp
    obtain ⟨-, size, hsize, hpos⟩ := hs.active hp
    rwa [bytes_eq hsize]
  cases hp : s.phase with
  | idle =>
    simp only [hp, Except.ok.injEq] at h
    split at h
    · next hload => exact h ▸ .first hp hload
    · exact h ▸ .rest (.inl hp)
  | loading =>
    have hbytes := hbytes (by rw [hp]; decide)
    simp only [hp] at h
    split at h
    · next hload =>
      have hload' := loadBytes?_eq_loadSize hload
      split at h
      · next hnext =>
        split at h
        · next hfull => exact .settle hp (loadBytes?_pos hload') hfull h
        · next hopen =>
          exact Except.ok.inj h ▸ .load hp hload' (Bool.eq_false_iff.mpr hopen) hnext
      · exact Except.ok.inj h ▸ .startOver hload
    · split at h
      · next hfull =>
        split at h
        · split at h
          · cases h
          next hsome =>
          have hload' : f.loadBytes? = some f.loadSize := by
            obtain ⟨size, hsize⟩ := Option.ne_none_iff_exists'.mp (by simpa using hsome)
            rw [Fields.loadSize, hsize, Option.getD_some]
          split at h
          · next hfull' => exact .settle hp (loadBytes?_pos hload') hfull' h
          · next hopen =>
            cases h
            split
            · next hnext => exact .load hp hload' (Bool.eq_false_iff.mpr hopen) hnext
            · exact .note (.inl hp) (loadBytes?_pos hload')
        · exact .settle hp hbytes hfull h
      · exact Except.ok.inj h ▸ .giveUp
  | loaded =>
    simp only [hp, Except.ok.injEq] at h
    obtain ⟨-, hd, -⟩ : s.InPhase .loaded := hp ▸ hs.phase
    split at h
    · split at h
      · next hload => exact h ▸ .startOver hload
      split at h
      · next hstore =>
        split at h
        · next hsrc =>
          subst h
          refine .store (.inl hp) hstore ?_ ?_
          · unfold nextStore
            rw [if_pos hsrc, hd]
          · unfold misjudges
            rw [hd]
            rfl
        · exact h ▸ .note (.inr hp) (storeSize_pos hstore)
      · exact h ▸ .rest (.inr hp)
    · exact h ▸ .rest (.inr hp)
  | storing =>
    have hbytes := hbytes (by rw [hp]; decide)
    simp only [hp] at h
    split at h
    · next hstore =>
      obtain ⟨next, hnext, h⟩ := bind_eq_ok.mp h
      split at h
      · next htrue =>
        subst htrue
        split at h
        · cases h
        · next hfit =>
          exact Except.ok.inj h ▸ .store (.inr hp) hstore hnext (Bool.eq_false_iff.mpr hfit)
      · obtain ⟨full, hfull, h⟩ := bind_eq_ok.mp h
        cases h
        cases full with
        | true => exact .finish hp (storeSize_pos hstore) hfull
        | false => exact .giveUp
    · obtain ⟨full, hfull, h⟩ := bind_eq_ok.mp h
      cases h
      split
      · next hload =>
        cases full with
        | true => exact .finishFirst hp hbytes hfull hload
        | false => exact .startOver hload
      · cases full with
        | true => exact .finish hp hbytes hfull
        | false => exact .giveUp

theorem Move.sound (h : Move s w id (unpacked w) t) (hs : s.Sound) (hw : Proper w) : t.Sound := by
  cases h with
  | rest => exact hs
  | first hp hload =>
    obtain ⟨-, hempty⟩ : s.InPhase .idle := hp ▸ hs.phase
    exact sound_begun hs.notes.groups hempty hw hload
  | note hp hpos => exact hs.sized (by rcases hp with hp | hp <;> rw [hp] <;> decide) hpos
  | giveUp => exact sound_fresh (by simp) (by simp)
  | startOver hload => exact sound_begun (by simp) (by simp) hw hload
  | load hp hload => exact hs.withLoad hw hp hload
  | settle hp hpos hfull ht => exact hs.settled hp hfull hpos ht
  | store hp hstore => exact hs.withStore hw hp hstore
  | finish => exact sound_fresh (by simp) (by simp)
  | finishFirst _ _ _ hload => exact sound_begun (by simp) (by simp) hw hload

theorem runs_read (hs : s.Sound) (hw : Proper w) (h : Runs (read w id) s () t) :
    Move (s.look w id) w id (unpacked w) t :=
  move_of_react (hs.look w id) ((leadsTo_read hw hs).eq_ok h)

theorem sound_init : Sound {} := sound_fresh (by decide) rfl

end BpfLanes.Peephole.CopyBatch
