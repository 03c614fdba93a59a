import BpfLanes.Proofs.GroupMoves

/-! # What recognisers cannot read

Each recogniser has a few situations in which it fails instead of reading an
instruction. They are told from its state and the instruction (`Stuck`), and there
are no others: a run fails exactly when it comes to one of them.
-/

namespace BpfLanes.Peephole

open Word (Proper unpacked)

variable {m : List (Int × Int)} {w : Word}

/-! ## Zero fills -/

namespace ZeroFill

variable {s : ZeroFill} {id : Int} {f : Fields} {e : Fault}

/-- A store of an immediate has no second input to ask for. After a first store it is
    only asked for when it goes through the zeroed register to a slot not touched. -/
inductive Stuck (s : ZeroFill) (f : Fields) : Fault → Prop
  | immediateStore (h : f.isImmediateStore = true)
      (hasked : s.phase = .storing → f.offset ∉ s.accessed ∧ s.register = some f.dst) :
      Stuck s f .outOfRange

theorem zeroStore_eq_error :
    s.zeroStore f = .error e ↔ f.isImmediateStore = true ∧ f.offset ∉ s.accessed
      ∧ s.register = some f.dst ∧ e = .outOfRange := by
  unfold zeroStore
  cases himm : f.isImmediateStore with
  | false => split <;> simp
  | true =>
    have hstore : f.isStore = true := (Bool.and_eq_true_iff.mp himm).1
    have hregister : (some f.dst == s.register) = true ↔ s.register = some f.dst := by
      rw [beq_iff_eq]
      exact eq_comm
    by_cases hmem : f.offset ∈ s.accessed
    · simp [hmem]
    · by_cases hreg : s.register = some f.dst
      · simp [hstore, hmem, hreg, eq_comm]
      · simp [hstore, hmem, hreg, hregister]

theorem stackAccess_eq_error :
    stackAccess f = .error e ↔ f.isImmediateStore = true ∧ e = .outOfRange := by
  unfold stackAccess
  cases himm : f.isImmediateStore with
  | false => split <;> simp
  | true =>
    have hload : f.isLoad = false :=
      (Fields.classes_of_isStore (Bool.and_eq_true_iff.mp himm).1).2.1
    simp [hload, eq_comm]

theorem output?_of_isImmediateStore (h : f.isImmediateStore = true) : f.output? = none := by
  have hall : ∀ o ∈ Opcode.stores, (Opcode.storeBits.lookup o).isNone = true →
      Opcode.writesNothing.contains o = true := by decide
  simp only [Fields.isImmediateStore, Bool.and_eq_true] at h
  rw [Fields.output?, if_pos (hall f.opcode (by simpa [Fields.isStore] using h.1) h.2)]

theorem react_eq_error : s.react id f = .error e ↔ Stuck s f e := by
  unfold react
  constructor
  · intro h
    cases hp : s.phase with
    | idle =>
      simp only [hp] at h
      split at h
      · cases h
      · rcases bind_eq_error.mp h with h | ⟨_, _, h⟩
        · obtain ⟨himm, rfl⟩ := stackAccess_eq_error.mp h
          exact .immediateStore himm (by simp [hp])
        · cases h
    | zeroed =>
      simp only [hp] at h
      rcases bind_eq_error.mp h with h | ⟨_, _, h⟩
      · obtain ⟨himm, -, -, rfl⟩ := zeroStore_eq_error.mp h
        exact .immediateStore himm (by simp [hp])
      split at h
      · cases h
      split at h
      · cases h
      · rcases bind_eq_error.mp h with h | ⟨_, _, h⟩
        · obtain ⟨himm, rfl⟩ := stackAccess_eq_error.mp h
          exact .immediateStore himm (by simp [hp])
        · split at h
          · cases h
          · split at h <;> cases h
    | storing =>
      simp only [hp] at h
      rcases bind_eq_error.mp h with h | ⟨_, _, h⟩
      · obtain ⟨himm, hfree, hreg, rfl⟩ := zeroStore_eq_error.mp h
        exact .immediateStore himm fun _ => ⟨hfree, hreg⟩
      · split at h
        · cases h
        · split at h <;> cases h
  · rintro ⟨himm, hasked⟩
    have hisStore : f.isStore = true := (Bool.and_eq_true_iff.mp himm).1
    have hzero : f.zeroes = false := Fields.zeroes_of_isStore hisStore
    have htouch : stackAccess f = .error .outOfRange := stackAccess_eq_error.mpr ⟨himm, rfl⟩
    cases hp : s.phase with
    | idle => simp [hzero, htouch]
    | zeroed =>
      -- it fails at the first question, or else at the second one
      cases hstore : s.zeroStore f with
      | error e =>
        obtain ⟨-, -, -, rfl⟩ := zeroStore_eq_error.mp hstore
        rfl
      | ok b =>
        have hb : b = false := by
          unfold zeroStore at hstore
          rw [himm] at hstore
          split at hstore
          · simp only [if_true] at hstore
            split at hstore
            · cases hstore
            · exact (Except.ok.inj hstore).symm
          · exact (Except.ok.inj hstore).symm
        simp [hb, output?_of_isImmediateStore himm, htouch]
    | storing =>
      have hstore := zeroStore_eq_error.mpr ⟨himm, (hasked hp).1, (hasked hp).2, rfl⟩
      simp [hstore]

theorem Stuck.notes (h : Stuck s f e) (n : Notes) : Stuck { s with notes := n } f e := by
  obtain ⟨himm, hasked⟩ := h
  exact .immediateStore himm hasked

theorem stuck_look : Stuck (s.look w id) f e ↔ Stuck s f e :=
  ⟨fun h => h.notes s.notes, fun h => h.notes _⟩

theorem fails_read (hg : s.notes.groups ≠ []) (hw : Proper w) :
    (∃ t, Fails (read w id) s e t) ↔ Stuck s (unpacked w) e :=
  (leadsTo_read hw hg).fails_iff.trans (react_eq_error.trans stuck_look)

end ZeroFill

/-! ## Alternating copies -/

namespace CopyPairs

variable {s : CopyPairs} {id : Int} {f : Fields} {e : Fault}

/-- Whether an instruction ends a copy that is complete. -/
def finishes (s : CopyPairs) (f : Fields) : Bool :=
  if f.isNarrowLoad then s.full f.loadSize && !s.nextLoad f else s.full s.bytes

/-- A store of an immediate has no size to ask for. A store can pass the test and not
    fit to the pieces stored. A copy can only be finished when its loads and its stores
    both have a left run, which a forward copy need not have. -/
inductive Stuck (s : CopyPairs) (f : Fields) : Fault → Prop
  | immediateStore (hp : s.phase = .loaded) (h : f.isImmediateStore = true) :
      Stuck s f .missingNumber
  | misjudgedStore (hp : s.phase = .loaded) (h : f.isNarrowStore = true)
      (hnext : s.nextStore f = true) (hmisjudged : s.misjudges f = true) :
      Stuck s f (.violated storeRefusal)
  | noLeftRun (hp : s.phase = .paired) (h : s.finishes f = true)
      (hrun : s.load.leftLow = none ∨ s.store.leftLow = none) : Stuck s f .missingPart

theorem finished_eq_error :
    s.finished = .error e ↔
      (s.load.leftLow = none ∨ s.store.leftLow = none) ∧ e = .missingPart := by
  unfold finished
  cases s.load.leftLow <;> cases s.store.leftLow <;> simp [eq_comm]

theorem react_loaded_eq_error (hp : s.phase = .loaded) :
    s.react w id f = .error e ↔ (f.isImmediateStore = true ∧ e = .missingNumber) ∨
      f.isNarrowStore = true ∧ s.nextStore f = true ∧ s.misjudges f = true ∧
        e = .violated storeRefusal := by
  unfold react
  simp only [hp]
  cases hstore : f.isStore with
  | false =>
    have himm : f.isImmediateStore = false := by simp [Fields.isImmediateStore, hstore]
    have hnarrow : f.isNarrowStore = false :=
      Bool.eq_false_iff.mpr fun h => by simp [Fields.isStore_of_isNarrowStore h] at hstore
    cases f.isNarrowLoad <;> simp [himm, hnarrow]
  | true =>
    cases himm : f.isImmediateStore with
    | true =>
      have hnarrow : f.isNarrowStore = false :=
        Bool.eq_false_iff.mpr fun h => by simp [Fields.isImmediateStore_of_isNarrowStore h] at himm
      simp [hnarrow, eq_comm (a := e)]
    | false =>
      cases s.nextStore f <;> cases f.isNarrowStore <;> cases s.misjudges f <;> simp [eq_comm (a := e)]

theorem react_paired_eq_error (hp : s.phase = .paired) :
    s.react w id f = .error e ↔ s.finishes f = true ∧ s.finished = .error e := by
  unfold react finishes
  simp only [hp]
  cases f.isNarrowLoad with
  | true =>
    cases s.full f.loadSize <;> cases s.nextLoad f <;> simp [bind_eq_error]
  | false => cases s.full s.bytes <;> simp [bind_eq_error]

theorem react_eq_error : s.react w id f = .error e ↔ Stuck s f e := by
  constructor
  · intro h
    cases hp : s.phase with
    | idle =>
      unfold react at h
      simp only [hp] at h
      cases h
    | loaded =>
      rcases (react_loaded_eq_error hp).mp h with ⟨himm, rfl⟩ | ⟨hstore, hnext, hmis, rfl⟩
      · exact .immediateStore hp himm
      · exact .misjudgedStore hp hstore hnext hmis
    | paired =>
      obtain ⟨hfinishes, herror⟩ := (react_paired_eq_error hp).mp h
      obtain ⟨hrun, rfl⟩ := finished_eq_error.mp herror
      exact .noLeftRun hp hfinishes hrun
  · intro h
    cases h with
    | immediateStore hp himm => exact (react_loaded_eq_error hp).mpr (.inl ⟨himm, rfl⟩)
    | misjudgedStore hp hstore hnext hmis =>
      exact (react_loaded_eq_error hp).mpr (.inr ⟨hstore, hnext, hmis, rfl⟩)
    | noLeftRun hp hfinishes hrun =>
      exact (react_paired_eq_error hp).mpr ⟨hfinishes, finished_eq_error.mpr ⟨hrun, rfl⟩⟩

theorem Stuck.notes (h : Stuck s f e) (n : Notes) : Stuck { s with notes := n } f e := by
  cases h with
  | immediateStore hp h => exact .immediateStore hp h
  | misjudgedStore hp h hnext hmis => exact .misjudgedStore hp h hnext hmis
  | noLeftRun hp h hrun => exact .noLeftRun hp h hrun

theorem stuck_look : Stuck (s.look w id) f e ↔ Stuck s f e :=
  ⟨fun h => h.notes s.notes, fun h => h.notes _⟩

theorem fails_read (hs : s.Sound) (hw : Proper w) :
    (∃ t, Fails (read w id) s e t) ↔ Stuck s (unpacked w) e :=
  (leadsTo_read hw hs).fails_iff.trans (react_eq_error.trans stuck_look)

end CopyPairs

/-! ## Batched copies -/

namespace CopyBatch

variable {s : CopyBatch} {id : Int} {f : Fields} {e : Fault} {size : Int}

/-- The size of the pieces when the instruction settles the loads. -/
def settles (s : CopyBatch) (f : Fields) : Option Int :=
  if f.isNarrowLoad then
    if s.nextLoad f && s.loadsFull f.loadSize then some f.loadSize else none
  else if s.loadsFull s.bytes then
    if f.isLoad then
      if f.loadBytes?.isSome && s.loadsFull f.loadSize then some f.loadSize else none
    else some s.bytes
  else none

/-- The size of the pieces when the instruction is no next store. -/
def closes (s : CopyBatch) (f : Fields) : Option Int :=
  if f.isNarrowStore then if s.nextStore f = .ok false then some f.storeSize else none
  else some s.bytes

/-- Once all pieces are loaded, a load without a size cannot be tested. Pieces are looked
    up by their offsets, and none may be missing, of the loads or of the stores. Loads
    and stores with one run each may have different ones, and then the loads cannot be
    asked whether they are complete. And a store can pass the test and not fit. -/
inductive Stuck (s : CopyBatch) (f : Fields) : Fault → Prop
  | sizelessLoad (hp : s.phase = .loading) (hfull : s.loadsFull s.bytes = true)
      (h : f.isLoad = true) (hsize : f.loadBytes? = none) : Stuck s f .missingNumber
  | missingPiece {size low high offset : Int} (hp : s.phase = .loading)
      (h : s.settles f = some size) (houter : s.load.outer? = some (low, high))
      (hoffset : offset ∈ steps low size) (hmissing : s.area.lookup offset = none) :
      Stuck s f .missingKey
  | crossedRuns {d : Direction} (hp : s.phase = .storing) (h : f.isNarrowStore = true)
      (hregister : s.registers.contains f.src = true) (hd : s.progress.direction = some d)
      (hlast : s.progress.count = piecesOf f.storeSize) (hcrossed : s.crossed d = true)
      (hapart : s.store.continues d true f.offset f.storeSize
        (piecesOf f.storeSize - s.progress.count * f.storeSize) = false) :
      Stuck s f .missingNumber
  | misjudgedStore (hp : s.phase = .storing) (h : f.isNarrowStore = true)
      (hnext : s.nextStore f = .ok true) (hmisjudged : s.misjudges f = true) :
      Stuck s f (.violated storeRefusal)
  | missingStore {size : Int} (hp : s.phase = .storing) (h : s.closes f = some size)
      (hmissing : s.storesFull size = .error .missingKey) : Stuck s f .missingKey

theorem recorded_eq_error {k : Int} :
    recorded m k = .error e ↔ m.lookup k = none ∧ e = .missingKey := by
  unfold recorded
  cases m.lookup k <;> simp [eq_comm]

theorem mapM_recorded_eq_error {ks : List Int} :
    ks.mapM (recorded m) = .error e ↔ (∃ k ∈ ks, m.lookup k = none) ∧ e = .missingKey := by
  induction ks with
  | nil => simp
  | cons k ks ih =>
    rw [List.mapM_cons, bind_eq_error, recorded_eq_error]
    have hrest : (∀ registers : Int, (ks.mapM (recorded m) >>= fun rest =>
        (pure (registers :: rest) : Except Fault (List Int))) = .error e ↔
          ks.mapM (recorded m) = .error e) := by
      intro registers
      rw [bind_eq_error]
      simp
    simp only [hrest, ih]
    constructor
    · rintro (⟨hnone, rfl⟩ | ⟨_, _, ⟨k', hk', hnone⟩, rfl⟩)
      · exact ⟨⟨k, List.mem_cons_self, hnone⟩, rfl⟩
      · exact ⟨⟨k', List.mem_cons_of_mem _ hk', hnone⟩, rfl⟩
    · rintro ⟨⟨k', hk', hnone⟩, rfl⟩
      rcases List.mem_cons.mp hk' with rfl | hk'
      · exact .inl ⟨hnone, rfl⟩
      · cases hk : recorded m k with
        | error e => exact .inl ⟨(recorded_eq_error.mp hk).1, rfl⟩
        | ok register => exact .inr ⟨register, rfl, ⟨k', hk', hnone⟩, rfl⟩

theorem matching_eq_error {area order : List (Int × Int)} {xs : List (Int × Nat)}
    (h : matching area order xs = .error e) : e = .missingKey := by
  induction xs with
  | nil => cases h
  | cons x xs ih =>
    rcases bind_eq_error.mp h with h | ⟨_, _, h⟩
    · exact (recorded_eq_error.mp h).2
    · rcases bind_eq_error.mp h with h | ⟨_, _, h⟩
      · exact (recorded_eq_error.mp h).2
      · split at h
        · exact ih h
        · cases h

theorem storesFull_eq_error (h : s.storesFull size = .error e) : e = .missingKey := by
  unfold storesFull at h
  split at h
  · split at h
    · exact matching_eq_error h
    · cases h
  · cases h

theorem settled_eq_error :
    s.settled size = .error e ↔ e = .missingKey ∧ ∃ low high, s.load.outer? = some (low, high)
      ∧ ∃ offset ∈ steps low size, s.area.lookup offset = none := by
  unfold settled
  rcases s.load.outer? with _ | ⟨low, high⟩
  · simp
  rw [bind_eq_error, mapM_recorded_eq_error]
  simp only [reduceCtorEq, and_false, exists_false, or_false, Option.some.injEq, Prod.mk.injEq]
  constructor
  · rintro ⟨hmissing, rfl⟩
    exact ⟨rfl, low, high, ⟨rfl, rfl⟩, hmissing⟩
  · rintro ⟨rfl, low', high', ⟨rfl, rfl⟩, hmissing⟩
    exact ⟨hmissing, rfl⟩

theorem nextStore_eq_error :
    s.nextStore f = .error e ↔ e = .missingNumber ∧ s.registers.contains f.src = true
      ∧ ∃ d, s.progress.direction = some d ∧ s.progress.count = piecesOf f.storeSize
        ∧ s.crossed d = true ∧ s.store.continues d true f.offset f.storeSize
          (piecesOf f.storeSize - s.progress.count * f.storeSize) = false := by
  unfold nextStore
  cases s.registers.contains f.src with
  | false => simp
  | true =>
    cases s.progress.direction with
    | none => simp
    | some d =>
      simp only [if_true]
      split
      · next h =>
        simp only [Bool.and_eq_true, beq_iff_eq, Bool.not_eq_true'] at h
        constructor
        · intro he
          exact ⟨(Except.error.inj he).symm, trivial, d, rfl, h.1.1, h.1.2, h.2⟩
        · rintro ⟨rfl, -⟩
          rfl
      · next h =>
        simp only [Bool.and_eq_true, beq_iff_eq, Bool.not_eq_true'] at h
        constructor
        · intro he
          cases he
        · rintro ⟨rfl, -, d', hd, hlast, hcrossed, hapart⟩
          cases hd
          exact absurd ⟨⟨hlast, hcrossed⟩, hapart⟩ h

theorem react_loading_eq_error (hp : s.phase = .loading) :
    s.react w id f = .error e ↔
      (s.loadsFull s.bytes = true ∧ f.isLoad = true ∧ f.loadBytes? = none ∧ e = .missingNumber) ∨
        ∃ size, s.settles f = some size ∧ s.settled size = .error e := by
  unfold react settles
  simp only [hp]
  cases hload : f.isNarrowLoad with
  | true =>
    have hbytes := Fields.loadBytes?_eq_loadSize hload
    cases s.nextLoad f <;> cases s.loadsFull f.loadSize <;> simp [hbytes]
  | false =>
    cases s.loadsFull s.bytes with
    | false => simp
    | true =>
      cases f.isLoad with
      | false => simp
      | true => cases f.loadBytes? <;> cases s.loadsFull f.loadSize <;> simp [eq_comm (a := e)]

theorem react_storing_eq_error (hp : s.phase = .storing) :
    s.react w id f = .error e ↔
      (f.isNarrowStore = true ∧ (s.nextStore f = .error e ∨
        s.nextStore f = .ok true ∧ s.misjudges f = true ∧ e = .violated storeRefusal)) ∨
        ∃ size, s.closes f = some size ∧ s.storesFull size = .error e := by
  unfold react closes
  simp only [hp]
  cases f.isNarrowStore with
  | false => simp [bind_eq_error]
  | true =>
    rcases s.nextStore f with e' | (_ | _)
    · simp
    · simp [bind_eq_error]
    · cases s.misjudges f <;> simp [eq_comm (a := e)]

theorem react_eq_error : s.react w id f = .error e ↔ Stuck s f e := by
  constructor
  · intro h
    cases hp : s.phase with
    | idle | loaded =>
      unfold react at h
      simp only [hp] at h
      cases h
    | loading =>
      rcases (react_loading_eq_error hp).mp h with
        ⟨hfull, hload, hsize, rfl⟩ | ⟨size, hsettles, herror⟩
      · exact .sizelessLoad hp hfull hload hsize
      · obtain ⟨rfl, low, high, houter, offset, hoffset, hmissing⟩ := settled_eq_error.mp herror
        exact .missingPiece hp hsettles houter hoffset hmissing
    | storing =>
      rcases (react_storing_eq_error hp).mp h with
        ⟨hstore, hnext | ⟨hnext, hmis, rfl⟩⟩ | ⟨size, hcloses, herror⟩
      · obtain ⟨rfl, hregister, d, hd, hlast, hcrossed, hapart⟩ := nextStore_eq_error.mp hnext
        exact .crossedRuns hp hstore hregister hd hlast hcrossed hapart
      · exact .misjudgedStore hp hstore hnext hmis
      · obtain rfl := storesFull_eq_error herror
        exact .missingStore hp hcloses herror
  · intro h
    cases h with
    | sizelessLoad hp hfull h hsize =>
      exact (react_loading_eq_error hp).mpr (.inl ⟨hfull, h, hsize, rfl⟩)
    | missingPiece hp h houter hoffset hmissing =>
      exact (react_loading_eq_error hp).mpr
        (.inr ⟨_, h, settled_eq_error.mpr ⟨rfl, _, _, houter, _, hoffset, hmissing⟩⟩)
    | crossedRuns hp h hregister hd hlast hcrossed hapart =>
      exact (react_storing_eq_error hp).mpr (.inl ⟨h, .inl (nextStore_eq_error.mpr
        ⟨rfl, hregister, _, hd, hlast, hcrossed, hapart⟩)⟩)
    | misjudgedStore hp h hnext hmis =>
      exact (react_storing_eq_error hp).mpr (.inl ⟨h, .inr ⟨hnext, hmis, rfl⟩⟩)
    | missingStore hp h hmissing =>
      exact (react_storing_eq_error hp).mpr (.inr ⟨_, h, hmissing⟩)

theorem Stuck.notes (h : Stuck s f e) (n : Notes) : Stuck { s with notes := n } f e := by
  cases h with
  | sizelessLoad hp hfull h hsize => exact .sizelessLoad hp hfull h hsize
  | missingPiece hp h houter hoffset hmissing =>
    exact .missingPiece hp h houter hoffset hmissing
  | crossedRuns hp h hregister hd hlast hcrossed hapart =>
    exact .crossedRuns hp h hregister hd hlast hcrossed hapart
  | misjudgedStore hp h hnext hmis => exact .misjudgedStore hp h hnext hmis
  | missingStore hp h hmissing => exact .missingStore hp h hmissing

theorem stuck_look : Stuck (s.look w id) f e ↔ Stuck s f e :=
  ⟨fun h => h.notes s.notes, fun h => h.notes _⟩

theorem fails_read (hs : s.Sound) (hw : Proper w) :
    (∃ t, Fails (read w id) s e t) ↔ Stuck s (unpacked w) e :=
  (leadsTo_read hw hs).fails_iff.trans (react_eq_error.trans stuck_look)

end CopyBatch

/-! ## Runs -/

/-- From `s` a part of the instructions leads to a state in which the next instruction
    cannot be read. -/
def GetsStuck {σ : Type} (read : Word → Int → EStateM Fault σ Unit)
    (Stuck : σ → Fields → Fault → Prop) (s : σ) (fed : List (Word × Int)) (e : Fault) : Prop :=
  ∃ before x after u, fed = before ++ x :: after ∧ Runs (readAll read before) s () u
    ∧ Stuck u (unpacked x.1) e

theorem Distinct.before {before after : List (Word × Int)} {x : Word × Int}
    (h : Distinct (before ++ x :: after)) : Distinct before ∧ Proper x.1 where
  left :=
    { proper := fun y hy => h.proper y (List.mem_append_left _ hy)
      nodup := by
        have hnodup := h.nodup
        rw [List.map_append] at hnodup
        exact hnodup.sublist (List.sublist_append_left ..) }
  right := h.proper x (by simp)

variable {σ : Type} {read : Word → Int → EStateM Fault σ Unit}
variable {Stuck : σ → Fields → Fault → Prop} {Reached : σ → Prop}

theorem fails_readAll_iff_getsStuck {s : σ} {fed : List (Word × Int)} {e : Fault}
    (hfed : Distinct fed)
    (hrun : ∀ before u, Distinct before → Runs (readAll read before) s () u → Reached u)
    (hread : ∀ u w id, Reached u → Proper w →
      ((∃ t, Fails (read w id) u e t) ↔ Stuck u (unpacked w) e)) :
    (∃ t, Fails (readAll read fed) s e t) ↔ GetsStuck read Stuck s fed e := by
  rw [fails_readAll_iff]
  constructor
  · rintro ⟨before, x, after, u, rfl, hu, ht⟩
    obtain ⟨hbefore, hx⟩ := hfed.before
    exact ⟨before, x, after, u, rfl, hu, (hread u _ _ (hrun before u hbefore hu) hx).mp ht⟩
  · rintro ⟨before, x, after, u, rfl, hu, hstuck⟩
    obtain ⟨hbefore, hx⟩ := hfed.before
    exact ⟨before, x, after, u, rfl, hu,
      (hread u _ _ (hrun before u hbefore hu) hx).mpr hstuck⟩

/-- Exactly when a recogniser fails, and with which fault. Without stores of immediates
    the recogniser of zero fills does not fail. -/
theorem recognisers_fail_iff_getsStuck (fed : List (Word × Int)) (hfed : Distinct fed) :
    (∀ e, (∃ t, Fails (readAll ZeroFill.read fed) {} e t) ↔
        GetsStuck ZeroFill.read ZeroFill.Stuck {} fed e)
      ∧ (∀ e, (∃ t, Fails (readAll CopyPairs.read fed) {} e t) ↔
        GetsStuck CopyPairs.read CopyPairs.Stuck {} fed e)
      ∧ (∀ e, (∃ t, Fails (readAll CopyBatch.read fed) {} e t) ↔
        GetsStuck CopyBatch.read CopyBatch.Stuck {} fed e)
      ∧ ((∀ x ∈ fed, (unpacked x.1).isImmediateStore = false) →
        ∃ t, Runs (readAll ZeroFill.read fed) {} () t) := by
  have hzeroes : ∀ e, (∃ t, Fails (readAll ZeroFill.read fed) {} e t) ↔
      GetsStuck ZeroFill.read ZeroFill.Stuck {} fed e := fun e =>
    fails_readAll_iff_getsStuck hfed (fun _ _ hb h => (ZeroFill.moves.within_run hb h).1)
      fun _ _ _ hu hw => ZeroFill.fails_read hu hw
  refine ⟨hzeroes, fun e => ?_, fun e => ?_, fun himm => ?_⟩
  · exact fails_readAll_iff_getsStuck hfed (fun _ _ hb h => (CopyPairs.moves.within_run hb h).1)
      fun _ _ _ hu hw => CopyPairs.fails_read hu hw
  · exact fails_readAll_iff_getsStuck hfed (fun _ _ hb h => (CopyBatch.moves.within_run hb h).1)
      fun _ _ _ hu hw => CopyBatch.fails_read hu hw
  · cases hrun : EStateM.run (readAll ZeroFill.read fed) {} with
    | ok a t => exact ⟨t, hrun⟩
    | error e t =>
      obtain ⟨before, x, after, u, rfl, -, hstuck⟩ := (hzeroes e).mp ⟨t, hrun⟩
      cases hstuck with
      | immediateStore h => exact absurd h (by simp [himm x])

/-- A copy of three half words upwards to one half word higher, and a store of an immediate. -/
def ascendingCopy : List (Word × Int) :=
  [(0x6921000000000000, 0), (0x6b1a020000000000, 1), (0x6921020000000000, 2),
    (0x6b1a040000000000, 3), (0x6921040000000000, 4), (0x6b1a060000000000, 5),
    (0x620afcff00000000, 6)]

/-- The store of the immediate ends the copy, which has no run to the left, and it cannot
    be read as the store of a register either. -/
theorem recognisers_fail_iff_getsStuck_ascendingCopy :
    Distinct ascendingCopy
      ∧ (∃ t, Fails (readAll CopyPairs.read ascendingCopy) {} .missingPart t)
      ∧ (∃ t, Fails (readAll ZeroFill.read ascendingCopy) {} .outOfRange t)
      ∧ ∀ e, ¬ GetsStuck CopyBatch.read CopyBatch.Stuck {} ascendingCopy e := by
  have hfed : Distinct ascendingCopy := by
    constructor
    · unfold Proper
      decide
    · decide
  obtain ⟨hzeroes, hpairs, hbatch, -⟩ := recognisers_fail_iff_getsStuck ascendingCopy hfed
  have hsplit : ascendingCopy = ascendingCopy.take 6 ++ (0x620afcff00000000, 6) :: [] := rfl
  obtain ⟨s, hs⟩ : ∃ s, s = stateAfter (readAll CopyPairs.read (ascendingCopy.take 6)) {} :=
    ⟨_, rfl⟩
  obtain ⟨z, hz⟩ : ∃ z, z = stateAfter (readAll ZeroFill.read (ascendingCopy.take 6)) {} :=
    ⟨_, rfl⟩
  refine ⟨hfed, (hpairs _).mpr ⟨_, _, _, s, hsplit, ?_, ?_⟩,
    (hzeroes _).mpr ⟨_, _, _, z, hsplit, ?_, ?_⟩, fun e hstuck => ?_⟩
  · exact hs ▸ runs_stateAfter (by decide +kernel)
  · rw [hs]
    exact .noLeftRun (by decide +kernel) (by decide +kernel) (Or.inl (by decide +kernel))
  · exact hz ▸ runs_stateAfter (by decide +kernel)
  · rw [hz]
    exact .immediateStore (by decide +kernel) (by decide +kernel)
  · obtain ⟨t, ht⟩ := (hbatch e).mpr hstuck
    have hfinishes : finishes (readAll CopyBatch.read ascendingCopy) {} = true := by
      decide +kernel
    rw [finishes, ht] at hfinishes
    cases hfinishes

end BpfLanes.Peephole
