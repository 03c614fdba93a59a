import BpfLanes.Proofs.RangeRecords

/-! # Ends of live ranges

A read ends the range of a value if it is the last use of that value, the end is still
open, and the value is the oldest one that is pending in its register. A value behind an
older pending one stays open, and its register then counts as taken in every row.
-/

namespace BpfLanes.LiveRanges

/-- What can be done to the record of live ranges. -/
inductive Op where
  | define (d : LiveRange)
  | rename (old new definedBy row : Int)
  | read (registers : List Int) (row : Int) (user : Option Int)
  | leaveBlock (stop : Int)

/-- The record after an operation; one that fails leaves it as it is. -/
def apply (rs : LiveRanges) : Op → LiveRanges
  | .define d => rs.define d
  | .rename old new definedBy row => rs.rename old new definedBy row
  | .read registers row user => rs.read registers row user
  | .leaveBlock stop => (rs.leaveBlock stop).toOption.getD rs

/-- The record after some operations, from the empty one on. -/
def after (ops : List Op) : LiveRanges :=
  ops.foldl apply []

/-- The place in the record of the oldest value in a register that is needed at a row or
    later. -/
def oldest? (rs : LiveRanges) (register row : Int) : Option Nat :=
  rs.findIdx? fun r => r.register == register && r.reaches row

/-- A value that is read in a row by `user`: it ends there if this is its last use and its end
    is open. -/
def endAt (row : Int) (user : Option Int) (x : LiveRange) : LiveRange :=
  if x.lastUse = user ∧ x.endRow = none then { x with endRow := some row } else x

/-- The value is in one of some registers, `user` uses it last, and its end is open. -/
def Awaits (registers : List Int) (user : Option Int) (x : LiveRange) : Prop :=
  x.register ∈ registers ∧ x.lastUse = user ∧ x.endRow = none

variable {rs : LiveRanges} {p q : LiveRange → Bool} {f : LiveRange → LiveRange} {x : LiveRange}
  {registers : List Int} {register row : Int} {user : Option Int} {k : Nat}

/-! ## What a read changes -/

theorem getElem?_modifyFirst :
    (modifyFirst p f rs)[k]? = if rs.findIdx? p = some k then rs[k]?.map f else rs[k]? := by
  induction rs generalizing k with
  | nil => simp [modifyFirst]
  | cons r rs ih =>
    rw [modifyFirst, List.findIdx?_cons]
    by_cases hp : p r = true
    · cases k <;> simp [hp]
    · cases k with
      | zero => simp [hp]
      | succ k => simp [hp, ih]

theorem findIdx?_modifyFirst (hf : ∀ x, p x = true → q (f x) = q x) :
    (modifyFirst p f rs).findIdx? q = rs.findIdx? q := by
  induction rs with
  | nil => rfl
  | cons r rs ih =>
    rw [modifyFirst]
    by_cases hp : p r = true
    · rw [if_pos hp, List.findIdx?_cons, List.findIdx?_cons, hf r hp]
    · rw [if_neg hp, List.findIdx?_cons, List.findIdx?_cons, ih]

theorem readOne_eq : rs.readOne register row user =
    modifyFirst (fun r => r.register == register && r.reaches row) (endAt row user) rs := by
  unfold readOne pending?
  induction rs with
  | nil => rfl
  | cons r rs ih =>
    rw [List.find?_cons, modifyFirst, modifyFirst]
    by_cases hp : (r.register == register && r.reaches row) = true
    · by_cases hend : r.lastUse = user ∧ r.endRow = none
      · simp [hp, endAt, hend]
      · simp [hp, endAt, hend]
    · rw [if_neg hp, if_neg hp, ← ih, eq_false_of_ne_true hp]
      generalize rs.find? _ = found
      cases found with
      | none => rfl
      | some y =>
        dsimp only
        split <;> rfl

theorem getElem?_readOne : (rs.readOne register row user)[k]? =
    if rs.oldest? register row = some k then rs[k]?.map (endAt row user) else rs[k]? := by
  rw [readOne_eq, getElem?_modifyFirst]
  rfl

/-- A value that ends in a row is still pending there. -/
theorem reaches_endAt (h : x.reaches row = true) : (endAt row user x).reaches row = true := by
  unfold endAt
  split
  · simp [LiveRange.reaches]
  · exact h

theorem register_endAt : (endAt row user x).register = x.register := by
  unfold endAt
  split <;> rfl

theorem endAt_endAt : endAt row user (endAt row user x) = endAt row user x := by
  unfold endAt
  split <;> simp_all

theorem not_awaits_endAt : ¬ Awaits registers user (endAt row user x) := by
  rintro ⟨_, huse, hopen⟩
  unfold endAt at huse hopen
  split at hopen
  · cases hopen
  · next hnot =>
    rw [if_neg hnot] at huse
    exact hnot ⟨huse, hopen⟩

theorem oldest?_readOne {register' : Int} :
    (rs.readOne register row user).oldest? register' row = rs.oldest? register' row := by
  rw [readOne_eq]
  refine findIdx?_modifyFirst ?_
  intro x hx
  have hreaches : x.reaches row = true := by simp_all
  rw [register_endAt, reaches_endAt hreaches, hreaches]

theorem register_of_oldest? (h : rs.oldest? register row = some k) (hx : rs[k]? = some x) :
    x.register = register := by
  obtain ⟨hk, htest, _⟩ := List.findIdx?_eq_some_iff_getElem.mp h
  obtain ⟨_, rfl⟩ := List.getElem?_eq_some_iff.mp hx
  simp only [Bool.and_eq_true, beq_iff_eq] at htest
  exact htest.1

/-- A read touches the oldest pending value of each register that it names. -/
theorem getElem?_read : (rs.read registers row user)[k]? = rs[k]?.map fun x =>
    if x.register ∈ registers ∧ rs.oldest? x.register row = some k then endAt row user x else x := by
  induction registers generalizing rs with
  | nil => simp [read]
  | cons r registers ih =>
    show ((rs.readOne r row user).read registers row user)[k]? = _
    rw [ih]
    simp only [oldest?_readOne]
    rw [getElem?_readOne]
    cases hx : rs[k]? with
    | none => simp
    | some x =>
      by_cases hfirst : rs.oldest? r row = some k
      · -- a value that was ended is not ended again
        have hr := register_of_oldest? hfirst hx
        simp [register_endAt, hr, hfirst, endAt_endAt]
      · rw [if_neg hfirst]
        have hr : x.register = r → rs.oldest? x.register row ≠ some k := by
          rintro rfl
          exact hfirst
        by_cases hold : rs.oldest? x.register row = some k
        · simp [hold, show x.register ≠ r from fun h => hr h hold]
        · simp [hold]

/-! ## What the record reports -/

theorem conflict_isSome (hx : x ∈ rs) (hlive : x.outlives row = true) :
    (rs.conflict? x.register row).isSome = true := by
  unfold conflict?
  rw [List.find?_isSome]
  exact ⟨x, List.mem_reverse.mpr hx, by simp [hlive]⟩

/-- The record names the register of an open value in every row, and a value with an end no
    more from its end row on. -/
def Reports (rs : LiveRanges) (x : LiveRange) : Prop :=
  match x.endRow with
  | none => ∀ row, (rs.conflict? x.register row).isSome = true ∧ x.register ∈ rs.taken row
  | some last => ∀ row, last ≤ row → rs.conflict? x.register row ≠ some x ∧
      (x.register ∈ rs.taken row → ∃ y ∈ rs, y ≠ x ∧ y.register = x.register ∧ y.outlives row = true)

theorem reports (hx : x ∈ rs) : rs.Reports x := by
  unfold Reports
  split
  · next hopen =>
    intro row
    have hlive : x.outlives row = true := by simp [LiveRange.outlives, hopen]
    exact ⟨conflict_isSome hx hlive, mem_taken.mpr ⟨x, hx, rfl, hlive⟩⟩
  · next last hend =>
    intro row hrow
    have hdead : ¬ x.outlives row = true := by
      simp [LiveRange.outlives, hend]
      omega
    refine ⟨fun h => hdead (conflict_outlives h), ?_⟩
    intro htaken
    obtain ⟨y, hy, hreg, hlive⟩ := mem_taken.mp htaken
    refine ⟨y, hy, ?_, hreg, hlive⟩
    rintro rfl
    exact hdead hlive

/-- After any operations, a read by the instruction `user` in a row ends the values whose last
    use it is, apart from those behind an older value that is pending in their register.
    These stay open. An ended value is reported no more from its end row on, and one that
    stays open is reported in every row. -/
theorem last_use_closes_iff (ops : List Op) (registers : List Int) (row : Int)
    (user : Option Int) :
    ((∀ x ∈ after (ops ++ [.read registers row user]), ¬ Awaits registers user x) ↔
      ∀ (k : Nat) (x : LiveRange), (after ops)[k]? = some x → Awaits registers user x →
        (after ops).oldest? x.register row = some k) ∧
    (∀ (k : Nat) (x : LiveRange), (after ops)[k]? = some x → Awaits registers user x →
      (after (ops ++ [.read registers row user]))[k]? =
        some (if (after ops).oldest? x.register row = some k then { x with endRow := some row }
          else x)) ∧
    ∀ x ∈ after (ops ++ [.read registers row user]),
      (after (ops ++ [.read registers row user])).Reports x := by
  have hafter : after (ops ++ [.read registers row user]) =
      (after ops).read registers row user := by
    unfold after
    rw [List.foldl_append]
    rfl
  rw [hafter]
  have hread : ∀ (k : Nat) (x : LiveRange), (after ops)[k]? = some x → Awaits registers user x →
      ((after ops).read registers row user)[k]? =
        some (if (after ops).oldest? x.register row = some k then { x with endRow := some row }
          else x) := by
    rintro k x hx ⟨hreg, huse, hopen⟩
    rw [getElem?_read, hx]
    simp [hreg, endAt, huse, hopen]
  refine ⟨⟨?_, ?_⟩, hread, fun x hx => reports hx⟩
  · intro hclosed k x hx hwait
    by_cases hold : (after ops).oldest? x.register row = some k
    · exact hold
    · have hkept := hread k x hx hwait
      rw [if_neg hold] at hkept
      exact absurd hwait (hclosed x (List.mem_of_getElem? hkept))
  · intro hall x hx hwait
    obtain ⟨k, hk⟩ := List.mem_iff_getElem?.mp hx
    rw [getElem?_read] at hk
    obtain ⟨y, hy, rfl⟩ := Option.map_eq_some_iff.mp hk
    split at hwait
    · exact not_awaits_endAt hwait
    · next hnot => exact hnot ⟨hwait.1, hall k y hy hwait⟩

-- the second value is used last here, and stays open behind the first
example : after [.define ⟨1, 0, some 10, 0, none⟩, .define ⟨1, 1, some 5, 1, none⟩,
    .read [1] 2 (some 5)] = [⟨1, 0, some 10, 0, none⟩, ⟨1, 1, some 5, 1, none⟩] := by
  decide

end BpfLanes.LiveRanges
