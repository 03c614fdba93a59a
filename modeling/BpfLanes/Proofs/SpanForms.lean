import BpfLanes.Proofs.FieldEdits
import BpfLanes.Proofs.RecogniserRuns

/-! # Forms of spans

Which of its two runs a span has is settled by the direction of the copy: one piece
makes a left run, a forward copy always has a right run and a backward copy always
has a left one. In these forms every question about a span has an answer, and a
piece that passes the test can be added.
-/

namespace BpfLanes.Peephole

variable {d : Direction} {s : Span}

variable {offset size : Int}

/-- How many pieces of a size make six bytes. -/
def piecesOf (size : Int) : Int := Int.tdiv 6 size

theorem pieces_eq (h : 0 < size) : pieces (some size) = .ok (piecesOf size) := by
  unfold pieces need
  rw [ok_bind, if_neg (by omega)]
  rfl

namespace Span

/-- The runs that a span has while a copy goes in a direction. Runs start from offsets. -/
inductive Formed : Direction → Span → Prop
  | single {low high : Int} (h : Field.offset.Takes low) :
      Formed .pending ⟨some low, some high, none, none⟩
  | forward {low high : Int} (h : Field.offset.Takes low) :
      Formed .forward ⟨none, none, some low, some high⟩
  | forwardSplit {low high start stop : Int} (h : Field.offset.Takes low)
      (hstart : Field.offset.Takes start) :
      Formed .forward ⟨some low, some high, some start, some stop⟩
  | backward {low high : Int} (h : Field.offset.Takes low) :
      Formed .backward ⟨some low, some high, none, none⟩
  | backwardSplit {low high start stop : Int} (h : Field.offset.Takes low)
      (hstart : Field.offset.Takes start) :
      Formed .backward ⟨some low, some high, some start, some stop⟩

/-- The bounds of a span that is complete. -/
def outer? : Span → Option (Int × Int)
  | ⟨none, none, some low, some high⟩ => if high - low = 6 then some (low, high) else none
  | ⟨some low, some high, none, none⟩ => if high - low = 6 then some (low, high) else none
  | ⟨some low, some high, some start, some stop⟩ =>
    if stop - low = 6 ∧ high = start then some (low, stop) else none
  | _ => none

theorem outer?_length {low high : Int} (h : s.outer? = some (low, high)) : high - low = 6 := by
  unfold outer? at h
  split at h
  · split at h
    · next hsix =>
      obtain ⟨rfl, rfl⟩ := Prod.mk.inj (Option.some.inj h)
      exact hsix
    · cases h
  · split at h
    · next hsix =>
      obtain ⟨rfl, rfl⟩ := Prod.mk.inj (Option.some.inj h)
      exact hsix
    · cases h
  · split at h
    · next hsix =>
      obtain ⟨rfl, rfl⟩ := Prod.mk.inj (Option.some.inj h)
      exact hsix.1
    · cases h
  · cases h

/-- Whether so many pieces of a size are all six bytes. -/
def isFull (s : Span) (d : Direction) (count size : Int) : Bool :=
  count == piecesOf size && d != .pending && s.outer?.isSome

theorem isFull_iff {count : Int} : s.isFull d count size = true ↔
      count = piecesOf size ∧ d ≠ .pending ∧ ∃ low high, s.outer? = some (low, high) := by
  simp only [isFull, Bool.and_eq_true, beq_iff_eq, bne_iff_ne, Option.isSome_iff_exists,
    Prod.exists, and_assoc]

/-- Whether a piece passes the test for the next one. -/
def continues (s : Span) (d : Direction) (full : Bool) (offset size reach : Int) : Bool :=
  match d with
  | .pending => s.touches offset size
  | .forward => s.leftHigh == some offset || s.rightHigh == some offset
      || (!full && s.rightHigh == some (offset + piecesOf size))
  | .backward => s.leftLow == some (offset + size) || s.rightLow == some (offset + size)
      || (!full && s.leftHigh == some (offset + size - reach))

/-- The direction and the span with one more piece. -/
def push (s : Span) (d : Direction) (offset size : Int) : Direction × Span :=
  match d with
  | .pending =>
    if s.leftLow = some (offset + size) then (.backward, { s with leftLow := some offset })
    else (.forward, s.turnForward (offset + size))
  | .forward =>
    if s.leftHigh = some offset then (.forward, { s with leftHigh := some (offset + size) })
    else if s.rightHigh = some offset then
      (.forward, { s with rightHigh := some (offset + size) })
    else (.forward, { s with leftLow := some offset, leftHigh := some (offset + size) })
  | .backward =>
    if s.leftLow = some (offset + size) then (.backward, { s with leftLow := some offset })
    else if s.rightLow = some (offset + size) then
      (.backward, { s with rightLow := some offset })
    else (.backward, { s with rightLow := some offset, rightHigh := some (offset + size) })

theorem formed_start (h : Field.offset.Takes offset) :
    Formed .pending (start {} offset size) :=
  .single h

theorem continues_of_full {full : Bool} {reach : Int}
    (h : s.continues d full offset size reach = true) :
    s.continues d false offset size reach = true := by
  cases d with
  | pending => exact h
  | forward =>
    unfold continues at h ⊢
    cases full <;> simp_all
  | backward =>
    unfold continues at h ⊢
    cases full <;> simp_all

theorem push_heading (s : Span) (hd : d ≠ .pending) (offset size : Int) :
    (s.push d offset size).1 = d := by
  cases d with
  | pending => exact absurd rfl hd
  | forward | backward =>
    unfold push
    dsimp only
    repeat' split
    all_goals rfl

theorem push_heading_ne (s : Span) (d : Direction) (offset size : Int) :
    (s.push d offset size).1 ≠ .pending := by
  cases d with
  | pending =>
    unfold push
    dsimp only
    split <;> exact nofun
  | forward | backward =>
    rw [push_heading _ (by decide)]
    decide

namespace Formed

variable {low high : Int}

variable {p : Progress}

theorem takes_left (h : Formed d s) (hlow : s.leftLow = some low) : Field.offset.Takes low := by
  cases h <;> cases hlow <;> assumption

theorem push_formed (h : Formed d s) (ho : Field.offset.Takes offset) (size : Int) :
    Formed (s.push d offset size).1 (s.push d offset size).2 := by
  cases h with
  | single h =>
    unfold push
    dsimp only
    split
    · exact .backward ho
    · exact .forward h
  | forward h =>
    unfold push
    dsimp only
    rw [if_neg nofun]
    split
    · exact .forward h
    · exact .forwardSplit ho h
  | forwardSplit h hstart =>
    unfold push
    dsimp only
    repeat' split
    · exact .forwardSplit h hstart
    · exact .forwardSplit h hstart
    · exact .forwardSplit ho hstart
  | backward h =>
    unfold push
    dsimp only
    split
    · exact .backward ho
    · rw [if_neg nofun]
      exact .backwardSplit h ho
  | backwardSplit h hstart =>
    unfold push
    dsimp only
    repeat' split
    · exact .backwardSplit ho hstart
    · exact .backwardSplit h ho
    · exact .backwardSplit h ho

theorem turnForward_formed (h : Formed .pending s) : Formed .forward (s.turnForward high) := by
  cases h with
  | single h => exact .forward h

theorem turnBackward_formed (h : Formed .pending s) : Formed .backward s := by
  cases h with
  | single h => exact .backward h

theorem outer_forward (h : Formed .forward s) (houter : s.outer? = some (low, high)) :
    (if s.leftLow.isNone && s.leftHigh.isNone then some (s.rightLow, s.rightHigh)
      else some (s.leftLow, s.rightHigh)) = some (some low, some high) := by
  cases h <;> simp_all [outer?]

theorem outer_backward (h : Formed .backward s) (houter : s.outer? = some (low, high)) :
    (if s.rightLow.isNone && s.rightHigh.isNone then some (s.leftLow, s.leftHigh)
      else some (s.leftLow, s.rightHigh)) = some (some low, some high) := by
  cases h <;> simp_all [outer?]

theorem outer_low (h : Formed d s) (houter : s.outer? = some (low, high)) :
    s.leftLow.or s.rightLow = some low ∧ Field.offset.Takes low := by
  cases h <;> simp_all [outer?]

/-! ## Questions -/

theorem bounds?_eq (h : Formed d s) (hd : p.direction = some d) (hsize : p.size = some size)
    (hpos : 0 < size) :
    s.bounds? p = .ok (if p.count = piecesOf size ∧ d ≠ .pending then
      s.outer?.map fun b => (some b.1, some b.2) else none) := by
  unfold bounds?
  rw [hsize, pieces_eq hpos, hd]
  simp only [ok_bind]
  by_cases hcount : p.count = piecesOf size
  · cases h <;> simp [hcount, sixApart, need, outer?] <;> split <;> simp_all
  · simp [hcount]

theorem complete_eq (h : Formed d s) (hd : p.direction = some d) (hsize : p.size = some size)
    (hpos : 0 < size) : s.complete p = .ok (s.isFull d p.count size) := by
  unfold complete isFull
  rw [h.bounds?_eq hd hsize hpos, ok_bind]
  by_cases hcount : p.count = piecesOf size <;> by_cases hp : d = .pending <;> simp [hcount, hp]

theorem continuesForward_eq (h : Formed .forward s) (hpos : 0 < size) (full : Bool)
    (reach : Int) :
    s.continuesForward (.ok full) offset size =
      .ok (s.continues .forward full offset size reach) := by
  obtain ⟨high, hhigh⟩ : ∃ high, s.rightHigh = some high := by cases h <;> exact ⟨_, rfl⟩
  unfold continuesForward continues
  rw [pieces_eq hpos, hhigh]
  have hmoved : (offset == high - piecesOf size) = (high == offset + piecesOf size) := by
    rw [Bool.eq_iff_iff, beq_iff_eq, beq_iff_eq]
    omega
  cases hnext : s.leftHigh == some offset || some high == some offset with
  | true => rfl
  | false => cases full <;> simp [need, hmoved]

theorem continuesBackward_eq (h : Formed .backward s) (full : Bool) (reach : Int) :
    s.continuesBackward (.ok full) offset size reach =
      .ok (s.continues .backward full offset size reach) := by
  obtain ⟨high, hhigh⟩ : ∃ high, s.leftHigh = some high := by cases h <;> exact ⟨_, rfl⟩
  unfold continuesBackward continues
  rw [hhigh]
  have hmoved : (offset + size == high + reach) = (high == offset + size - reach) := by
    rw [Bool.eq_iff_iff, beq_iff_eq, beq_iff_eq]
    omega
  cases hnext : s.leftLow == some (offset + size) || s.rightLow == some (offset + size) with
  | true => rfl
  | false => cases full <;> simp [need, hmoved]

theorem continuesForward_error (e : Fault) (reach : Int) :
    s.continuesForward (.error e) offset size =
      if s.continues .forward true offset size reach then .ok true else .error e := by
  unfold continuesForward continues
  cases s.leftHigh == some offset || s.rightHigh == some offset <;> rfl

theorem continuesBackward_error (e : Fault) (reach : Int) :
    s.continuesBackward (.error e) offset size reach =
      if s.continues .backward true offset size reach then .ok true else .error e := by
  unfold continuesBackward continues
  cases s.leftLow == some (offset + size) || s.rightLow == some (offset + size) <;> rfl

/-! ## One more piece -/

theorem second_eq (s : Span) (offset size : Int) (refusal : String) :
    s.second offset size refusal =
      if s.touches offset size then .ok (s.push .pending offset size)
      else .error (.violated refusal) := by
  unfold second push touches
  by_cases hleft : s.leftLow = some (offset + size)
  · simp [hleft]
  · by_cases hright : s.leftHigh = some offset <;> simp [hleft, hright]

theorem extendForward_eq (h : Formed .forward s) (hpos : 0 < size) (offset reach : Int)
    (refusal : String) :
    s.extendForward offset size refusal =
      if s.continues .forward false offset size reach then .ok (s.push .forward offset size).2
      else .error (.violated refusal) := by
  obtain ⟨high, hhigh⟩ : ∃ high, s.rightHigh = some high := by cases h <;> exact ⟨_, rfl⟩
  unfold extendForward continues push
  rw [pieces_eq hpos, hhigh]
  have hmoved : offset = high - piecesOf size ↔ high = offset + piecesOf size := by omega
  by_cases hleft : s.leftHigh = some offset
  · simp [hleft]
  · by_cases hright : high = offset
    · simp [hleft, hright]
    · simp [hleft, hright, need, hmoved]

theorem extendBackward_eq (h : Formed .backward s) (hpos : 0 < size) (offset count : Int)
    (refusal : String) :
    s.extendBackward offset size count refusal =
      if s.continues .backward false offset size ((piecesOf size - count) * size) then
        .ok (s.push .backward offset size).2
      else .error (.violated refusal) := by
  obtain ⟨high, hhigh⟩ : ∃ high, s.leftHigh = some high := by cases h <;> exact ⟨_, rfl⟩
  unfold extendBackward continues push
  rw [pieces_eq hpos, hhigh]
  have hmoved : offset + size = high + (piecesOf size - count) * size ↔
      high = offset + size - (piecesOf size - count) * size := by omega
  by_cases hleft : s.leftLow = some (offset + size)
  · simp [hleft]
  · by_cases hright : s.rightLow = some (offset + size)
    · simp [hleft, hright]
    · simp [hleft, hright, need, hmoved]

end Formed
end Span
end BpfLanes.Peephole
