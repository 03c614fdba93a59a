import BpfLanes.Workload.Programs

/-! # Scores of instruction streams

A stream repeats a group of sequences so many times; a negative number of
times is none. Its score grows by the same amount with each repetition.
-/

namespace BpfLanes.Workload

/-- How a stream is scored. -/
structure StreamScore where
  each : Nat
  once : Nat := 0
  /-- a stream without repetitions scores nothing at all -/
  needsOne : Bool := false
  deriving DecidableEq, Repr, Inhabited

namespace StreamScore

def of (s : StreamScore) (n : Int) : Nat :=
  if s.needsOne && n ≤ 0 then 0 else s.each * n.toNat + s.once

theorem of_succ (s : StreamScore) (n : Nat) :
    s.of (n + 2 : Nat) = s.of (n + 1 : Nat) + s.each := by
  have h (k : Nat) : ¬ ((k + 1 : Nat) : Int) ≤ 0 := by omega
  simp only [of, h (n + 1), h n, decide_false, Bool.and_false, Bool.false_eq_true, if_false,
    Int.toNat_natCast, Nat.mul_add]
  omega

end StreamScore

/-- Streams of copies in which loads and stores alternate. -/
def pairedCopies : StreamScore := { each := 24 }

def batchedCopies : StreamScore := { each := 23, once := 20 }

def zeroFills : StreamScore := { each := 11, once := 2, needsOne := true }

def streamResult (s : StreamScore) (n : Int) : Except Fault Doc := .ok (count (s.of n))

end BpfLanes.Workload
