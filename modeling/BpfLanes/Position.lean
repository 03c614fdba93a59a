import BpfLanes.Fault

/-! # Signed positions

A position counts from the front of a sequence when it is not negative and
from its end when it is negative: `-1` is the last element.
-/

namespace BpfLanes.Position

variable {k size : Nat}

/-- The index that a signed position stands for in a sequence of `size` elements. -/
def resolve (size : Nat) (i : Int) : Option Nat :=
  if 0 ≤ i then
    if i < size then some i.toNat else none
  else if 0 ≤ i + size then some (i + size).toNat
  else none

def get? {α : Type} (xs : Array α) (i : Int) : Option α :=
  (resolve xs.size i).bind fun k => xs[k]?

/-- The element at a signed position; a position outside the sequence is a fault. -/
def get {α : Type} (xs : Array α) (i : Int) : Except Fault α :=
  match get? xs i with
  | some a => .ok a
  | none => .error .outOfRange

def set {α : Type} (xs : Array α) (i : Int) (a : α) : Except Fault (Array α) :=
  match resolve xs.size i with
  | some k => .ok (xs.setIfInBounds k a)
  | none => .error .outOfRange

def takeBefore {α : Type} (xs : Array α) (i : Int) : Array α :=
  if 0 ≤ i then xs.extract 0 i.toNat
  else xs.extract 0 (i + xs.size).toNat

def takeFrom {α : Type} (xs : Array α) (i : Int) : Array α :=
  if 0 ≤ i then xs.extract i.toNat xs.size
  else xs.extract (i + xs.size).toNat xs.size

theorem resolve_lt {i : Int} (h : resolve size i = some k) : k < size := by
  unfold resolve at h
  split at h
  · split at h
    · simp only [Option.some.injEq] at h
      omega
    · contradiction
  · split at h
    · simp only [Option.some.injEq] at h
      omega
    · contradiction

@[simp] theorem resolve_natCast (h : k < size) : resolve size (k : Int) = some k := by
  simp [resolve, h]

end BpfLanes.Position
