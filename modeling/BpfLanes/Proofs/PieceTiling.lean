import BpfLanes.Proofs.SpanForms
import Mathlib.Data.List.Count
import Mathlib.Data.List.Nodup
import Mathlib.Data.List.Perm.Basic

/-! # Pieces of a span

A span grows piece by piece (`Grown`). When all pieces are of one size, those in its
two runs stand side by side, and the others were lost when a run was started anew
(`Tiled`). A span of pieces of one or of two bytes that is taken to be complete has
lost none: its pieces cover six bytes, each of them once.
-/

namespace BpfLanes.Peephole

variable {a : Int}

variable {low size offset : Int} {n m : Nat}

/-! ## Strips -/

/-- The offsets of `n` pieces side by side. -/
def strip (low size : Int) (n : Nat) : List Int :=
  (List.range n).map fun (k : Nat) => low + k * size

theorem mem_strip : offset ∈ strip low size n ↔ ∃ k < n, offset = low + (k : Int) * size := by
  simp only [strip, List.mem_map, List.mem_range, eq_comm]

namespace Span

variable {first high σ : Int}

variable {s : Span} {d : Direction} {os : List Int} {ps : List (Int × Int)}

/-- The test of a store. In a backward copy the test and the step differ in how far a
    right run may be away. -/
def storeFits (s : Span) (d : Direction) (count : Nat) (offset size : Int) : Prop :=
  s.continues d false offset size (piecesOf size - count * size) = true
    ∧ (d = .backward →
      s.continues .backward false offset size ((piecesOf size - count) * size) = true)

end Span
end BpfLanes.Peephole
