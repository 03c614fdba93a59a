import BpfLanes.Graph.Digraph
import BpfLanes.Position

/-! # Dominance

A block dominates another when every way from the start to the other passes
through it. The sets are found by starting from "all blocks" and intersecting
over predecessors until nothing changes.
-/

namespace BpfLanes.Dominance

/-- The numbers that are in every list; lists hold ascending numbers. -/
def common : List (List Int) → List Int
  | [] => []
  | xs :: rest => xs.filter fun x => rest.all fun ys => ys.contains x

def insert (x : Int) : List Int → List Int
  | [] => [x]
  | y :: ys => if x < y then x :: y :: ys else if x = y then y :: ys else y :: insert x ys

/-- What one pass over the blocks gives. -/
inductive Pass where
  /-- a block without predecessors was met -/
  | givenUp
  | done (sets : Array (List Int)) (changed : Bool)

def pass (g : Digraph) : List Int → Array (List Int) → Bool → Except Fault Pass
  | [], sets, changed => return .done sets changed
  | b :: rest, sets, changed => do
    let above ← (← g.predecessors b).mapM fun p => Position.get sets p
    if above.isEmpty then return .givenUp
    let new := insert b (common above)
    let old ← Position.get sets b
    if new == old then pass g rest sets changed
    else pass g rest (← Position.set sets b new) true

def passes (g : Digraph) (order : List Int) :
    Nat → Array (List Int) → Except Fault (Option (Array (List Int)))
  | 0, sets => return some sets
  | fuel + 1, sets => do
    match ← pass g order sets false with
    | .givenUp => return none
    | .done sets changed => if changed then passes g order fuel sets else return some sets

def find (size : Nat) (g : Digraph) : Except Fault (Option (Array (List Int))) := do
  let order ← g.smallestFirst
  let all := (List.range size).map fun (b : Nat) => (b : Int)
  match order with
  | [] => throw .outOfRange
  | first :: rest =>
    let sets ← Position.set (Array.replicate size all) first [first]
    passes g rest.dropLast (size * size + 1) sets

end BpfLanes.Dominance
