import BpfLanes.Fault

/-! # Directed graphs

Nodes are numbers. Nodes and edges keep the order in which they were added,
and neighbours are listed in the order of their edges. There are two
topological orders: smallest node first, and generation by generation.
-/

namespace BpfLanes

/-- A directed graph. -/
structure Digraph where
  nodes : List Int := []
  edges : List (Int × Int) := []
  deriving DecidableEq, Repr, Inhabited

namespace Digraph

def addNode (g : Digraph) (n : Int) : Digraph :=
  if g.nodes.contains n then g else { g with nodes := g.nodes ++ [n] }

/-- Adds an edge and the nodes it needs; an edge that is there keeps its place. -/
def addEdge (g : Digraph) (e : Int × Int) : Digraph :=
  let g := (g.addNode e.1).addNode e.2
  if g.edges.contains e then g else { g with edges := g.edges ++ [e] }

/-- A graph with the given nodes and edges, added in order. -/
def ofLists (nodes : List Int) (edges : List (Int × Int)) : Digraph :=
  edges.foldl addEdge (nodes.foldl addNode {})

def after (g : Digraph) (n : Int) : List Int :=
  (g.edges.filter fun e => e.1 == n).map Prod.snd

def before (g : Digraph) (n : Int) : List Int :=
  (g.edges.filter fun e => e.2 == n).map Prod.fst

def successors (g : Digraph) (n : Int) : Except Fault (List Int) :=
  if g.nodes.contains n then .ok (g.after n) else .error .unknownNode

def predecessors (g : Digraph) (n : Int) : Except Fault (List Int) :=
  if g.nodes.contains n then .ok (g.before n) else .error .unknownNode

/-- The graph with every edge turned around. The edges are listed by the nodes
    they now end in. -/
def reverse (g : Digraph) : Digraph :=
  { nodes := g.nodes
    edges := g.nodes.flatMap fun u => (g.after u).map fun v => (v, u) }

/-! ## Smallest node first -/

/-- Takes nodes away, always the first that no edge between the remaining ones
    leads to. Nothing is returned when every remaining node has such an edge. -/
def peel : Nat → List Int → List (Int × Int) → Option (List Int)
  | _, [], _ => some []
  | 0, _ :: _, _ => none
  | fuel + 1, remaining, edges =>
    match remaining.find? fun n => !edges.any fun e => e.2 == n with
    | none => none
    | some n =>
      (peel fuel (remaining.erase n) (edges.filter fun e => e.1 != n)).map (n :: ·)

/-- Puts a node before the first one that is not smaller. -/
def insertNode (n : Int) : List Int → List Int
  | [] => [n]
  | x :: xs => if n ≤ x then n :: x :: xs else x :: insertNode n xs

def ascending (nodes : List Int) : List Int :=
  nodes.foldr insertNode []

/-- The topological order that always takes the smallest node it can. -/
def smallestFirst (g : Digraph) : Except Fault (List Int) :=
  match peel g.nodes.length (ascending g.nodes) g.edges with
  | some order => .ok order
  | none => .error .cyclicGraph

/-! ## Generation by generation -/

/-- Takes the edges that leave a generation. The next generation holds the nodes
    that lose their last incoming edge, in the order in which they lose it. -/
def nextGeneration (g : Digraph) (generation : List Int) (edges : List (Int × Int)) :
    List Int × List (Int × Int) :=
  generation.foldl (fun acc n =>
    (g.after n).foldl (fun acc c =>
      let edges := acc.2.erase (n, c)
      if edges.any fun e => e.2 == c then (acc.1, edges) else (acc.1 ++ [c], edges)) acc)
    ([], edges)

/-- The nodes of a generation, then those of the generations after it. -/
def descend (g : Digraph) : Nat → List Int → List (Int × Int) → List Int
  | 0, _, _ => []
  | _, [], _ => []
  | fuel + 1, generation, edges =>
    let next := g.nextGeneration generation edges
    generation ++ g.descend fuel next.1 next.2

/-- The topological order by generations: first the nodes without incoming edges,
    then those that are free once these are gone, and so on. -/
def byGenerations (g : Digraph) : Except Fault (List Int) :=
  let first := g.nodes.filter fun n => !g.edges.any fun e => e.2 == n
  let order := g.descend g.nodes.length first g.edges
  if order.length == g.nodes.length then .ok order else .error .cyclicGraph

end Digraph
end BpfLanes
