import BpfLanes.Compilation

/-! # Dependences inside a block

The instructions of a block are the nodes `0 … m-1` of a graph. An edge leads
from the instruction that writes a register to those that read its value.
Node `-1` stands for everything before the block and node `m` for everything
after it.
-/

namespace BpfLanes.Dependence

/-- The instructions, counted from `n` on, that read a register up to the first
    that writes it. -/
def readers (r : Int) : Nat → List Instr → List Nat
  | _, [] => []
  | n, i :: rest =>
    (if i.reads r then [n] else []) ++ (if i.writes r then [] else readers r (n + 1) rest)

def lastWriter? (r : Int) (body : List Instr) : Option Nat :=
  (body.zipIdx.reverse.find? fun (i, _) => i.writes r).map Prod.snd

def entryEdges (liveIn : RegMap) (body : List Instr) : List (Int × Int) :=
  liveIn.flatMap fun (r, _) => (readers r 0 body).map fun (n : Nat) => (-1, (n : Int))

def exitEdges (liveOut : RegMap) (body : List Instr) : List (Int × Int) :=
  liveOut.flatMap fun (r, _) =>
    (lastWriter? r body).toList.map fun (n : Nat) => ((n : Int), (body.length : Int))

/-- Edges from each instruction that writes a register, counted from `n` on. -/
def innerEdges : Nat → List Instr → List (Int × Int)
  | _, [] => []
  | n, i :: rest =>
    (match i.output with
      | some o => (readers o.register (n + 1) rest).map fun (j : Nat) => ((n : Int), (j : Int))
      | none => [])
    ++ innerEdges (n + 1) rest

def nodes (m : Nat) : List Int :=
  -1 :: (m : Int) :: (List.range m).map fun (n : Nat) => (n : Int)

/-- The graph of a sequence of instructions, which must not be empty. A branch at
    its end comes before everything after the block. -/
def graph (liveIn liveOut : RegMap) (body : List Instr) : Except Fault Digraph := do
  let m := body.length
  let some last := body.getLast? | throw .outOfRange
  let closing := if (← Fields.decode last.word).isBranch then [((m : Int) - 1, (m : Int))] else []
  return Digraph.ofLists (nodes m)
    (entryEdges liveIn body ++ exitEdges liveOut body ++ closing ++ innerEdges 0 body)

def ofBlock (blk : Block) : CompileM Digraph := do
  graph blk.liveIn blk.liveOut (← Compilation.body blk)

def draw (b : Int) (blk : Block) (g : Digraph) : CompileM Unit := do
  let c ← get
  let body := (c.bodyOf blk).toArray
  let file := match c.options.name with
    | some name => name ++ "_B" ++ toString b ++ ".png"
    | none => "B" ++ toString b ++ ".png"
  let nodes ← g.nodes.mapM fun (n : Int) => do
    if 0 ≤ n && n < body.size then
      let i ← Position.get body n
      let label := if (← Compilation.fieldsOf i).isNop then "NOP" else i.text
      return (n, [("shape", "square"), ("label", label)])
    else return (n, [("shape", "circle"), ("style", "filled"), ("fillcolor", "black")])
  modify fun c => { c with drawings := c.drawings.push { file, nodes, edges := g.edges } }

end BpfLanes.Dependence
