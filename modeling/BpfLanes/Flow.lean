import BpfLanes.Compilation
import BpfLanes.Dominance

/-! # Control flow

Finds the branches of a program, cuts it into blocks at their targets and
after them, and links the blocks into the flow graph.
-/

namespace BpfLanes.Flow

open Compilation

/-! ## Branches -/

/-- Adds a position to a list that has it at most once. -/
def addOnce (p : Int) (xs : List Int) : List Int :=
  if xs.contains p then xs else xs ++ [p]

def noteTarget (target jump : Int) (xs : List (Int × List Int)) : List (Int × List Int) :=
  if xs.any fun e => e.1 == target then
    xs.map fun e => if e.1 == target then (e.1, e.2 ++ [jump]) else e
  else xs ++ [(target, [jump])]

def modifyBranches (f : Branches → Branches) : CompileM Unit :=
  modify fun c => { c with branches := f c.branches }

/-- Notes the branch at a position, if there is one. A jump behind the end of the
    program stops the compilation. -/
def findBranch (position : Int) (word : Word) : CompileM Unit := do
  let f ← Fields.decode word
  if f.isJump then
    modifyBranches fun b => { b with jumps := addOnce position b.jumps }
    let target := position + f.offset + 1
    if (← get).words.size ≤ target then
      fail ("Invalid offset (outside program) for branch instruction 0x"
        ++ Numeral.blankPadded 16 16 word)
    modifyBranches fun b => { b with targets := noteTarget target position b.targets }
  else if f.isCall then
    modifyBranches fun b => { b with calls := addOnce position b.calls }
  else if f.isExit then
    modifyBranches fun b => { b with exits := addOnce position b.exits }

def findBranches : CompileM Unit := do
  (← get).words.toList.zipIdx.forM fun (w, i) => findBranch i w

/-! ## Blocks -/

/-- Puts a number into an ascending list that has it at most once. -/
def insertSorted (x : Int) : List Int → List Int
  | [] => [x]
  | y :: ys => if x < y then x :: y :: ys else if x = y then y :: ys else y :: insertSorted x ys

/-- The first positions of blocks: the targets of jumps, and the positions after
    branches. A call or an exit at the very end starts nothing. -/
def leaders (size : Nat) (b : Branches) : List Int :=
  let last : Int := size - 1
  let ends := b.jumps ++ (b.calls ++ b.exits).filter fun x => x != last
  let next := ends.map fun x => if x < last then x + 1 else x
  (next ++ b.targets.map Prod.fst).foldl (fun xs x => insertSorted x xs) []

def pushBlock (b : Block) : CompileM Unit :=
  modify fun c => { c with blocks := c.blocks.push b }

/-- Appends the blocks that start at the given positions; a block that ends in a
    call is followed by one for the code of the helper. -/
def pushFrom : List Int → CompileM Unit
  | [] => pure ()
  | leader :: rest => do
    let c ← get
    let stop : Int := match rest with
      | next :: _ => next
      | [] => c.words.size
    pushBlock { kind := .basic, start := leader, len := stop - leader }
    let last ← Fields.decode (← Position.get c.words (stop - 1))
    if last.isCall then pushBlock { kind := .call, start := leader, len := 0 }
    pushFrom rest

def findBlocks : CompileM Unit := do
  let c ← get
  let starts := leaders c.words.size c.branches
  match starts with
  | first :: _ =>
    if 0 < first then pushBlock { kind := .basic, start := 0, len := first }
  | [] => pure ()
  pushFrom starts
  pushBlock { kind := .exit, start := c.words.size, len := 0 }

def parseInto (b position : Int) : CompileM Unit := do
  let c ← get
  let word ← Position.get c.words position
  let text ← Position.get c.texts position
  let i ← Instr.parse word text position
  modify fun c => { c with store := c.store.push i }
  let blk ← block b
  setBlock b { blk with body := blk.body.push c.store.size }
  setPlace (some position) fun p => { p with block := some b }

def linkBlock (b : Int) : CompileM Unit := do
  let blk ← block b
  if blk.kind = .call then
    setBlock b { blk with fall := some (b + 1), taken := [] }
  else
    setBlock b { blk with fall := some (b + 1) }
    let lastId ← idAt blk (-1)
    let i ← instr lastId
    let last ← fieldsOf i
    if last.isCall then
      setBlock b { blk with fall := none, taken := blk.taken ++ [b + 1] }
    else if last.isJump then
      let target ← blockOfLeader (blk.stop + last.offset)
      setBlock b { blk with
        taken := blk.taken ++ [target]
        fall := if last.isGoto then none else some (b + 1) }
      setInstr lastId { i with jumpsTo := some target }
    else if last.isExit then
      setBlock b { blk with fall := none, taken := blk.taken ++ [((← get).blocks.size : Int) - 1] }

def parseBlock (b : Int) : CompileM Unit := do
  let blk ← block b
  (List.range blk.len.toNat).forM fun (n : Nat) => parseInto b (blk.start + n)
  linkBlock b

/-- Parses and links the blocks between the entry and the exit. -/
def parseBlocks : CompileM Unit := do
  let count := (← get).blocks.size
  (List.range (count - 2)).forM fun (k : Nat) => parseBlock (k + 1)

/-! ## Flow graph -/

def edgesFrom (b : Int) (blk : Block) : List (Int × Int) :=
  blk.taken.map (fun t => (b, t)) ++ blk.fall.toList.map fun t => (b, t)

def graphOf (blocks : List Block) : Digraph :=
  let numbered := blocks.zipIdx.map fun (b, i) => ((i : Int), b)
  Digraph.ofLists (numbered.map Prod.fst) (numbered.flatMap fun (b, blk) => edgesFrom b blk)

def attributes (b : Int) (kind : BlockKind) : List (String × String) :=
  let box (colour label : String) :=
    [("shape", "square"), ("style", "filled"), ("fillcolor", colour), ("label", label)]
  match kind with
  | .start => box "royalblue" "START"
  | .exit => box "royalblue" "EXIT"
  | .call => box "orange" "CALL"
  | _ => [("label", "B" ++ toString b)]

def draw : CompileM Unit := do
  let g ← flowGraph
  let c ← get
  let file := match c.options.name with
    | some name => name ++ "_CFG.png"
    | none => "flow_graph.png"
  let nodes := g.nodes.map fun b =>
    (b, match Position.get? c.blocks b with
      | some blk => attributes b blk.kind
      | none => [])
  modify fun c => { c with drawings := c.drawings.push { file, nodes, edges := g.edges } }

/-- Builds the flow graph, and the dominators if they are asked for. -/
def buildGraph : CompileM Unit := do
  let c ← get
  let g := graphOf c.blocks.toList
  set { c with flow := some g }
  if c.options.dominators then
    let d ← Dominance.find c.blocks.size g
    modify fun c => { c with dominators := d }
    let p ← Dominance.find c.blocks.size g.reverse
    modify fun c => { c with postdominators := p }

/-- Forgets the blocks, so that a changed program can be cut again. -/
def restart : CompileM Unit :=
  modify fun c => { c with
    branches := {}, blocks := #[Block.entry], schedule := unplaced c.words.size }

def analyse : CompileM Unit := do
  findBranches
  findBlocks
  parseBlocks
  buildGraph

end BpfLanes.Flow
