import BpfLanes.Dependence
import BpfLanes.Placement
import BpfLanes.Renaming
import BpfLanes.Text.Grid

/-! # Scheduling

The instructions of a block are put into rows in their order of dependence,
branch last; the blocks follow one another in the order of the flow graph.
-/

namespace BpfLanes.Schedule

open Compilation

/-- The instructions of a block in the order in which they are placed. Those that
    do nothing are left out. -/
def placementOrder (blk : Block) (g : Digraph) : CompileM (List Int) := do
  let order := (← g.smallestFirst).filter fun (n : Int) => 0 ≤ n && n < blk.body.size
  let (nodes, branch) ← order.foldlM (fun (acc : List Int × Option Int) n => do
    let f ← fieldsOf (← instrAt blk n)
    if f.isNop then return acc
    else if f.isBranch then return (acc.1, some n)
    else return (acc.1 ++ [n], acc.2)) ([], none)
  return nodes ++ branch.toList

/-- Whether a value of the block would overwrite one that is still needed, and that
    lives in this block alone. -/
def mustAvoid (blk : Block) (i : Instr) (c : LiveRange) : CompileM Bool := do
  let facts := (← get).bounds
  if i.position == c.lastUse || some c.register == facts.actionRegister then return false
  if c.definedBy < blk.start then return false
  return (← need c.lastUse) ≤ blk.stop

/-- Renames the value that an instruction writes, with those that read it. -/
def renameValue (b : Int) (blk : Block) (g : Digraph) (n row old : Int) (used : List Int) :
    CompileM Unit := do
  let readers := (← g.successors n).filter fun x => x != (blk.body.size : Int) - 1
  let _ ← Renaming.rename (n :: readers) b used
  let i ← instrAt blk n
  let o ← need i.output
  let position ← need i.position
  modify fun c => { c with ranges := c.ranges.rename old o.register position row }

/-- Avoids an overwrite: by another register or, if there is none, by waiting until
    the value is no longer needed. -/
def avoid (b : Int) (blk : Block) (g : Digraph) (maxRow n : Int) (s : Placement.Slot)
    (old : Int) (c : LiveRange) : CompileM Placement.Slot := do
  let used := (← get).ranges.taken s.row
  try
    renameValue b blk g n s.row old used
    pure s
  catch _ =>
    say (← instrAt blk n).text
    require c.endRow.isSome "Unexpected out of block conflict, this may be a bug "
    Placement.find b g (← need c.endRow) maxRow n

/-- The slot for a value, moved if it would overwrite one that must stay. -/
def clearSlot (b : Int) (blk : Block) (g : Digraph) (maxRow n : Int) (s : Placement.Slot)
    (i : Instr) (register : Int) : CompileM Placement.Slot := do
  match (← get).ranges.conflict? register s.row with
  | none => pure s
  | some c => if ← mustAvoid blk i c then avoid b blk g maxRow n s register c else pure s

/-- Records the value that instruction `n` of a block writes. -/
def recordOutput (blk : Block) (n row : Int) (last endRow : Option Int) : CompileM Unit := do
  let i ← instrAt blk n
  let o ← need i.output
  let position ← need i.position
  modify fun c => { c with ranges := c.ranges.define {
    register := o.register, definedBy := position, lastUse := last, row, endRow } }

/-- Records the value that an instruction writes, if it is needed later on. An
    overwrite is avoided first. -/
def placeOutput (b : Int) (blk : Block) (g : Digraph) (maxRow n : Int) (s : Placement.Slot) :
    CompileM Placement.Slot := do
  let i ← instrAt blk n
  match i.output with
  | none => return s
  | some o =>
    -- position 0 counts as no later use
    if o.nextUse.all fun p => p == 0 then return s
    let last ← LastUse.find o.nextUse o.register
    let place ← placeOf last
    let endRow := if place.lane.isSome then some place.time else none
    let s ← clearSlot b blk g maxRow n s i o.register
    recordOutput blk n s.row last endRow
    return s

/-- How far the rows and the instructions of a block reach. -/
structure Reach where
  row : Int
  position : Int
  deriving DecidableEq, Repr, Inhabited

def placeInstr (b : Int) (blk : Block) (g : Digraph) (lastRow : Int) (r : Reach) (n : Int) :
    CompileM Reach := do
  let s ← Placement.find b g lastRow r.row n
  let s ← placeOutput b blk g r.row n s
  let id ← idAt blk n
  let i ← instr id
  modify fun c => { c with
    ranges := c.ranges.read (i.inputs.map Operand.register) s.row i.position }
  setPlace i.position fun p => { p with time := s.row, lane := some s.lane }
  setSlot s.row s.lane id
  return { row := max r.row s.row, position := max r.position (← need i.position) }

/-- Places the instructions of a block after row `lastRow`. A block without any
    takes one empty row. -/
def placeBlock (b lastRow lastPosition : Int) : CompileM (Reach × Digraph) := do
  let blk ← block b
  let g ← Dependence.ofBlock blk
  if (← get).options.drawDependences then Dependence.draw b blk g
  let order ← placementOrder blk g
  let r ← order.foldlM (placeInstr b blk g lastRow) { row := lastRow, position := lastPosition }
  return ({ r with row := if lastRow < r.row then r.row else r.row + 1 }, g)

def printTable : CompileM Unit := do
  let c ← get
  let cells := c.table.toList.map fun row => row.toList.map fun s =>
    match s.bind fun id => c.store[id]? with
    | some i => Cell.text i.text
    | none => Cell.text "NOP"
  let shown ← Grid.render cells false none
  modify fun c => { c with printed := c.printed ++ shown }

def blockOrder : CompileM (List Int) := do
  (← (← flowGraph).smallestFirst).filterM fun b => do return (← block b).kind = .basic

/-- Places one more block and forgets the values that are not needed after it. -/
def placeNext (r : Reach) (b : Int) : CompileM Reach := do
  let blk ← block b
  let (r, _) ← placeBlock b r.row r.position
  let ranges ← (← get).ranges.leaveBlock blk.stop
  modify fun c => { c with ranges }
  return r

/-- Places all basic blocks and cuts off the rows that were not needed. -/
def placeAll : CompileM Unit := do
  let r ← (← blockOrder).foldlM placeNext { row := -1, position := -1 }
  modify fun c => { c with table := Position.takeBefore c.table (r.row + 1) }
  if (← get).options.printTable then printTable

end BpfLanes.Schedule
