import BpfLanes.LastUse

/-! # Finding a slot

An instruction goes into the first row after those it depends on that has a
free lane. Results are forwarded inside a lane only, so an instruction in the
row right after the one it depends on must stand in the same lane. A branch
goes into the last row of its block.
-/

namespace BpfLanes.Placement

open Compilation

/-- A slot of the table. -/
structure Slot where
  lane : Int
  row : Int
  deriving DecidableEq, Repr, Inhabited

/-! ## Searching the table -/

/-- Whether as many slots of a row are taken as there are lanes. -/
def isFull (lanes : Int) (row : Array (Option Nat)) : Bool :=
  ((row.toList.filter Option.isSome).length : Int) == lanes

/-- Rows that can be looked at from a row on before the table ends. -/
def rowsFrom (t : Table) (row : Int) : Nat := (t.size - row).toNat + 1

def firstOpen (t : Table) (lanes : Int) : Nat → Int → Except Fault Int
  | 0, _ => .error .outOfRange
  | fuel + 1, row => do
    if isFull lanes (← Position.get t row) then firstOpen t lanes fuel (row + 1) else return row

/-- The first row from `row` on whose slot in a lane is free. -/
def firstFreeIn (t : Table) (lane : Int) : Nat → Int → Except Fault Int
  | 0, _ => .error .outOfRange
  | fuel + 1, row => do
    match ← Position.get (← Position.get t row) lane with
    | none => return row
    | some _ => firstFreeIn t lane fuel (row + 1)

/-- The first free lane of a row, among the given ones. -/
def freeLane? (row : Array (Option Nat)) : List Int → Except Fault (Option Int)
  | [] => return none
  | lane :: rest => do
    match ← Position.get row lane with
    | none => return some lane
    | some _ => freeLane? row rest

def lanesOf (lanes : Int) : List Int := (List.range lanes.toNat).map fun (l : Nat) => (l : Int)

/-- The slot in a lane if it is free, and otherwise the first free slot of the
    rows after it, where nothing has to be forwarded any more. -/
def forwarded (t : Table) (lanes : Int) : Nat → Slot → Except Fault Slot
  | 0, _ => .error .outOfRange
  | fuel + 1, s => do
    match ← Position.get (← Position.get t s.row) s.lane with
    | none => return s
    | some _ =>
      let next ← Position.get t (s.row + 1)
      let lane ← freeLane? next (lanesOf lanes)
      let last := if 0 < lanes then lanes - 1 else s.lane
      forwarded t lanes fuel { lane := lane.getD last, row := s.row + 1 }

def anyLane (t : Table) (lanes row : Int) : Except Fault Slot := do
  let r ← Position.get t row
  match ← Position.get r 0 with
  | none => return { lane := 0, row }
  | some _ =>
    match ← freeLane? r (lanesOf lanes) with
    | some lane => return { lane, row }
    | none => throw .outOfRange

/-! ## Dependences -/

/-- The row before which an instruction cannot stand, and the instruction whose
    result it may have to get forwarded. -/
structure Wait where
  row : Int
  source : Option Int
  deriving DecidableEq, Repr, Inhabited

/-- Takes one dependence into account: on something before the block, or on an
    instruction of the block. -/
def await (b : Int) (blk : Block) (i : Instr) (lastRow : Int) (w : Wait) (p : Int) :
    CompileM Wait := do
  if p == -1 then
    let source ← LastUse.definition (i.inputs.map Operand.register) b
    return { row := lastRow, source }
  else
    let above ← instrAt blk p
    let place ← placeOf above.position
    if w.row ≤ place.time then
      return {
        row := place.time + (if place.time == w.row then 1 else 0)
        source := above.position }
    else return w

/-- Whether a result arrives in the row before, so that it has to be forwarded. -/
def isForwarded (b row : Int) (source : Option Int) : CompileM Bool := do
  match source with
  | none => return false
  | some p =>
    if 0 < row then
      let place ← placeOf (some p)
      if row == place.time + 1 then return (← need place.block) ≤ b else return false
    else return false

/-- Takes the dependences of instruction `n` into account, one after another. Without
    any, the result of the last instruction counts as awaited. -/
def awaitAll (b : Int) (blk : Block) (lastRow n : Int) (above : List Int) : CompileM Wait :=
  above.foldlM (fun w p => do await b blk (← instrAt blk n) lastRow w p)
    { row := lastRow, source := some (-1) }

/-- The first row from `row` on for a branch that must stand in the first lane. -/
def branchRow (row : Int) (source : Option Int) (forward : Bool) : CompileM Int := do
  if forward then
    let place ← placeOf source
    return if place.lane == some 0 then row else row + 1
  else return row

/-- The first slot from `row` on that an instruction may take, given what it waits
    for. -/
def slotFrom (b row : Int) (source : Option Int) (isBranch : Bool) : CompileM Slot := do
  let c ← get
  let lanes := c.target.lanes
  let row ← firstOpen c.table lanes (rowsFrom c.table row) row
  let forward ← isForwarded b row source
  if !c.target.branchAnyLane && isBranch then
    let row ← branchRow row source forward
    let row ← firstFreeIn c.table 0 (rowsFrom c.table row) row
    return { lane := 0, row }
  else if forward then
    let place ← placeOf source
    forwarded c.table lanes (rowsFrom c.table row) { lane := ← need place.lane, row }
  else anyLane c.table lanes row

/-- The slot for instruction `n` of block `b`, after row `lastRow`. The rows of the
    block reach up to `maxRow` so far. -/
def find (b : Int) (g : Digraph) (lastRow maxRow n : Int) : CompileM Slot := do
  let blk ← block b
  let w ← awaitAll b blk lastRow n (← g.predecessors n)
  let isBranch := (← fieldsOf (← instrAt blk n)).isBranch
  slotFrom b ((if isBranch then max w.row (maxRow - 1) else w.row) + 1) w.source isBranch

end BpfLanes.Placement
