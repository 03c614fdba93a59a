import BpfLanes.Placement
import BpfLanes.Text.Search

/-! # Jumps in rows

Once instructions stand in rows, a jump counts rows. The branch of a block
that is a single conditional jump may also join the row of the branch before
it, when both look at the same registers.
-/

namespace BpfLanes.Jumps

open Compilation

/-- The position that stands for a block: that of its last instruction which does
    something, or of its first one. -/
def leader (blk : Block) : CompileM (Option Int) := do
  let first ← instrAt blk 0
  return (← body blk).foldl
    (fun p i => if i.text != "NOP" then i.position else p) first.position

/-- Makes the jump in the first lane of a row count rows. -/
def retarget (row : Nat) : CompileM Unit := do
  match ← slot row 0 with
  | none => pure ()
  | some id =>
    let i ← instr id
    let f ← fieldsOf i
    if f.isJump then
      let blk ← block (← need i.jumpsTo)
      let place ← placeOf (← leader blk)
      let offset := place.time - row - 1
      let word ← Word.setOffset i.word offset
      setInstr id { i with
        word, text := Search.replace (toString f.offset) (toString offset) i.text }

def retargetAll : CompileM Unit := do
  (List.range (← get).table.size).forM retarget

def hoistInto (b row lane : Int) (candidate : Int) : CompileM Unit := do
  let blk ← block candidate
  let id ← idAt blk 0
  let i ← instr id
  setSlot row lane id
  setPlace i.position fun p => { p with time := row, lane := some lane, block := some b }
  let c ← get
  set { c with store := c.store.push .placeholder }
  setBlock candidate { blk with
    body := blk.body.setIfInBounds 0 c.store.size, kind := .disabled }

/-- Moves jumps of following blocks into a row as long as there is room. -/
def hoistFrom (b row : Int) (registers : List Int) : Nat → Int → Option Int → CompileM Unit
  | 0, _, _ => pure ()
  | _, _, none => pure ()
  | fuel + 1, room, some candidate => do
    if room ≤ 0 then return ()
    let blk ← block candidate
    if blk.body.size != 1 then return ()
    let f ← fieldsOf (← instrAt blk 0)
    if !(f.isConditional && registers.all f.inputs.contains) then return ()
    let r ← Position.get (← get).table row
    match ← Placement.freeLane? r (Placement.lanesOf (← get).target.lanes) with
    | none => return ()
    | some lane =>
      hoistInto b row lane candidate
      hoistFrom b row registers fuel (room - 1) blk.fall

/-- Moves the conditional jumps that follow the one of a block into its row. -/
def hoist (b row : Int) : CompileM Unit := do
  let blk ← block b
  let f ← fieldsOf (← instrAt blk (-1))
  if !f.isConditional then return ()
  let r ← Position.get (← get).table row
  let free ← r.toList.filterM fun s => do
    match s with
    | none => return true
    | some id => return (← instr id).word == Word.nop
  hoistFrom b row f.inputs ((← get).blocks.size + 1) free.length blk.fall

end BpfLanes.Jumps
