import BpfLanes.Dependence
import BpfLanes.Removal

/-! # Bound checks

A program compares addresses in the packet with the end of the packet before
it reads from them. The machine does that by itself, so the comparisons, and
what is computed only for them, are removed.
-/

namespace BpfLanes.BoundCheck

open Compilation
open Peephole (Group Entry)

def modifyFacts (f : BoundFacts → BoundFacts) : CompileM Unit :=
  modify fun c => { c with bounds := f c.bounds }

/-- Notes what holds up to the last use of a value, if it has one. -/
def noteLast (last : Option Int) (f : Int → BoundFacts → BoundFacts) : CompileM Unit :=
  match last with
  | some last => modifyFacts (f last)
  | none => pure ()

def isLoadOf (i : Instr) (bits offset : Int) : Except Fault Bool := do
  let f ← Fields.decode i.word
  return f.loadBits? == some bits && f.offset == offset

/-- The instruction among some nodes that writes a register and loads the end of
    the packet. -/
def dataEndAmong (blk : Block) (register : Int) : List Int → CompileM (Option Int)
  | [] => return none
  | p :: rest => do
    if 0 ≤ p then
      let i ← instrAt blk p
      let o ← need i.output
      if o.register == register && (← isLoadOf i 32 4) then return some p
    dataEndAmong blk register rest

/-- The instruction that loads the end of the packet into a register read by
    instruction `n`. -/
def findDataEnd (register n : Int) (g : Digraph) (b : Int) : CompileM (Option Int) := do
  let above ← g.predecessors n
  dataEndAmong (← block b) register above

/-- A packet address found: its offset and the instructions that compute it. -/
structure Address where
  offset : Int
  positions : List (Option Int)
  deriving DecidableEq, Repr, Inhabited

/-- Whether a value is known to be in a register at a position. -/
def Held.covers (h : Held) (register : Int) (position : Option Int) : Except Fault Bool := do
  if h.register == some register then return (← need position) ≤ h.validTo else return false

/-- Whether an address is known to be in a register at a position. -/
def HeldAddress.covers (h : HeldAddress) (register : Int) (position : Option Int) :
    Except Fault Bool := do
  if h.register == some register then
    let validTo ← need h.validTo
    return (← need position) ≤ validTo
  else return false

/-- The address computed by instruction `p`, which adds an offset to a value: the
    value is the known start of the packet, or is loaded from the context. -/
def addressAt (blk : Block) (g : Digraph) (p : Int) : CompileM (Option Address) := do
  let i ← instrAt blk p
  let f ← fieldsOf i
  if !f.isAddImmediate then return none
  let base ← Position.get i.inputs.toArray 0
  if ← Held.covers (← get).bounds.data base.register i.position then
    return some { offset := f.immediate, positions := [i.position] }
  let source ← Position.get (← g.predecessors p).toArray 0
  let load ← instrAt blk source
  if !(← isLoadOf load 32 0) then return none
  let pointer ← Position.get load.inputs.toArray 0
  if !(← Held.covers (← get).bounds.context pointer.register load.position) then return none
  let start ← need load.output
  noteLast (← LastUse.find base.nextUse start.register) fun last k =>
    { k with data := { register := some start.register, validTo := last } }
  return some { offset := f.immediate, positions := [i.position, load.position] }

/-- The first address among some nodes that is computed into a register. -/
def addressAmong (blk : Block) (g : Digraph) (register : Int) :
    List Int → CompileM (Option Address)
  | [] => return none
  | p :: rest => do
    if 0 ≤ p then
      let i ← instrAt blk p
      let o ← need i.output
      if o.register == register then
        if let some a ← addressAt blk g p then return some a
    addressAmong blk g register rest

/-- The packet address in a register read by instruction `n`. -/
def findAddress (register n : Int) (g : Digraph) (b : Int) : CompileM (Option Address) := do
  let above ← g.predecessors n
  addressAmong (← block b) g register above

/-! ## The program's ends -/

/-- The last block, which must be the only one that leads to the exit. -/
def exitBlock : CompileM Int := do
  let g ← flowGraph
  let order ← g.smallestFirst
  let last ← Position.get order.toArray (-1)
  let blk ← block last
  let above ← g.predecessors last
  require (blk.kind = .exit && above.length == 1)
    "Ending block must be a BlockType.EXIT, with one father, seems a bug..."
  Position.get above.toArray 0

/-- The last block must end in an exit, or have one before its last instruction. -/
def checkExit (blk : Block) (last : Instr) : CompileM Unit := do
  if !(← fieldsOf last).isExit then
    let f ← fieldsOf (← instrAt blk (-2))
    require f.isExit "Last block must contain an [mov]exit, seems a bug..."

/-- The register that the first of some instructions copies to the result. -/
def copiedAction : List Instr → CompileM Unit
  | [] => pure ()
  | i :: rest => do
    let f ← fieldsOf i
    if f.isMove && f.output? == some 0 then
      modifyFacts fun k => { k with actionRegister := f.inputs.head? }
    else copiedAction rest

/-- Finds out which register or constant the program returns. -/
def findAction (exit : Int) : CompileM Unit := do
  let blk ← block exit
  let last ← instrAt blk (-1)
  checkExit blk last
  if 2 ≤ blk.body.size then
    let before ← instrAt blk (-2)
    let f ← fieldsOf before
    if f.isMoveExit then
      let f ← fieldsOf last
      modifyFacts fun k => { k with action := some f.immediate }
    else copiedAction [last, before]
  else modifyFacts fun k => { k with actionRegister := some 0 }

def checkEntry : CompileM Unit := do
  let g ← flowGraph
  let first ← Position.get (← g.smallestFirst).toArray 0
  let blk ← block first
  let below ← g.successors first
  require (blk.kind = .start && below.length == 1)
    "Starting block must be a BlockType.START, with one successor, seems a bug..."

/-- The instruction of the first block that copies the context pointer to a
    register which is used later. -/
def contextCopy : List Instr → CompileM (Option (Instr × Held))
  | [] => return none
  | i :: rest => do
    let f ← fieldsOf i
    if f.isMove && (i.inputs.head?.any fun o => o.register == 1) then
      let o ← need i.output
      match ← LastUse.find o.nextUse o.register with
      | some last => return some (i, { register := some o.register, validTo := last })
      | none => contextCopy rest
    else contextCopy rest

def noteCopy : Option (Instr × Held) → CompileM Unit
  | some (_, held) => modifyFacts fun k => { k with context := held }
  | none => pure ()

/-- Finds the context pointer in the register it is passed in, unless it was copied.
    Says whether the program uses it. -/
def usesContext (blk : Block) : CompileM Bool := do
  if (← get).bounds.context.register.isNone then
    match blk.liveIn.get? 1 with
    | none => return false
    | some first =>
      noteLast (← LastUse.find (some first) 1) fun last k =>
        { k with context := { register := some 1, validTo := last } }
      return true
  else return true

/-- Finds the context pointer: in the register it was copied to, or in the one it
    is passed in. Gives the copy, which may go, or nothing if the program never
    uses the context. -/
def findContext : CompileM (Option Group) := do
  let blk ← block 1
  let copy ← contextCopy (← body blk)
  noteCopy copy
  if !(← usesContext blk) then return none
  match copy with
  | some (i, _) => return some [.nop (← need i.position)]
  | none => return some []

/-! ## Checks -/

/-- What is to be removed, and the offsets that were checked. -/
structure Found where
  group : Group := []
  offsets : List Int := []
  deriving Repr, Inhabited

def Found.remove (s : Found) (position : Option Int) : Except Fault Found := do
  return { s with group := s.group.insert (.nop (← need position)) }

def Found.note (s : Found) (offset : Int) : Found :=
  if s.offsets.contains offset then s else { s with offsets := s.offsets ++ [offset] }

/-- Makes sure that a register holds the end of the packet. Gives nothing if it
    does not. -/
def checkEnd (b : Int) (blk : Block) (g : Digraph) (check : Instr) (register : Int) (s : Found) :
    CompileM (Option Found) := do
  if ← Held.covers (← get).bounds.dataEnd register check.position then return some s
  let some p ← findDataEnd register (blk.body.size - 1) g b | return none
  let load ← instrAt blk p
  let pointer ← Position.get load.inputs.toArray 0
  if !(← Held.covers (← get).bounds.context pointer.register load.position) then return none
  let s ← s.remove load.position
  let o ← Position.get check.inputs.toArray 0
  noteLast (← LastUse.find o.nextUse register) fun last k =>
    { k with dataEnd := { register := some register, validTo := last } }
  return some s

/-- Makes sure that a register holds an address in the packet. Gives what was
    found, and whether it is an address. -/
def checkAddress (b : Int) (blk : Block) (g : Digraph) (check : Instr) (register : Int)
    (s : Found) : CompileM (Option Found) := do
  let known := (← get).bounds.dataOffset
  if ← HeldAddress.covers known register check.position then return some (s.note known.offset)
  let some a ← findAddress register (blk.body.size - 1) g b | return none
  let o ← Position.get check.inputs.toArray 1
  noteLast (← LastUse.find o.nextUse register) fun last k =>
    { k with
      dataOffset := { register := some register, validTo := some last, offset := a.offset } }
  let s ← (a.positions.foldlM Found.remove s : Except Fault Found)
  return some (s.note a.offset)

def dropAction : Int := 1

/-- Marks the instructions of a block that choose to drop the packet, unless the
    action is fixed. -/
def removeDrops (blk : Block) (s : Found) : CompileM Found := do
  let facts := (← get).bounds
  if facts.action.isSome then return s
  (← body blk).foldlM (fun (s : Found) i => do
    let f ← fieldsOf i
    if f.isMoveImmediate then
      let o ← need i.output
      if some o.register == facts.actionRegister && f.immediate == dropAction then
        s.remove i.position
      else return s
    else return s) s

/-- Looks for a bound check at the end of a block: a jump to the exit block if an
    address in the packet is greater than its end. -/
def visit (exit : Int) (s : Found) (b : Int) : CompileM Found := do
  let blk ← block b
  if blk.kind ≠ .basic then return s
  let check ← instrAt blk (-1)
  let f ← fieldsOf check
  if !f.isGreaterJump || !blk.taken.contains exit then return s
  let g ← Dependence.ofBlock blk
  -- a mark made on the way stays even if the search fails further on
  match ← checkEnd b blk g check f.src s with
  | none => return s
  | some s =>
    match ← checkAddress b blk g check f.dst s with
    | none => return s
    | some s =>
      let s ← s.remove check.position
      removeDrops blk s

/-- Removes the bound checks of a program. Gives the offsets that were checked, or
    nothing if the program never uses the context. -/
def removeAll : CompileM (Option (List Int)) := do
  let exit ← exitBlock
  findAction exit
  checkEntry
  match ← findContext with
  | none => return none
  | some group =>
    let order ← (← flowGraph).smallestFirst
    let s ← (order.drop 1).dropLast.foldlM (visit exit) { group }
    Removal.applyAll s.group
    return some s.offsets

end BpfLanes.BoundCheck
