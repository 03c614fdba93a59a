import BpfLanes.Block
import BpfLanes.Graph.Digraph
import BpfLanes.LiveRange
import BpfLanes.Position

/-! # Compilations

A compilation turns a program into rows of lanes. `Compilation` is everything
it keeps on the way, and a step of it runs in `CompileM`: what a step did
before a fault stays visible.
-/

namespace BpfLanes

/-- The machine that the rows are made for. -/
structure Target where
  /-- instructions that run at the same time -/
  lanes : Int := 4
  /-- a branch may stand in any lane, otherwise in the first one only -/
  branchAnyLane : Bool := true
  deriving DecidableEq, Repr, Inhabited

/-- What a compilation is asked to do. -/
structure Options where
  name : Option String := none
  /-- asked for by callers; the target decides where branches stand -/
  branchAllLanes : Bool := true
  /-- asked for by callers; neighbouring rows always forward in their lane -/
  forwardInLane : Bool := true
  removeBoundChecks : Bool := false
  advanced : Bool := true
  /-- find out which blocks dominate which -/
  dominators : Bool := false
  drawFlow : Bool := false
  drawDependences : Bool := false
  printBeforeSchedule : Bool := false
  printBeforeOptimize : Bool := false
  printTable : Bool := true
  deriving DecidableEq, Repr, Inhabited

/-- Where the branches of a program are and where they lead. -/
structure Branches where
  jumps : List Int := []
  calls : List Int := []
  exits : List Int := []
  targets : List (Int × List Int) := []
  deriving DecidableEq, Repr, Inhabited

/-- Where an instruction is put. -/
structure Place where
  block : Option Int := none
  /-- its row, or its position in the program until it has one -/
  time : Int
  lane : Option Int := none
  deriving DecidableEq, Repr, Inhabited

/-- A value in a register, known up to a position. -/
structure Held where
  register : Option Int := none
  validTo : Int := 0
  deriving DecidableEq, Repr, Inhabited

/-- An address in the packet, known up to a position. -/
structure HeldAddress where
  register : Option Int := none
  validTo : Option Int := none
  offset : Int := 0
  deriving DecidableEq, Repr, Inhabited

/-- What the search for bound checks has found out. -/
structure BoundFacts where
  /-- register that holds the action of the program -/
  actionRegister : Option Int := none
  /-- action of the program when it is fixed -/
  action : Option Int := none
  context : Held := {}
  data : Held := {}
  dataEnd : Held := {}
  dataOffset : HeldAddress := {}
  deriving DecidableEq, Repr, Inhabited

/-- A graph that was drawn to a file. -/
structure Drawing where
  file : String
  nodes : List (Int × List (String × String))
  edges : List (Int × Int)
  deriving DecidableEq, Repr, Inhabited

/-- Rows of lanes, each empty or with the number of an instruction in the store. -/
abbrev Table := Array (Array (Option Nat))

/-- The sets of blocks that dominate each block; without it the search was given
    up. -/
abbrev Dominance := Option (Array (List Int))

/-- A compilation under way. -/
structure Compilation where
  target : Target := {}
  options : Options := {}
  words : Array Word
  texts : Array String
  branches : Branches := {}
  store : Array Instr := #[]
  blocks : Array Block := #[Block.entry]
  flow : Option Digraph := none
  dominators : Dominance := none
  postdominators : Dominance := none
  schedule : Array Place := #[]
  table : Table := #[]
  ranges : LiveRanges := []
  bounds : BoundFacts := {}
  /-- pairs of instructions made into a three-operand one -/
  fusedMoves : Nat := 0
  /-- pairs of instructions made into an exit with a result -/
  fusedExits : Nat := 0
  printed : String := ""
  drawings : Array Drawing := #[]
  deriving Repr, Inhabited

abbrev CompileM := EStateM Fault Compilation

namespace Compilation

def unplaced (size : Nat) : Array Place :=
  (Array.range size).map fun (i : Nat) => { time := i }

def start (target : Target) (options : Options) (words : Array Word) (texts : Array String) :
    Compilation :=
  { target, options, words, texts
    schedule := unplaced words.size
    table := words.map fun _ => Array.replicate target.lanes.toNat none }

/-! ## Access -/

def say (s : String) : CompileM Unit :=
  modify fun c => { c with printed := c.printed ++ s ++ "\n" }

def block (b : Int) : CompileM Block := do
  Position.get (← get).blocks b

def setBlock (b : Int) (block : Block) : CompileM Unit := do
  let c ← get
  let blocks ← Position.set c.blocks b block
  set { c with blocks }

def instr (id : Nat) : CompileM Instr := do
  Position.get (← get).store id

/-- Replaces the instruction with a number in the store. -/
def setInstr (id : Nat) (i : Instr) : CompileM Unit :=
  modify fun c => { c with store := c.store.setIfInBounds id i }

/-- The number in the store of the `n`-th instruction of a block. -/
def idAt (block : Block) (n : Int) : CompileM Nat :=
  (Position.get block.body n : Except Fault Nat)

def instrAt (block : Block) (n : Int) : CompileM Instr := do
  instr (← idAt block n)

def bodyOf (c : Compilation) (block : Block) : List Instr :=
  block.body.toList.filterMap fun id => c.store[id]?

def body (block : Block) : CompileM (List Instr) := do
  return (← get).bodyOf block

def fieldsOf (i : Instr) : CompileM Fields :=
  (Fields.decode i.word : Except Fault Fields)

def placeOf (position : Option Int) : CompileM Place := do
  Position.get (← get).schedule (← need position)

/-- Replaces the place of the instruction at a position. -/
def setPlace (position : Option Int) (f : Place → Place) : CompileM Unit := do
  let p ← placeOf position
  let c ← get
  let schedule ← Position.set c.schedule (← need position) (f p)
  set { c with schedule }

def slot (row lane : Int) : CompileM (Option Nat) := do
  let r ← Position.get (← get).table row
  Position.get r lane

def setSlot (row lane : Int) (id : Nat) : CompileM Unit := do
  let c ← get
  let r ← Position.get c.table row
  let r ← Position.set r lane (some id)
  let table ← Position.set c.table row r
  set { c with table }

/-- Replaces the word and the text at a position of the program. -/
def setProgram (position : Option Int) (word : Word) (text : String) : CompileM Unit := do
  let p ← need position
  let c ← get
  let words ← Position.set c.words p word
  set { c with words }
  let texts ← Position.set c.texts p text
  modify fun c => { c with texts }

def flowGraph : CompileM Digraph := do
  match (← get).flow with
  | some g => return g
  | none => throw .missingPart

/-! ## Looking up -/

def fail {α : Type} (s : String) : CompileM α := do
  say ("\x1b[91m" ++ s)
  throw (.halted (-1))

/-- The number of the block that starts at a position; the last position of the
    program belongs to the last block. -/
def blockOfLeader (leader : Int) : CompileM Int := do
  let c ← get
  match c.blocks.findIdx? fun b => b.start == leader with
  | some b => return b
  | none =>
    if leader == c.words.size - 1 then return c.blocks.size - 1
    else fail ("[optimizer_core] __leader_to_block: invalid leader instruction "
      ++ toString leader)

/-- The number of the block that holds the instruction at a position. -/
def blockOfInstr (position : Int) : CompileM Int := do
  let c ← get
  match c.blocks.findIdx? fun b => (c.bodyOf b).any fun i => i.position == some position with
  | some b => return b
  | none =>
    fail ("[optimizer_core] __inst_to_block: invalid instruction " ++ toString position)

/-- Blocks are the same when all that is known about them is. -/
def sameBlock (c : Compilation) (a b : Block) : Bool :=
  { a with body := #[] } == { b with body := #[] } && c.bodyOf a == c.bodyOf b

/-- The number inside a block of the instruction at a position. -/
def indexIn (block : Block) (position : Int) : CompileM Nat := do
  let c ← get
  match (c.bodyOf block).findIdx? fun i => i.position == some position with
  | some n => return n
  | none =>
    let b := (c.blocks.findIdx? (c.sameBlock block)).getD 0
    fail ("Instruction with index " ++ toString position ++ " not found in block B" ++ toString b)

/-- The instruction that the schedule knows at a position. -/
def instrOf (position : Int) : CompileM Instr := do
  let p ← placeOf (some position)
  let b ← block (← need p.block)
  instrAt b (← indexIn b position)

end Compilation
end BpfLanes
