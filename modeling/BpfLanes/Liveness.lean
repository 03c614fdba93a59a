import BpfLanes.Compilation

/-! # Liveness

Which registers are needed where. Between blocks the sets of needed registers
are grown until nothing changes; inside a block one backward walk tells each
operand where its value is used next.
-/

namespace BpfLanes.Liveness

open Compilation

/-! ## Between blocks -/

/-- The registers that a block reads before it writes them, and those it writes,
    each with the position of the last instruction that does. -/
structure Summary where
  uses : RegMap := []
  defs : RegMap := []
  deriving DecidableEq, Repr, Inhabited

/-- Notes that an instruction at a position reads registers. -/
def Summary.read (s : Summary) (registers : List Int) (position : Int) : Summary :=
  registers.foldl (fun s r =>
    if s.defs.has r then s else { s with uses := s.uses.put r position }) s

/-- Notes that an instruction at a position writes a register. -/
def Summary.write (s : Summary) (register position : Int) : Summary :=
  { s with defs := s.defs.put register position }

/-- Adds an instruction. A call reads the arguments of its helper and writes the
    result register. An instruction without a position touches no register. -/
def Summary.add (s : Summary) (i : Instr) : Except Fault Summary := do
  let f ← Fields.decode i.word
  let position := i.position.getD 0
  if f.isCall then
    return (s.read (Opcode.helperArguments f.immediate) position).write 0 position
  else
    let s := s.read (i.inputs.map Operand.register) position
    match i.output with
    | some o => return s.write o.register position
    | none => return s

def summarise (body : List Instr) : Except Fault Summary :=
  body.foldlM Summary.add {}

def needed (liveOut defs uses : RegMap) : RegMap :=
  (liveOut.without defs).union uses

/-- Updates one block from its successors. Says whether a register was added. -/
def visit (g : Digraph) (b : Int) : CompileM Bool := do
  let blk ← block b
  let liveIn := needed blk.liveOut blk.defs blk.uses
  setBlock b { blk with liveIn }
  (← g.successors b).forM fun s => do
    let next ← block s
    let blk ← block b
    setBlock b { blk with liveOut := next.liveIn.union blk.liveOut }
  let new ← block b
  return !(blk.liveIn.sameKeys new.liveIn && blk.liveOut.sameKeys new.liveOut)

def visitAll (g : Digraph) (order : List Int) : CompileM Bool :=
  order.foldlM (fun changed b => do
    let c ← visit g b
    return changed || c) false

def settle (g : Digraph) (order : List Int) : Nat → CompileM Unit
  | 0 => pure ()
  | fuel + 1 => do
    if ← visitAll g order then settle g order fuel

/-- Finds the registers needed at the start and at the end of every block. Every
    round but the last adds one of sixteen registers to one of two sets of a
    block, which bounds the rounds. -/
def acrossBlocks : CompileM Unit := do
  let count := (← get).blocks.size
  (List.range count).forM fun (b : Nat) => do
    let blk ← block b
    setBlock b { blk with uses := [], defs := [], liveOut := [], liveIn := [] }
    let s ← summarise (← body blk)
    setBlock b { blk with uses := s.uses, defs := s.defs, liveOut := [], liveIn := [] }
  let g ← flowGraph
  let order ← g.reverse.byGenerations
  settle g order (32 * count + 2)

/-! ## Inside a block -/

/-- Tells the register that an instruction writes about the next use of its value.
    Before the instruction that value is not there. -/
def markOutput (liveOut : RegMap) (symbols : Symbols) (o : Operand) : Symbols × Operand :=
  match symbols.lookup o.register with
  | none =>
    match liveOut.get? o.register with
    | none => (symbols.put o.register { live := false, nextUse := none }, o)
    | some p =>
      (symbols.put o.register { live := true, nextUse := some p },
        { o with live := true, nextUse := some p })
  | some s =>
    (symbols.put o.register { live := false, nextUse := none },
      { o with live := s.live, nextUse := s.nextUse })

/-- Tells a register that an instruction reads about the next use of its value. -/
def markInput (liveOut : RegMap) (position : Option Int) (symbols : Symbols) (o : Operand) :
    Symbols × Operand :=
  let now : Symbol := { live := true, nextUse := position }
  match symbols.lookup o.register with
  | none =>
    (symbols.put o.register now,
      match liveOut.get? o.register with
      | some p => { o with live := true, nextUse := some p }
      | none => o)
  | some s => (symbols.put o.register now, { o with live := s.live, nextUse := s.nextUse })

def markInputs (liveOut : RegMap) (position : Option Int) :
    Symbols → List Operand → Symbols × List Operand
  | symbols, [] => (symbols, [])
  | symbols, o :: rest =>
    let (symbols, o) := markInput liveOut position symbols o
    let (symbols, rest) := markInputs liveOut position symbols rest
    (symbols, o :: rest)

/-- Marks one instruction: what it writes, then what it reads. -/
def markInstr (liveOut : RegMap) (symbols : Symbols) (i : Instr) : Symbols × Instr :=
  let (symbols, output) := match i.output with
    | some o =>
      let (symbols, o) := markOutput liveOut symbols o
      (symbols, some o)
    | none => (symbols, none)
  let (symbols, inputs) := markInputs liveOut i.position symbols i.inputs
  (symbols, { i with output, inputs })

def markBody (liveOut : RegMap) : List Instr → Symbols × List Instr
  | [] => ([], [])
  | i :: rest =>
    let (symbols, rest) := markBody liveOut rest
    let (symbols, i) := markInstr liveOut symbols i
    (symbols, i :: rest)

def markBlock (b : Int) : CompileM Unit := do
  let blk ← block b
  if blk.kind = .basic then
    let (symbols, marked) := markBody blk.liveOut (← body blk)
    (blk.body.toList.zip marked).forM fun (id, i) => setInstr id i
    setBlock b { blk with symbols }

/-- Inputs that are there when the program starts need no other instruction. -/
def releaseEntry : CompileM Unit := do
  let entry ← block 0
  entry.liveOut.forM fun (_, position) => do
    let p ← placeOf (some position)
    let blk ← block (← need p.block)
    blk.body.toList.forM fun id => do
      let i ← instr id
      if i.position == some position then setInstr id { i with pending := i.pending - 1 }

def insideBlocks : CompileM Unit := do
  (List.range (← get).blocks.size).forM fun (b : Nat) => markBlock b
  releaseEntry

def analyse : CompileM Unit := do
  acrossBlocks
  insideBlocks

end BpfLanes.Liveness
