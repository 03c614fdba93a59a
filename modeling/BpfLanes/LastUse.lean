import BpfLanes.Compilation

/-! # Where values come from and end

Following next uses from block to block leads to the last instruction that
uses a value; looking back through the blocks leads to an instruction that
wrote a register.
-/

namespace BpfLanes.LastUse

open Compilation

/-- What one instruction says about the walk along the uses of a register. -/
inductive Hop where
  | stop (position : Option Int)
  | next (position : Int)
  deriving DecidableEq, Repr

/-- Looks at the inputs of an instruction in order. An input without a next use
    ends the walk; otherwise the last one that reads the register leads on. -/
def hopInputs (register : Int) : Int → List Operand → Hop
  | now, [] => .next now
  | now, o :: rest =>
    if o.register == register then
      match o.nextUse with
      | none => .stop (some now)
      | some p => hopInputs register p rest
    else hopInputs register now rest

/-- Looks at one instruction. One that writes the register, or a call, ends the
    walk. -/
def hop (register position : Int) (i : Instr) : Except Fault Hop := do
  if i.writes register || (← Fields.decode i.word).isCall then return .stop i.position
  else return hopInputs register position i.inputs

/-- Walks along the uses of a register. A walk of more hops than there are
    instructions comes back to where it was. -/
def walk (register : Int) : Nat → Int → CompileM (Option Int)
  | 0, _ => throw .endless
  | fuel + 1, position => do
    match ← hop register position (← instrOf position) with
    | .stop p => return p
    | .next p => walk register fuel p

/-- The last instruction that uses the value which is used next at a position. -/
def find (next : Option Int) (register : Int) : CompileM (Option Int) := do
  match next with
  | none => return none
  | some p => walk register ((← get).store.size + 1) p

/-- The last instruction of a block that writes a register. -/
def writerIn (blk : Block) (register : Int) : CompileM (Option Instr) := do
  return (← body blk).reverse.find? fun i => i.writes register

/-- The first of some registers that a basic block writes, by its last writer. -/
def definitionIn (blk : Block) : List Int → CompileM (Option Instr)
  | [] => return none
  | r :: rest => do
    if blk.defs.has r && blk.kind = .basic then
      match ← writerIn blk r with
      | some i => return some i
      | none => definitionIn blk rest
    else definitionIn blk rest

/-- Looks back through the blocks from `b` down to the first one. -/
def definitionBefore (registers : List Int) : Nat → CompileM (Option Int)
  | 0 => return none
  | b + 1 => do
    match ← definitionIn (← block (b + 1)) registers with
    | some i => return i.position
    | none => definitionBefore registers b

/-- The position of an instruction before block `b` that writes one of some
    registers, in the nearest block that does. -/
def definition (registers : List Int) (b : Int) : CompileM (Option Int) :=
  if registers.isEmpty then return none
  else definitionBefore registers (b - 1).toNat

end BpfLanes.LastUse
