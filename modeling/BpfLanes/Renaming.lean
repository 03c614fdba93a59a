import BpfLanes.Compilation
import BpfLanes.Mnemonic

/-! # Renaming registers

A value that would overwrite one still needed is put into another register:
the instruction that writes it and those that read it are changed, in the
block and in the rows that hold them already.
-/

namespace BpfLanes.Renaming

open Compilation

/-- The first register that is neither the stack pointer, nor needed after the
    block, nor in use. -/
def freeRegister (liveOut : RegMap) (used : List Int) : Except Fault Int :=
  match (List.range 16).find? fun (r : Nat) =>
      (r : Int) != Opcode.stackRegister && !liveOut.has r && !used.contains (r : Int) with
  | some r => .ok r
  | none => .error .noRegister

/-- Puts an instruction back into the slot that holds it, if it has one. -/
def refreshSlot (id : Nat) : CompileM Unit := do
  let i ← instr id
  let place ← placeOf i.position
  match place.lane with
  | none => pure ()
  | some lane =>
    let held ← instr (← need (← slot place.time lane))
    if held.position == i.position then setSlot place.time lane id

def renameOutput (id : Nat) (new : Int) : CompileM Unit := do
  let i ← instr id
  let o ← need i.output
  setInstr id { i with word := ← Word.setTarget i.word new }
  let text ← Mnemonic.renameOutput i.text o.register new
  let i ← instr id
  setInstr id { i with text, output := some { o with register := new } }
  refreshSlot id

def renameInput (id : Nat) (old new : Int) (k : Nat) : CompileM Unit := do
  let i ← instr id
  match i.inputs[k]? with
  | none => pure ()
  | some o =>
    if o.register == old then
      let text ← Mnemonic.renameInput i.text old new
      setInstr id { i with text }
      let word ← Word.setSource i.word new
      setInstr id { i with
        text, word, inputs := i.inputs.set k { o with register := new } }
      refreshSlot id

/-- Renames the inputs of the readers of a value, up to a branch or to the
    instruction that writes the old register again. -/
def renameReaders (blk : Block) (old new : Int) : List Int → CompileM Unit
  | [] => pure ()
  | n :: rest => do
    let id ← idAt blk n
    (List.range (← instr id).inputs.length).forM (renameInput id old new)
    let i ← instr id
    if !((← fieldsOf i).isBranch || i.writes old) then renameReaders blk old new rest

/-- Renames the value written by the first of some instructions of a block and read
    by the others. Gives the new register. -/
def rename (chain : List Int) (b : Int) (used : List Int) : CompileM Int := do
  let blk ← block b
  match chain with
  | [] => throw (.violated "Call to __rename_register for 0 instructions")
  | writer :: readers =>
    let new ← freeRegister blk.liveOut used
    let id ← idAt blk writer
    let old ← need (← instr id).output
    renameOutput id new
    renameReaders blk old.register new readers
    return new

end BpfLanes.Renaming
