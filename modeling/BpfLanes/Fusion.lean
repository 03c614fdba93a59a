import BpfLanes.Compilation
import BpfLanes.Mnemonic

/-! # Fusion of neighbours

A copy followed by an operation on the copied value becomes one three-operand
instruction, and a constant result followed by an exit becomes one exit with
that result. Only the program changes; the blocks keep what they were parsed
from.
-/

namespace BpfLanes.Fusion

open Compilation

def neighbours {α : Type} (xs : List α) : List (α × α) := xs.zip (xs.drop 1)

/-- Whether an operation works in place on the register that the copy before it
    wrote, and has a three-operand form. -/
def canFuse (copy operation : Instr) : Except Fault Bool := do
  if !(← Fields.decode operation.word).isArithmetic then return false
  if !(← Fields.decode copy.word).isMove then return false
  let copied ← need copy.output
  let result ← need operation.output
  return copied.register == result.register && operation.reads result.register
    && (← Fields.decode operation.word).isFusible

/-- Fuses a copy and the operation after it, if that is possible. -/
def fuseMove (copy operation : Instr) : CompileM Unit := do
  if ← canFuse copy operation then
    let position ← need operation.position
    let source ← need copy.inputs.head?
    let word ← Word.setSource operation.word source.register
    let opcode ← need (Opcode.fused? (← Fields.decode word).opcode)
    let text ← Mnemonic.fuse operation.text source.register
    setProgram (some position) (word.setOpcode opcode) text
    setProgram (some (position - 1)) Word.nop "NOP"
    modify fun c => { c with fusedMoves := c.fusedMoves + 1 }

def fuseMoves (blk : Block) : CompileM Unit := do
  (neighbours (← body blk)).forM fun (copy, operation) => fuseMove copy operation

def fuseExit (result exit_ : Instr) : CompileM Unit := do
  if (← fieldsOf exit_).isExit then
    let f ← fieldsOf result
    if f.isMoveImmediate then
      let position ← need exit_.position
      let word ← Word.clearSource result.word
      setProgram (some (position - 1)) (word.setOpcode Opcode.moveExit)
        ("exit " ++ toString f.immediate)
      setProgram (some position) Word.nop "NOP"
      modify fun c => { c with fusedExits := c.fusedExits + 1 }

def fuseExits (blk : Block) : CompileM Unit := do
  (neighbours (← body blk)).forM fun (result, exit_) => fuseExit result exit_

/-- Fuses neighbours in every block, and exits in the blocks that end the
    program. -/
def fuseAll : CompileM Unit := do
  (← get).blocks.toList.forM fuseMoves
  let g ← flowGraph
  (← g.predecessors (g.nodes.length - 1)).forM fun b => do fuseExits (← block b)

end BpfLanes.Fusion
