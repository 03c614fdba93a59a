import BpfLanes.LastUse
import BpfLanes.Peephole.CopyBatch
import BpfLanes.Peephole.CopyPairs
import BpfLanes.Peephole.ZeroFill

/-! # Removing and replacing instructions

A set of replacements is applied to the program from its end to its start.
When an instruction is dropped, later uses of its value that are to be
replaced as well are dropped with it.
-/

namespace BpfLanes.Removal

open Compilation
open Peephole (Group Entry)

def drop (positions : List (Option Int)) : CompileM Unit :=
  positions.forM fun p => setProgram p Word.nop "NOP"

/-- Follows one input: a use of the dropped value joins the pending ones, and when
    it is the last use they are all dropped. -/
def followInput (register : Int) (state : Option Int × List (Option Int)) (o : Operand) :
    CompileM (Option Int × List (Option Int)) := do
  if o.register == register then
    let pending := state.2 ++ [state.1]
    if o.nextUse.isNone then drop pending
    return (o.nextUse, pending)
  else return state

/-- Follows the uses of a dropped value as long as they are to be replaced. -/
def follow (group : Group) (register : Int) : Nat → Option Int → List (Option Int) → CompileM Unit
  | _, none, _ => return ()
  | 0, some _, _ => throw .endless
  | fuel + 1, some next, pending => do
    let i ← instrOf next
    if !(i.position.any fun p => (group.find? p).isSome) then return ()
    let (next, pending) ← i.inputs.foldlM (followInput register) (some next, pending)
    if i.writes register || (← fieldsOf i).isCall then drop pending
    else follow group register fuel next pending

/-- Applies one replacement. What does nothing already is left alone. -/
def apply (group : Group) (e : Entry) : CompileM Unit := do
  let word ← Position.get (← get).words e.id
  if word == Word.nop then return ()
  if (← Fields.decode word).isBranch then setProgram (some e.id) e.word e.text
  else
    let i ← instrOf e.id
    setProgram (some e.id) e.word e.text
    if e.text == "NOP" then
      match i.output with
      | some o =>
        follow group o.register (2 * (← get).store.size + 2) o.nextUse [some e.id]
      | none => pure ()

def applyAll (group : Group) : CompileM Unit :=
  group.reverse.forM fun e => apply group e

/-! ## Recognised sequences -/

/-- The recognisers that run side by side. -/
structure Watchers where
  pairs : Peephole.CopyPairs := {}
  batch : Peephole.CopyBatch := {}
  zeros : Peephole.ZeroFill := {}
  deriving Repr, Inhabited

def watch {σ : Type} (s : σ) (read : EStateM Fault σ Unit) : Except Fault σ :=
  match read.run s with
  | .ok _ s => .ok s
  | .error e _ => .error e

def Watchers.read (w : Watchers) (i : Instr) : Except Fault Watchers := do
  let position ← need i.position
  let pairs ← watch w.pairs (Peephole.CopyPairs.read i.word position)
  let batch ← watch w.batch (Peephole.CopyBatch.read i.word position)
  let zeros ← watch w.zeros (Peephole.ZeroFill.read i.word position)
  return { pairs, batch, zeros }

/-- All replacements that the recognisers ask for; later ones win. -/
def Watchers.replacements (w : Watchers) : Group :=
  (w.pairs.notes.groups ++ w.batch.notes.groups ++ w.zeros.notes.groups).foldl
    (fun g h => g.update h) []

/-- Finds copies of six bytes and zero fills in the basic blocks and replaces them. -/
def advanced : CompileM Unit := do
  let c ← get
  let bodies := (c.blocks.toList.filter fun b => b.kind = .basic).flatMap c.bodyOf
  let w ← (bodies.foldlM Watchers.read {} : Except Fault Watchers)
  applyAll w.replacements

end BpfLanes.Removal
