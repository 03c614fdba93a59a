import BpfLanes.Fields

/-! # Instructions under compilation

An instruction as the compiler keeps it: its word and its mnemonic, the
registers it reads and writes with what is known about their next use, and
where it came from.
-/

namespace BpfLanes

/-- A register that an instruction reads or writes. -/
structure Operand where
  register : Int
  live : Bool := false
  /-- the position of the next use of the value -/
  nextUse : Option Int := none
  deriving DecidableEq, Repr, Inhabited

/-- An instruction. -/
structure Instr where
  word : Word
  text : String
  inputs : List Operand
  output : Option Operand
  position : Option Int
  jumpsTo : Option Int := none
  /-- inputs that other instructions must provide -/
  pending : Int
  deriving DecidableEq, Repr, Inhabited

namespace Instr

/-- The instruction at a position of the program. One that does nothing writes no
    register. -/
def parse (word : Word) (text : String) (position : Int) : Except Fault Instr := do
  let f ← Fields.decode word
  return {
    word, text
    inputs := f.inputs.map fun r => { register := r }
    output := if f.isNop then none else f.output?.map fun r => { register := r }
    position := some position
    pending := f.inputs.length }

/-- What is left in the place of an instruction that was moved away. -/
def placeholder : Instr :=
  { word := Word.nop, text := "NOP", inputs := [], output := none, position := none, pending := 0 }

def reads (i : Instr) (r : Int) : Bool := i.inputs.any fun o => o.register == r

def writes (i : Instr) (r : Int) : Bool := i.output.any fun o => o.register == r

end Instr
end BpfLanes
