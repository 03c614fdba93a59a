import BpfLanes.Opcode
import BpfLanes.Text.Numeral
import BpfLanes.Word

/-! # Instruction fields

`Fields.decode` takes a word apart and `Fields.encode` puts one together.
The questions asked of an instruction (is it a jump, which registers does it
read, …) are functions of its fields.
-/

namespace BpfLanes

/-- The fields of an instruction: the offset is signed, the immediate is not. -/
structure Fields where
  opcode : Int
  dst : Int
  src : Int
  offset : Int
  immediate : Int
  deriving DecidableEq, Repr, Inhabited

namespace Fields

open Word (weight)

def decode (w : Word) : Except Fault Fields := do
  let r ← Word.reverseBytes 8 false w
  return {
    opcode := r % weight 8
    dst := r / weight 8 % weight 4
    src := r / weight 12 % weight 4
    offset := Word.asSigned 16 (r / weight 16 % weight 16).toNat
    immediate := r / weight 32 % weight 32 }

/-- Puts a word together; of each field only the bits that have a place count. -/
def encode (f : Fields) : Word :=
  f.opcode % weight 8 * weight 56 + f.src % weight 4 * weight 52 + f.dst % weight 4 * weight 48
    + Word.swapBytes 2 false (f.offset % weight 16) * weight 32
    + Word.swapBytes 4 false (f.immediate % weight 32)

/-! ## Classes -/

def isBranch (f : Fields) : Bool := Opcode.branches.contains f.opcode
def isCall (f : Fields) : Bool := f.opcode == Opcode.call
def isGoto (f : Fields) : Bool := f.opcode == Opcode.goto
def isExit (f : Fields) : Bool := Opcode.exits.contains f.opcode
def isMoveExit (f : Fields) : Bool := f.opcode == Opcode.moveExit

def isJump (f : Fields) : Bool := f.isBranch && !f.isExit && !f.isCall

def isConditional (f : Fields) : Bool :=
  f.isBranch && !Opcode.plainBranches.contains f.opcode

def isGreaterJump (f : Fields) : Bool := Opcode.greaterJumps.contains f.opcode
def isPlainBranch (f : Fields) : Bool := Opcode.plainBranches.contains f.opcode
def isOffsetlessBranch (f : Fields) : Bool := Opcode.offsetlessBranches.contains f.opcode

def isNop (f : Fields) : Bool := f.opcode == Opcode.nop
def isArithmetic (f : Fields) : Bool := Opcode.arithmetic.contains f.opcode
def isAddImmediate (f : Fields) : Bool := Opcode.addImmediate.contains f.opcode
def isAddRegister (f : Fields) : Bool := Opcode.addRegister.contains f.opcode
def isMove (f : Fields) : Bool := f.opcode == Opcode.move
def isMoveImmediate (f : Fields) : Bool := f.opcode == Opcode.moveImmediate

def isFusible (f : Fields) : Bool := (Opcode.fused? f.opcode).isSome
def isFused (f : Fields) : Bool := Opcode.fused.contains f.opcode

def isLoad (f : Fields) : Bool := Opcode.loads.contains f.opcode
def isStore (f : Fields) : Bool := Opcode.stores.contains f.opcode
def isNarrowLoad (f : Fields) : Bool := Opcode.narrowLoads.contains f.opcode
def isNarrowStore (f : Fields) : Bool := Opcode.narrowStores.contains f.opcode

/-- Every opcode outside the class that reads no register field. -/
def mayRead (f : Fields) : Bool := !Opcode.readsNothing.contains f.opcode

def loadBits? (f : Fields) : Option Int := Opcode.loadBits.lookup f.opcode

def storeBits? (f : Fields) : Option Int := Opcode.storeBits.lookup f.opcode

/-! ## Operands -/

/-- The registers read; an exit reads the result register. -/
def inputs (f : Fields) : List Int :=
  if Opcode.readsSource.contains f.opcode then [f.src]
  else if Opcode.readsTarget.contains f.opcode then [f.dst]
  else if Opcode.readsBoth.contains f.opcode then [f.src, f.dst]
  else if f.isExit then [0]
  else []

def output? (f : Fields) : Option Int :=
  if Opcode.writesNothing.contains f.opcode then none else some f.dst

/-! ## Text -/

/-- One line with the fields in hexadecimal, after an optional line number. -/
def line (f : Fields) (number : Option Int) : String :=
  (match number with
    | some n => toString n ++ ": "
    | none => "")
  ++ "|0x" ++ Numeral.zeroPadded 16 2 f.opcode
  ++ "|0x" ++ Numeral.zeroPadded 16 1 f.dst
  ++ "|0x" ++ Numeral.zeroPadded 16 1 f.src
  ++ "|0x" ++ Numeral.zeroPadded 16 4 f.offset
  ++ "|0x" ++ Numeral.zeroPadded 16 8 f.immediate ++ "|"

end Fields

namespace Word

/-- Replaces the registers that a word reads, in the order of `Fields.inputs`.
    A word that reads no register field has no such form. -/
def setInputs (w : Word) (registers : List Int) : Except Fault (Option Word) := do
  let f ← Fields.decode w
  if Opcode.readsSource.contains f.opcode then
    match registers with
    | r :: _ => return some (← setSource w r)
    | [] => throw .outOfRange
  else if Opcode.readsTarget.contains f.opcode then
    match registers with
    | r :: _ => return some (← setTarget w r)
    | [] => throw .outOfRange
  else if Opcode.readsBoth.contains f.opcode then
    match registers with
    | [] => throw .outOfRange
    | s :: rest =>
      let w ← setSource w s
      match rest with
      | [] => throw .outOfRange
      | d :: _ => return some (← setTarget w d)
  else return none

def bitLine (w : Word) : String :=
  let bits := (Numeral.blankPadded 2 64 w).toList.map fun c => if c == ' ' then '0' else c
  let part (start stop : Nat) : String := String.ofList ((bits.take stop).drop start)
  "|" ++ part 0 8 ++ "|" ++ part 8 12 ++ "|" ++ part 12 16 ++ "|" ++ part 16 32 ++ "|"
    ++ part 32 64 ++ "|"

end Word

/-- A program listed with one line of fields per instruction. The lines before a
    word that cannot be decoded are still listed. -/
def listing (words : List Word) : EStateM Fault String Unit := do
  modify (· ++ "\nProgram:\n")
  for (w, i) in words.zipIdx do
    let f ← Fields.decode w
    modify (· ++ f.line (some i) ++ "\n")
  modify (· ++ "\n")

end BpfLanes
