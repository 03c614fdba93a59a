import BpfLanes.Instr
import BpfLanes.RegMap

/-! # Blocks

A program is cut into blocks of instructions that run one after another. A
block refers to its instructions by their numbers in the instruction store,
which the rows of the schedule share.
-/

namespace BpfLanes

/-- The kinds of blocks. Only basic blocks hold instructions. -/
inductive BlockKind where
  | start
  | exit
  | basic
  | call
  /-- a basic block whose only instruction was moved away -/
  | disabled
  deriving DecidableEq, Repr, Inhabited

namespace BlockKind

def name : BlockKind → String
  | start => "START"
  | exit => "EXIT"
  | basic => "BASIC"
  | call => "CALL"
  | disabled => "DISABLED"

end BlockKind

/-- What is known about the value in a register at a point of a block. -/
structure Symbol where
  live : Bool
  nextUse : Option Int
  deriving DecidableEq, Repr, Inhabited

abbrev Symbols := List (Int × Symbol)

namespace Symbols

def put (t : Symbols) (r : Int) (s : Symbol) : Symbols :=
  if t.any fun e => e.1 == r then t.map fun e => if e.1 == r then (r, s) else e
  else t ++ [(r, s)]

end Symbols

/-- A block. -/
structure Block where
  kind : BlockKind
  start : Int
  len : Int
  /-- numbers of the instructions in the store -/
  body : Array Nat := #[]
  /-- registers needed after the block, with the position that needs them -/
  liveOut : RegMap := []
  liveIn : RegMap := []
  defs : RegMap := []
  uses : RegMap := []
  symbols : Symbols := []
  taken : List Int := []
  /-- block that follows when no branch is taken -/
  fall : Option Int := none
  deriving DecidableEq, Repr, Inhabited

namespace Block

def stop (b : Block) : Int := b.start + b.len

def entry : Block := { kind := .start, start := -1, len := 0, fall := some 1 }

end Block
end BpfLanes
