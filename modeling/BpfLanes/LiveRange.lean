import BpfLanes.Fault

/-! # Live ranges

While rows are filled, the scheduler records every value that a later
instruction still needs: the register that holds it, the instruction and the
row that define it, the instruction that uses it last and, once that one is
placed, its row.
-/

namespace BpfLanes

/-- A value in a register. -/
structure LiveRange where
  register : Int
  /-- the instruction that defines the value -/
  definedBy : Int
  lastUse : Option Int
  row : Int
  /-- the row of the last use, once it is placed -/
  endRow : Option Int
  deriving DecidableEq, Repr, Inhabited

namespace LiveRange

def outlives (r : LiveRange) (row : Int) : Bool :=
  match r.endRow with
  | none => true
  | some e => row < e

def reaches (r : LiveRange) (row : Int) : Bool :=
  match r.endRow with
  | none => true
  | some e => row ≤ e

/-- The same definition: register, instruction and row agree. -/
def isDefinition (r : LiveRange) (register definedBy row : Int) : Bool :=
  r.register == register && r.row == row && r.definedBy == definedBy

end LiveRange

abbrev LiveRanges := List LiveRange

namespace LiveRanges

/-- Changes the first element that satisfies a test, and only that one. -/
def modifyFirst (p : LiveRange → Bool) (f : LiveRange → LiveRange) : LiveRanges → LiveRanges
  | [] => []
  | r :: rest => if p r then f r :: rest else r :: modifyFirst p f rest

/-- The newest value in a register that is needed after a row. -/
def conflict? (rs : LiveRanges) (register row : Int) : Option LiveRange :=
  rs.reverse.find? fun r => r.register == register && r.outlives row

/-- The oldest value in a register that is needed at a row or later. -/
def pending? (rs : LiveRanges) (register row : Int) : Option LiveRange :=
  rs.find? fun r => r.register == register && r.reaches row

/-- Records a definition; one that is recorded already only gets its end row. -/
def define (rs : LiveRanges) (d : LiveRange) : LiveRanges :=
  let same := fun r : LiveRange => r.isDefinition d.register d.definedBy d.row
  if rs.any same then modifyFirst same (fun r => { r with endRow := d.endRow }) rs
  else rs ++ [d]

def rename (rs : LiveRanges) (old new definedBy row : Int) : LiveRanges :=
  modifyFirst (fun r => r.isDefinition old definedBy row) (fun r => { r with register := new }) rs

/-- Records that an instruction placed at a row reads a register: the oldest value
    still needed ends there if this is its last use and its end is open. -/
def readOne (rs : LiveRanges) (register row : Int) (user : Option Int) : LiveRanges :=
  match pending? rs register row with
  | some r =>
    if r.lastUse == user && r.endRow.isNone then
      modifyFirst (fun r => r.register == register && r.reaches row)
        (fun r => { r with endRow := some row }) rs
    else rs
  | none => rs

/-- Records that an instruction placed at a row reads some registers. -/
def read (rs : LiveRanges) (registers : List Int) (row : Int) (user : Option Int) : LiveRanges :=
  registers.foldl (fun rs register => rs.readOne register row user) rs

/-- Forgets the values that no instruction after `stop` uses. -/
def leaveBlock (rs : LiveRanges) (stop : Int) : Except Fault LiveRanges :=
  rs.filterM fun r => do
    let use ← need r.lastUse
    return decide (stop < use)

/-- The registers with a value that is needed after a row, each once. -/
def taken (rs : LiveRanges) (row : Int) : List Int :=
  rs.foldl (fun seen r =>
    if r.outlives row && !seen.contains r.register then seen ++ [r.register] else seen) []

end LiveRanges
end BpfLanes
