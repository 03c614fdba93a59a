import BpfLanes.Peephole.Group
import BpfLanes.Peephole.Rule

/-! # Zero fills of the stack

The stack starts out as zeros. Recognises a register set to zero and then
stored to stack slots that nothing touched before, which need not be done.
-/

namespace BpfLanes.Peephole

/-- Where the recogniser of zero fills is. -/
inductive ZeroFill.Phase where
  | idle
  | zeroed
  | storing
  deriving DecidableEq, Repr, Inhabited

/-- The recogniser of zero fills. -/
structure ZeroFill where
  phase : ZeroFill.Phase := .idle
  register : Option Int := none
  /-- offsets of the stack slots that were touched -/
  accessed : List Int := []
  notes : Notes := {}
  deriving Repr, Inhabited

namespace ZeroFill

abbrev Step := EStateM Fault ZeroFill

def fields : Step Fields := do (← get).notes.fields

/-! ## Tests -/

def isZeroing : Step Bool := do
  let f ← fields
  return f.isMoveImmediate && f.immediate == 0

/-- Stores the register that holds zero to a stack slot not touched before. -/
def isZeroStore : Step Bool := do
  let f ← fields
  let s ← get
  if f.isStore && !s.accessed.contains f.offset then
    let value ← Position.get f.inputs.toArray 0
    if some value == s.register then
      return (← Position.get f.inputs.toArray 1) == Opcode.stackRegister
    else return false
  else return false

def overwrites : Step Bool := do
  let f ← fields
  let s ← get
  return f.output?.isSome && f.output? == s.register

def touchesStack : Step Bool := do
  let f ← fields
  if f.isLoad && f.output? == some Opcode.stackRegister then return true
  else if f.isStore then
    return (← Position.get f.inputs.toArray 1) == Opcode.stackRegister
  else return false

/-! ## Actions -/

/-- Notes the stack slot that the current instruction touches. -/
def markAccess : Step Unit := do
  let f ← fields
  modify fun s => { s with
    accessed := if s.accessed.contains f.offset then s.accessed else s.accessed ++ [f.offset] }

def keep : Step Unit := do
  let s ← get
  let (_, id) ← s.notes.now
  let notes ← s.notes.put (.nop id)
  set { s with notes := notes }

/-- Takes the instruction that sets a register to zero. -/
def beginFill : Step Unit := do
  let f ← fields
  modify fun s => { s with register := f.output? }
  keep

def forgetRegister : Step Unit := modify fun s => { s with register := none }

def dropGroup : Step Unit := modify fun s => { s with notes := s.notes.dropLast }

def openGroup : Step Unit := modify fun s => { s with notes := s.notes.addGroup }

/-! ## Rules -/

def rules : List (Rule ZeroFill Phase) := [
  { source := .idle, target := .zeroed, whenAll := [isZeroing], after := [beginFill] },
  { source := .idle, target := .idle, whenAll := [touchesStack], after := [markAccess] },
  { source := .idle, target := .idle, unlessAny := [isZeroing] },

  { source := .zeroed, target := .storing, whenAll := [isZeroStore],
    after := [keep, markAccess] },
  { source := .zeroed, target := .idle, whenAll := [overwrites], unlessAny := [isZeroing],
    after := [forgetRegister, dropGroup, openGroup] },
  { source := .zeroed, target := .idle, whenAll := [touchesStack],
    after := [markAccess, forgetRegister, dropGroup, openGroup] },
  { source := .zeroed, target := .zeroed, whenAll := [isZeroing],
    after := [dropGroup, openGroup, beginFill] },

  { source := .storing, target := .storing, whenAll := [isZeroStore],
    after := [keep, markAccess] },
  { source := .storing, target := .zeroed, whenAll := [isZeroing],
    after := [openGroup, beginFill] },
  { source := .storing, target := .idle, unlessAny := [isZeroStore],
    after := [forgetRegister, openGroup, markAccess] },
  { source := .storing, target := .idle, unlessAny := [touchesStack],
    after := [markAccess, forgetRegister, openGroup] }]

def read (word : Word) (id : Int) : Step Unit := do
  modify fun s => { s with notes := { s.notes with current := some (word, id) } }
  Rule.step ZeroFill.phase (fun p s => { s with phase := p }) rules

end ZeroFill
end BpfLanes.Peephole
