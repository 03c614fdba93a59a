import BpfLanes.Fault

/-! # Spans of bytes

Six bytes are moved piece by piece, all pieces of one size. The pieces seen so
far make up a left and a right run of bytes; when both runs exist and meet,
or when one run holds all six bytes, the span is complete. The second piece
decides whether the copy goes forward or backward.
-/

namespace BpfLanes.Peephole

/-- The way a copy goes. -/
inductive Direction where
  | pending
  | forward
  | backward
  deriving DecidableEq, Repr, Inhabited

/-- How far a copy has come. -/
structure Progress where
  direction : Option Direction := none
  count : Int := 0
  size : Option Int := none
  deriving DecidableEq, Repr, Inhabited

/-- A left run `[leftLow, leftHigh)` and a right run `[rightLow, rightHigh)`. -/
structure Span where
  leftLow : Option Int := none
  leftHigh : Option Int := none
  rightLow : Option Int := none
  rightHigh : Option Int := none
  deriving DecidableEq, Repr, Inhabited

def pieces (size : Option Int) : Except Fault Int := do
  let s ← need size
  if s = 0 then throw .divisionByZero
  return Int.tdiv 6 s

def sixApart (low high : Option Int) : Except Fault Bool := do
  let h ← need high
  let l ← need low
  return h - l == 6

namespace Span

/-- The outer bounds of a complete span: of the right run alone in a forward copy,
    of the left run alone in a backward copy, or of both runs when they meet. -/
def bounds? (s : Span) (p : Progress) : Except Fault (Option (Option Int × Option Int)) := do
  if p.count != (← pieces p.size) then return none
  let both : Except Fault (Option (Option Int × Option Int)) := do
    if ← sixApart s.leftLow s.rightHigh then
      return if s.leftHigh == s.rightLow then some (s.leftLow, s.rightHigh) else none
    else return none
  match p.direction with
  | some .forward =>
    if s.leftLow.isNone && s.leftHigh.isNone then
      return if ← sixApart s.rightLow s.rightHigh then some (s.rightLow, s.rightHigh) else none
    else both
  | some .backward =>
    if s.rightLow.isNone && s.rightHigh.isNone then
      return if ← sixApart s.leftLow s.leftHigh then some (s.leftLow, s.leftHigh) else none
    else both
  | _ => return none

def complete (s : Span) (p : Progress) : Except Fault Bool := do
  return (← s.bounds? p).isSome

/-- Whether a piece touches the single piece seen before it. -/
def touches (s : Span) (offset size : Int) : Bool :=
  s.leftLow == some (offset + size) || s.leftHigh == some offset

/-- Whether a piece extends one of the runs of a forward copy, or starts a left
    run in front of a right run that is not complete. -/
def continuesForward (s : Span) (complete : Except Fault Bool) (offset size : Int) :
    Except Fault Bool := do
  if s.leftHigh == some offset || s.rightHigh == some offset then return true
  if ← complete then return false
  return offset == (← need s.rightHigh) - (← pieces (some size))

/-- Whether a piece extends one of the runs of a backward copy, or ends at a
    distance `reach` from the left run while that is not complete. -/
def continuesBackward (s : Span) (complete : Except Fault Bool) (offset size reach : Int) :
    Except Fault Bool := do
  if s.leftLow == some (offset + size) || s.rightLow == some (offset + size) then return true
  if ← complete then return false
  return offset + size == (← need s.leftHigh) + reach

def start (s : Span) (offset size : Int) : Span :=
  { s with leftLow := some offset, leftHigh := some (offset + size) }

def turnForward (s : Span) (high : Int) : Span :=
  { leftLow := none, leftHigh := none, rightLow := s.leftLow, rightHigh := some high }

/-- Adds the second piece, which decides the direction. -/
def second (s : Span) (offset size : Int) (refusal : String) :
    Except Fault (Direction × Span) :=
  if s.leftLow == some (offset + size) then
    .ok (.backward, { s with leftLow := some offset })
  else if s.leftHigh == some offset then
    .ok (.forward, s.turnForward (offset + size))
  else .error (.violated refusal)

def extendForward (s : Span) (offset size : Int) (refusal : String) : Except Fault Span := do
  if s.leftHigh == some offset then
    return { s with leftHigh := some (offset + size) }
  if s.rightHigh == some offset then
    return { s with rightHigh := some (offset + size) }
  if offset == (← need s.rightHigh) - (← pieces (some size)) then
    return { s with leftLow := some offset, leftHigh := some (offset + size) }
  throw (.violated refusal)

/-- Adds a piece to a backward copy of which `count` pieces were seen. -/
def extendBackward (s : Span) (offset size count : Int) (refusal : String) :
    Except Fault Span := do
  if s.leftLow == some (offset + size) then return { s with leftLow := some offset }
  if s.rightLow == some (offset + size) then return { s with rightLow := some offset }
  if offset + size == (← need s.leftHigh) + ((← pieces (some size)) - count) * size then
    return { s with rightLow := some offset, rightHigh := some (offset + size) }
  throw (.violated refusal)

end Span

def loadRefusal : String := "invalid call of after_load, !illegal transition!"

def storeRefusal : String := "invalid call of after_store, !illegal transition!"

def bytesOfBits (bits : Option Int) : Except Fault Int := do
  return Int.tdiv (← need bits) 8

end BpfLanes.Peephole
