/-! # Faults

Everything that can stop a step of the compiler or of the tools around it.
A fault names its cause; the wording shown to people is `Fault.message`.

Stateful steps run in `EStateM Fault σ`: what was done before a fault stays
done, and a step that recovers from a fault sees the state as it was left.
-/

namespace BpfLanes

/-- The cause of a failed step. -/
inductive Fault where
  | outOfRange
  | missingKey
  /-- an absent value was used as a number, a position or a record -/
  | missingNumber
  /-- an absent value was asked for one of its parts -/
  | missingPart
  /-- a number does not fit in the bytes it should be written to -/
  | tooWide
  | negativeAmount
  | badNumeral
  | divisionByZero
  | unassigned
  /-- a condition that the step relies on does not hold -/
  | violated (condition : String)
  | noRegister
  /-- a graph that should be acyclic has a cycle -/
  | cyclicGraph
  | unknownNode
  /-- a walk that comes back to where it was and never ends -/
  | endless
  | halted (code : Int)
  | noFile
  | badDocument
  deriving DecidableEq, Repr, Inhabited

namespace Fault

/-- The text that goes with a fault, where it has one. -/
def message : Fault → Option String
  | violated condition => some condition
  | noRegister => some "No registers available"
  | cyclicGraph => some "Graph contains a cycle or graph changed during iteration"
  | halted code => some (toString code)
  | _ => none

end Fault

/-- A step without state runs inside a stateful one and leaves the state alone. -/
instance {σ : Type} : MonadLift (Except Fault) (EStateM Fault σ) where
  monadLift
    | .ok a => pure a
    | .error e => throw e

/-- An absent number, position or record stops the step. -/
def need {α : Type} : Option α → Except Fault α
  | some a => .ok a
  | none => .error .missingNumber

/-- A condition that must hold, with the text that is reported when it does not. -/
def require (condition : Bool) (text : String) : Except Fault Unit :=
  if condition then .ok () else .error (.violated text)

end BpfLanes
