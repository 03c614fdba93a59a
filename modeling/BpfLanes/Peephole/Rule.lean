import BpfLanes.Fault

/-! # Recogniser rules

A recogniser reads one instruction after another and is always in one of a
few phases. What it does is a list of rules: the first rule of the current
phase whose tests pass is taken. Tests may take notes while they look, so
they run in order and stop at the first that decides.
-/

namespace BpfLanes.Peephole

/-- A rule of a recogniser with notes `σ` and phases `φ`. -/
structure Rule (σ φ : Type) where
  source : φ
  target : φ
  whenAll : List (EStateM Fault σ Bool) := []
  unlessAny : List (EStateM Fault σ Bool) := []
  /-- done in order once the target phase is entered -/
  after : List (EStateM Fault σ Unit) := []

namespace Rule

variable {σ φ : Type}

def allHold : List (EStateM Fault σ Bool) → EStateM Fault σ Bool
  | [] => return true
  | t :: ts => do
    if ← t then allHold ts else return false

def noneHolds : List (EStateM Fault σ Bool) → EStateM Fault σ Bool
  | [] => return true
  | t :: ts => do
    if ← t then return false else noneHolds ts

def applies (r : Rule σ φ) : EStateM Fault σ Bool := do
  if ← allHold r.whenAll then noneHolds r.unlessAny else return false

/-- Enters the target phase, then does what the rule asks for. -/
def take (enter : φ → σ → σ) (r : Rule σ φ) : EStateM Fault σ Unit := do
  modify (enter r.target)
  r.after.forM id

/-- Takes the first rule that applies; without one, nothing changes. -/
def takeFirst (enter : φ → σ → σ) : List (Rule σ φ) → EStateM Fault σ Unit
  | [] => return ()
  | r :: rs => do
    if ← r.applies then r.take enter else takeFirst enter rs

/-- One step: the rules that start in the current phase, in order. -/
def step [DecidableEq φ] (phase : σ → φ) (enter : φ → σ → σ) (rules : List (Rule σ φ)) :
    EStateM Fault σ Unit := do
  let now := phase (← get)
  takeFirst enter (rules.filter fun r => r.source = now)

end Rule
end BpfLanes.Peephole
