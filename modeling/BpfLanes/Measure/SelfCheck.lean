import BpfLanes.Measure.Bench
import BpfLanes.Measure.Fingerprint
import BpfLanes.Measure.Profile

/-! # Self-checks of benches

A bench checks itself if its value tells whether the work was done right. Every
bench is called twice without arguments, and once with each of the arguments
that it lists. The row of a bench holds the fingerprints of all values and the
times of the calls. A bench that is cut short keeps what its row held before.
-/

namespace BpfLanes

/-- What is known about a bench. Tables are by the label of a call's arguments. -/
structure CheckRow where
  /-- the type of the first value, or what cut the call short -/
  type : Option String := none
  /-- fingerprints of the values without arguments -/
  stable : List String := []
  /-- fingerprints of the values by arguments -/
  byParam : List (String × String) := []
  /-- fingerprints of the arguments themselves -/
  params : List String := []
  /-- milliseconds in the repository's code -/
  ownTime : List (String × Binary64) := []
  /-- parts of the time in the repository's code -/
  ownPart : List (String × Binary64) := []
  compiledPart : List (String × Binary64) := []
  deriving DecidableEq, Repr, Inhabited

namespace SelfCheck

/-- The state of a check: the row, the profiles that are left, the calls made. -/
structure State where
  row : CheckRow
  profiles : List Profile
  calls : Nat
  deriving Repr, Inhabited

abbrev CheckM := EStateM Interrupt State

/-- Sets the entry of a label. A label that is there keeps its place. -/
def assign {α : Type} (label : String) (a : α) : List (String × α) → List (String × α)
  | [] => [(label, a)]
  | (l, a') :: rest => if l == label then (l, a) :: rest else (l, a') :: assign label a rest

def label (args : Arguments) : String :=
  if args.isEmpty then "-"
  else ",".intercalate (args.map fun p => p.1 ++ "=" ++ p.2.plain)

def call (b : Bench) (args : Arguments) : CheckM Value := do
  let s ← get
  set { s with calls := s.calls + 1 }
  match b.call s.calls args with
  | .ok v => return v
  | .error cause => throw cause

def note (f : CheckRow → CheckRow) : CheckM Unit :=
  modify fun s => { s with row := f s.row }

def enterProfile (label : String) : CheckM Unit :=
  modify fun s =>
    let p := s.profiles.headD .empty
    let own := p.timeIn Frame.isOwn
    let ms := (own.mul (.ofInt 1000)).roundTo 3
    let ownPart := (p.part own).roundTo 3
    let compiled := (p.part (p.timeIn Frame.isCompiled)).roundTo 3
    let row := s.row
    let row := {
      row with
      ownTime := assign label ms row.ownTime
      ownPart := assign label ownPart row.ownPart
      compiledPart := assign label compiled row.compiledPart }
    { s with row := row, profiles := s.profiles.tail }

/-- Calls without arguments: the type and a fingerprint from the first, a second
    fingerprint and the times from the second. A brief check makes only one. -/
def withoutArguments (b : Bench) (brief : Bool) : CheckM Unit := do
  let first ← call b []
  note fun r => { r with type := some first.typeName, stable := [first.fingerprint] }
  if !brief then
    let second ← call b []
    note fun r => { r with stable := r.stable ++ [second.fingerprint] }
    enterProfile "<default>"

def withArguments (b : Bench) (args : Arguments) : CheckM Unit := do
  let v ← call b args
  note fun r => { r with byParam := assign (label args) v.fingerprint r.byParam }
  enterProfile (label args)

def checkBench (b : Bench) (brief : Bool) : CheckM Unit := do
  withoutArguments b brief
  if !brief then
    let values := b.params.flatMap fun args => args.map fun p => p.2.fingerprint
    note fun r => { r with params := values }
    b.params.forM (withArguments b)

def rows (brief : Bool) : List Profile → List Bench → List (String × CheckRow)
  | _, [] => []
  | profiles, b :: bs =>
    match (checkBench b brief).run ⟨{}, profiles, 0⟩ with
    | .ok _ s => (b.name, s.row) :: rows brief s.profiles bs
    | .error cause s =>
      (b.name, { s.row with type := some cause.mark }) :: rows brief s.profiles bs

end SelfCheck
end BpfLanes
