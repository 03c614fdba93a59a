import BpfLanes.Measure.Value

/-! # Benches

A bench is a named function that sets up some work and returns its outcome. It
may be called with named arguments, and it lists the arguments that it is meant
to be called with.
-/

namespace BpfLanes

/-- An error that a call ended with: its kind and its text. -/
structure Raised where
  kind : String
  message : String
  deriving DecidableEq, Repr, Inhabited

namespace Raised

def line (r : Raised) : String :=
  r.kind ++ ": " ++ r.message

end Raised

/-- What cuts a call short. -/
inductive Interrupt where
  | raised (error : Raised)
  | timeout
  deriving DecidableEq, Repr, Inhabited

namespace Interrupt

def mark : Interrupt → String
  | raised error => "<" ++ error.kind ++ ">"
  | timeout => "<timeout>"

def line : Interrupt → String
  | raised error => error.line
  | timeout => Raised.line ⟨"TimeoutError", ""⟩

end Interrupt

abbrev Arguments := List (String × Value)

/-- What a bench does when it is called. -/
inductive Conduct where
  | constant
  | interrupted (cause : Interrupt)
  | returns (value : Value)
  /-- each call returns the next value, and after the last the first again -/
  | cycles (values : List Value)
  /-- it returns an argument, or a value if that is missing; wrapped in a list if
      asked to -/
  | echoes (key : String) (otherwise : Value) (wrapped : Bool)
  deriving Repr, Inhabited

/-- A bench. -/
structure Bench where
  name : String
  conduct : Conduct
  /-- the arguments it is meant to be called with -/
  params : List Arguments
  deriving Repr, Inhabited

namespace Bench

/-- What a call gives, after a number of earlier calls. -/
def call (b : Bench) (earlier : Nat) (args : Arguments) : Except Interrupt Value :=
  match b.conduct with
  | .constant => .ok .absent
  | .interrupted cause => .error cause
  | .returns value => .ok value
  | .cycles values => .ok (values.getD (earlier % values.length) .absent)
  | .echoes key otherwise wrapped =>
    let v := (args.lookup key).getD otherwise
    .ok (if wrapped then .list [.text "w", v] else v)

/-- Whether an entry counts as a bench: it has the right name and can be called. -/
def counts (b : Bench) : Bool :=
  b.name.startsWith "bench_" && match b.conduct with
    | .constant => false
    | _ => true

/-- The benches among the entries, in order of their names. -/
def select (entries : List Bench) : List Bench :=
  (entries.filter counts).mergeSort fun a b => !(b.name < a.name)

end Bench

/-- A module of benches, or the error that kept it from being loaded. -/
abbrev Suite := Except Raised (List Bench)

end BpfLanes
