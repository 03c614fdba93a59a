import BpfLanes.Workload.Printing
import BpfLanes.Workload.Streams

/-! # The catalogue of workloads

Every workload has one parameter, which sets its size, and three sizes it is
usually run at. The middle one is taken when none is given.
-/

namespace BpfLanes.Workload

/-- What a workload does at a size, given what was printed before it. -/
abbrev Action := Int → String → Except Fault Doc

/-- A workload that can be asked for by name. -/
structure Entry where
  name : String
  parameter : String
  small : Int
  middle : Int
  large : Int
  /-- printed by the set-up, which the first run is charged with -/
  setUp : String := ""
  action : Option Action := none

namespace Entry

def sizes (w : Entry) : List Int := [w.small, w.middle, w.large]

def parameters (w : Entry) : Doc :=
  .list (w.sizes.map fun n => .object [(w.parameter, .int n)])

def results (w : Entry) (action : Action) (size : Int) : Nat → List (Except Fault Doc)
  | 0 => []
  | runs + 1 => action size w.setUp :: List.replicate runs (action size "")

end Entry

def silent (f : Int → Except Fault Doc) : Option Action := some fun n _ => f n

def catalogue : List Entry := [
  { name := "boundary_checks", parameter := "n_programs", small := 1, middle := 3, large := 5,
    action := silent checkBounds },
  { name := "file_io", parameter := "n_programs", small := 2, middle := 4, large := 6,
    action := silent fileSamples },
  { name := "load48store48", parameter := "n_seqs", small := 40, middle := 150, large := 600,
    action := silent (streamResult batchedCopies) },
  { name := "loadstore48", parameter := "n_seqs", small := 40, middle := 200, large := 800,
    action := silent (streamResult pairedCopies) },
  { name := "memset_to_zero", parameter := "n_seqs", small := 150, middle := 600, large := 2400,
    action := silent (streamResult zeroFills) },
  { name := "optimize_programs", parameter := "n_programs", small := 1, middle := 3, large := 5,
    action := silent compileSamples },
  { name := "optimizer_helpers", parameter := "n_items", small := 150, middle := 600,
    large := 2400 },
  { name := "parser_roundtrip", parameter := "n_instrs", small := 300, middle := 1500,
    large := 6000 },
  { name := "register_cache", parameter := "n_ops", small := 400, middle := 2000,
    large := 6000 },
  { name := "tableit", parameter := "grid_w", small := 40, middle := 120, large := 400,
    action := silent printGrids },
  { name := "tester", parameter := "n_instrs", small := 80, middle := 300, large := 1200,
    setUp := setUpOutput, action := some listProgram }]

/-- The programs and the numbers of their words. No workload works on the last one. -/
def programs : List (String × Nat) :=
  [Samples.drop, Samples.reflect, Samples.adjustTail, Samples.redirectMap, Samples.router,
    Samples.queueInfo].map (fun s => (s.name, s.code.length)) ++ [("xdp_tx_iptunnel", 283)]

/-- The usual parameters of all workloads and the sizes of all programs. -/
def overview : Doc :=
  .object [
    ("params", .list (catalogue.map fun w => .list [.text w.name, w.parameters])),
    ("programs", .list (programs.map fun (name, size) => .list [.text name, count size]))]

/-- Runs a workload so many times, at its middle size if no size is given. There
    is no result for a name without an action. -/
def run? (name : String) (given : List (String × Int)) (runs : Nat) :
    Option (List (Except Fault Doc)) := do
  let w ← catalogue.find? fun w => w.name == name
  return w.results (← w.action) ((given.lookup w.parameter).getD w.middle) runs

end BpfLanes.Workload
