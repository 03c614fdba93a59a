import BpfLanes.Doc.Reader
import BpfLanes.Fault
import BpfLanes.Measure.Bench

/-! # Coverage runs

A coverage run calls every bench once while a recorder watches which lines are
reached. The recorder's report is then completed with the errors of the benches
and written to a file, and its totals are printed.
-/

namespace BpfLanes

/-- What is asked of the recorder. -/
inductive RecorderStep where
  /-- a new recorder that leaves out some files -/
  | opened (leftOut : Doc)
  | started
  | stopped
  | reported
  deriving Repr, Inhabited

/-- What a coverage run leaves behind. -/
structure CoverageRun where
  steps : List RecorderStep := []
  report : Option Doc := none
  printed : String := ""
  fault : Option Fault := none
  deriving Inhabited

namespace CoverageRun

/-- How many benches there are, and the errors they ended with. A suite that cannot
    be loaded has one error and no bench. -/
def callAll : Suite → Nat × List (String × Doc)
  | .error r => (0, [("<import>", .text r.line)])
  | .ok entries =>
    let benches := Bench.select entries
    (benches.length, benches.filterMap fun b =>
      match b.call 0 [] with
      | .ok _ => none
      | .error cause => some (b.name, .text cause.line))

/-- The report with the number of benches and their errors among its notes. -/
def complete (report : Doc) (count : Nat) (errors : List (String × Doc)) : Doc :=
  let notes := ((report.get? "meta").getD (.object [])).entries
  let notes := Doc.assign "_pti_bench_errors" (.object errors) notes
  let notes := Doc.assign "_pti_n_benches" (.int count) notes
  .object (Doc.assign "meta" (.object notes) report.entries)

def shown : Doc → String
  | .int i => toString i
  | .real x => x.text
  | _ => "None"

def summary (report : Doc) (count errors : Nat) : Except Fault String := do
  let find (d : Doc) (key : String) : Except Fault Doc := match d.get? key with
    | some found => .ok found
    | none => .error .missingKey
  let totals ← find report "totals"
  let percent ← need (← find totals "percent_covered").number?
  let covered ← find totals "covered_lines"
  let statements ← find totals "num_statements"
  return s!"coverage: {percent.fixed 1}% ({shown covered}/{shown statements} stmts, "
    ++ s!"{count} benches, {errors} errors)\n"

/-- Runs a suite with the recorder's report given. The second text says, as a
    document, which files are left out; without it none are. -/
def run (suite : Suite) (given : Nat) (leftOut : String) (report : Doc) : CoverageRun :=
  if given < 3 then { fault := some .outOfRange }
  else
    match if given < 4 then some (.list []) else Doc.read? leftOut with
    | none => { fault := some .badDocument }
    | some omitted =>
      let (count, errors) := callAll suite
      let written := complete report count errors
      let done : CoverageRun := {
        steps := [.opened omitted, .started, .stopped, .reported], report := some written }
      match summary written count errors.length with
      | .ok line => { done with printed := line }
      | .error x => { done with fault := some x }

end CoverageRun
end BpfLanes
