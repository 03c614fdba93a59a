import BpfLanes.Doc.Printer
import BpfLanes.Doc.Reader
import BpfLanes.Measure.Bench
import BpfLanes.Measure.CoverTable
import BpfLanes.Measure.Profile
import BpfLanes.Measure.Verdict
import BpfLanes.Number.Reading
import BpfLanes.Text.WordChar

/-! # Measuring rounds

A round runs the coverage, time and self-check tools, reports what they found,
and adds a line to the checkpoint file. From the lines of earlier rounds it
tells when further rounds are not worth while.
-/

namespace BpfLanes

/-- What a tool that was run left behind. -/
structure ToolOutput where
  code : Int := 0
  stdout : String := ""
  stderr : String := ""
  deriving DecidableEq, Repr, Inhabited

/-- A tool's output, or the error that kept it from being run. -/
abbrev ToolRun := Except Raised ToolOutput

/-- All that a round looks at. -/
structure Surroundings where
  coverage : Option String
  benches : Option String
  /-- the file with the lines of earlier rounds -/
  checkpoint : Option String
  coverageRun : ToolRun
  timeRun : Option ToolRun
  /-- the self-check tool, if it is installed -/
  checkRun : Option ToolRun
  /-- what version control says about changed files -/
  status : ToolRun
  elapsed : Binary64
  now : Binary64
  deriving Inhabited

/-- How a round ended. -/
inductive Ending where
  | finished
  | exit (code : Int)
  | raised (kind : String)
  | fault (cause : Fault)
  deriving DecidableEq, Repr, Inhabited

/-- What a round leaves behind. -/
structure Round where
  printed : String := ""
  /-- what was added to the checkpoint file each time it was opened -/
  added : List (Option String) := []
  ending : Ending := .finished
  deriving DecidableEq, Repr, Inhabited

namespace Round

/-! ## Limits -/

def lowShare : Binary64 := .ofInt 45

/-- Rounds whose coverage is below this do not converge, in percent. -/
def leastCoverage : Binary64 := .ofInt 60

/-- After so many rounds without improvement no more are wanted. -/
def patience : Nat := 4

/-! ## Tools -/

def lastLine? (run : Option ToolRun) : Option Doc := do
  let some (.ok output) := run | none
  let last ← (Lines.anyLines (String.ofList (Lines.trim output.stdout.toList))).getLast?
  Doc.read? (String.ofList last)

def toReal? : Doc → Option Binary64
  | .text s => Binary64.read? s
  | d => d.number?

/-- The shares of the benches, and what the time tool says about other places. If
    one share is no number there are none. -/
def shares (run : Option ToolRun) : List (String × Binary64) × Doc :=
  let found : Option (List (String × Binary64) × Doc) := do
    let d ← lastLine? run
    let table ← ((d.get? "repo_time_pct").getD (.object [])).entries?
    let shares ← table.mapM fun (name, d) => (toReal? d).map fun x => (name, x)
    return (shares, (d.get? "hot_ext").getD .null)
  found.getD ([], .null)

def checkRows (run : Option ToolRun) : List (String × Doc) :=
  match lastLine? run with
  | some d => ((d.get? "semcheck").getD .null).entries
  | none => []

def changedFiles : ToolRun → List String
  | .ok output =>
    ((Lines.anyLines output.stdout).filter fun l => !(Lines.trim l).isEmpty).map fun l =>
      String.ofList (l.drop 3)
  | .error _ => []

def startsBench (line : List Char) : Bool :=
  Search.startsWith line "def bench_".toList &&
    let rest := line.drop 10
    let word := rest.takeWhile WordChar.isWord
    !word.isEmpty && ((rest.drop word.length).dropWhile Lines.isBlank).head? == some '('

def countBenches : Option String → Nat
  | some s => ((Lines.ofText s).filter startsBench).length
  | none => 0

/-! ## Sections of the report -/

def block (heading : String) (lines : List String) : String :=
  "\n" ++ String.join ((heading :: lines).map (· ++ "\n"))

def errorSection (errors : List (String × Doc)) : String :=
  if errors.isEmpty then ""
  else block s!"{errors.length} bench error(s):" ((errors.take 8).map fun e =>
    "  " ++ e.1 ++ ": " ++ (e.2.text?.getD ""))

/-- Whether a share is low. A negative share stands for a bench that failed. -/
def isLow (share : Binary64) : Bool :=
  !share.lt (.zero false) && share.lt lowShare

def hottest (hot : Doc) (bench : String) : String :=
  let spots := ((hot.get? bench).getD .null).items.filterMap fun d =>
    match d with
    | .list [share, .text place] => share.number?.map fun x => place ++ " " ++ x.fixed 0 ++ "%"
    | _ => none
  if spots.isEmpty then "" else " (hot: " ++ " ".intercalate spots ++ ")"

def shareLine (hot : Doc) (e : String × Binary64) : String :=
  let failed := e.2.lt (.zero false)
  let share := if failed then .zero false else e.2
  let mark := if isLow e.2 then "*" else " "
  s!"  {mark} " ++ Numeral.padRight ' ' 32 e.1 ++ " " ++ Numeral.padLeft ' ' 5 (share.fixed 1) ++ "%"
    ++ if failed then "  <error>" else if isLow e.2 then hottest hot e.1 else ""

def shareSection (shares : List (String × Binary64)) (hot : Doc) : String :=
  if shares.isEmpty then ""
  else block "repo_time (target 50%; * = below 45%):"
    ((shares.mergeSort fun a b => !b.2.lt a.2).map (shareLine hot))

def changeSection (files : List String) : String :=
  if files.isEmpty then ""
  else block (s!"** repo modified ({files.length} file(s)) — revert these; "
    ++ "only microbench.py is yours to edit:") ((files.take 10).map ("   " ++ ·))

def verdictSection (verdicts : List (String × Verdict × Doc)) : String :=
  if verdicts.isEmpty then ""
  else
    let (fine, poor) := verdicts.partition fun v => v.2.1.isFine
    block "self-check (* = fix needed):" (Verdict.hints.map ("  " ++ ·)
      ++ (poor ++ fine).map fun v => Verdict.line v.1 v.2.1 v.2.2)

/-! ## Earlier rounds -/

def earlier (checkpoint : Option String) : List String :=
  ((Lines.ofText (checkpoint.getD "")).filter fun l => !(Lines.trim l).isEmpty).map String.ofList

/-- How many low shares the earlier rounds had that were covered well enough. -/
def pastLows (lines : List String) : List Int :=
  lines.filterMap fun l => do
    let d ← Doc.read? l
    let .int n ← d.get? "n_below_repo_time" | none
    let coverage := (d.get? "coverage_pct").bind Doc.number?
    if (coverage.getD (.zero false)).lt leastCoverage then none else some n

def leastOf (n : Int) (ns : List Int) : Int :=
  ns.foldl min n

def converged? (past : List Int) (low : Nat) : Option String :=
  if low = 0 then some "0 below"
  else
    let all := past ++ [(low : Int)]
    let before := all.take (all.length - patience)
    let best := leastOf low all
    match before with
    | [] => none
    | b :: bs =>
      if leastOf b bs ≤ best then
        some s!"no improvement in {patience} rounds; best {best} below"
      else none

/-- The time since the round before, to two places; nothing if that round has no
    time. A time that is no number is a fault. -/
def sinceLast (now : Binary64) (ts : Doc) : Except Fault Binary64 :=
  if !ts.isFilled then .ok (.zero false)
  else match ts.number? with
    | some t => .ok ((now.sub t).roundTo 2)
    | none => .error .missingNumber

/-- What is added to the checkpoint file. Nothing is, and the file is not opened,
    if the last line there is no record; the file is opened in vain if that record's
    time is no number. -/
def addition (lines : List String) (now : Binary64) (record : Binary64 → Doc) :
    List (Option String) :=
  let add (ts : Doc) : List (Option String) := match sinceLast now ts with
    | .ok wall => [some ((record wall).render ++ "\n")]
    | .error _ => [none]
  match lines.getLast? with
  | none => add .null
  | some l =>
    match (Doc.read? l).bind Doc.entries? with
    | some entries => add ((entries.lookup "ts").getD .null)
    | none => []

/-! ## The round -/

/-- The report of a round whose coverage run went well. -/
def report (s : Surroundings) (coverage : Doc) : Round :=
  let totals := (coverage.get? "totals").getD .null
  let percent := CoverRow.amount totals "percent_covered"
  let notes := (coverage.get? "meta").getD .null
  let errors := ((notes.get? "_pti_bench_errors").getD .null).entries
  let (shares, hot) := shares s.timeRun
  let files := changedFiles s.status
  let verdicts := (checkRows s.checkRun).map fun r =>
    (r.1, Verdict.ofRow (!files.isEmpty) r.2, r.2)
  let low := (shares.filter fun e => isLow e.2).length
  let measured := (shares.filter fun e => !e.2.lt (.zero false)).length
  let poor := (verdicts.filter fun v => !v.2.1.isFine).length
  let lines := earlier s.checkpoint
  let number := lines.length + 1
  let count := countBenches s.benches
  let sharePart := if shares.isEmpty then "" else s!"{low}/{measured} below repo_time 45%, "
  let checkPart := if verdicts.isEmpty then ""
    else s!"{poor}/{verdicts.length} not self-checking, "
  let lastLine := s!"\n[round {number}: {count} benches, {percent.fixed 1}% covered, "
    ++ sharePart ++ checkPart ++ s!"measured in {s.elapsed.fixed 1}s]\n"
  let record (wall : Binary64) : Doc := .object
    [("round", .int number), ("ts", .real s.now), ("wall_since_prev_s", .real wall),
     ("coverage_pct", .real percent), ("covered_lines", .int (CoverRow.count totals "covered_lines")),
     ("num_statements", .int (CoverRow.count totals "num_statements")), ("n_bench_fns", .int count),
     ("n_bench_errors", .int errors.length), ("cov_measure_s", .real (s.elapsed.roundTo 3)),
     ("repo_time_pct", .object (shares.map fun e => (e.1, .real e.2))),
     ("n_below_repo_time", if shares.isEmpty then .null else .int low),
     ("semcheck", .object (verdicts.map fun v => (v.1, .text v.2.1.name))),
     ("n_not_self_checking", .int poor)]
  let stop := if shares.isEmpty || percent.lt leastCoverage then none
    else converged? (pastLows lines) low
  let stopLine := match stop with
    | some why => s!"\n>>> STOP: repo_time converged ({why}). Finalize microbench.py now. <<<\n"
    | none => ""
  { printed := CoverRow.table Frame.root coverage ++ errorSection errors ++ shareSection shares hot
      ++ changeSection files ++ verdictSection verdicts ++ lastLine ++ stopLine
    added := addition lines s.now record }

def failure (output : ToolOutput) : Round :=
  { printed := s!"coverage measurement failed (exit {output.code})\n" ++ output.stderr ++ "\n"
    ending := .exit (if output.code = 0 then 1 else output.code) }

def run (s : Surroundings) : Round :=
  match s.coverageRun with
  | .error r => { ending := .raised r.kind }
  | .ok output =>
    match s.coverage with
    | none => failure output
    | some text =>
      if output.code != 0 then failure output
      else match Doc.read? text with
        | some coverage => report s coverage
        | none => { ending := .fault .badDocument }

end Round
end BpfLanes
