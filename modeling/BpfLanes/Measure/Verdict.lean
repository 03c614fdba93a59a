import BpfLanes.Doc.Basic
import BpfLanes.Number.Shortest

/-! # Verdicts on self-checks

A row of the self-check, handed over as a document, is judged: does the bench
return something that tells whether its work was done right, and does it spend
its time in the repository's code?
-/

namespace BpfLanes

/-- A verdict on a bench. -/
inductive Verdict where
  | fine
  /-- fine, but it is not called with different arguments -/
  | unvaried
  | changed
  | failed
  | returnsNothing
  | unstable
  | returnsInput
  | lowShare
  | tooFast
  /-- its value does not depend on its arguments -/
  | invariant
  deriving DecidableEq, Repr, Inhabited

namespace Verdict

def name : Verdict → String
  | fine => "ok"
  | unvaried => "ok-unparam"
  | changed => "repo-modified"
  | failed => "error"
  | returnsNothing => "returns-none"
  | unstable => "unstable"
  | returnsInput => "returns-input"
  | lowShare => "low-repo-time"
  | tooFast => "too-fast"
  | invariant => "param-invariant"

def isFine : Verdict → Bool
  | fine => true
  | unvaried => true
  | _ => false

def hints : List String :=
  ["returns-none: run() has no return — collect and return the call results",
   "unstable: seed RNG in setup; avoid time/uuid/id in the return",
   "returns-input: return repo output, not the parameter value",
   "low-repo-time: <50% of run() time is in repo code — move glue to setup",
   "param-invariant: return something derived from run()'s work, not setup",
   "repo-modified: revert edits to repo files (git checkout -- <path>)"]

def texts (row : Doc) (key : String) : List String :=
  ((row.get? key).getD .null).items.filterMap Doc.text?

def numbers (row : Doc) (key : String) : List Binary64 :=
  ((row.get? key).getD .null).entries.filterMap fun e => e.2.number?

def least? : List Binary64 → Option Binary64
  | [] => none
  | x :: xs => some (xs.foldl (fun m y => if y.lt m then y else m) x)

/-- The middle of some numbers, or the mean of the middle two. -/
def median? (xs : List Binary64) : Option Binary64 :=
  let sorted := xs.mergeSort Binary64.le
  let k := sorted.length / 2
  if sorted.isEmpty then none
  else if sorted.length % 2 = 1 then sorted[k]?
  else do
    let a ← sorted[k - 1]?
    let b ← sorted[k]?
    return (a.add b).div (.ofInt 2)

/-- The least part of a bench's time in the repository's code. -/
def share (row : Doc) : Binary64 :=
  (least? (numbers row "repo_frac")).getD (.zero false)

/-- The middle time of a bench's calls in the repository's code. -/
def time (row : Doc) : Binary64 :=
  (median? (numbers row "repo_tt_ms")).getD (.zero false)

def type? (row : Doc) : Option String :=
  (row.get? "ret_type").bind Doc.text?

/-- Whether two fingerprints or more are there and all the same. -/
def isStable (fingerprints : List String) : Bool :=
  match fingerprints with
  | [] => false
  | f :: fs => fs.all (· == f)

def ofRow (modified : Bool) (row : Doc) : Verdict :=
  let stable := texts row "fp_stable"
  let byParam := ((row.get? "fp_by_param").getD .null).entries.filterMap fun e => e.2.text?
  let half := Binary64.ofQuotient 1 2
  match type? row with
  | none => if modified then changed else failed
  | some type =>
    if modified then changed
    else if type.startsWith "<" then failed
    else if type == "NoneType" then returnsNothing
    else if !isStable stable then unstable
    else if (texts row "param_fps").contains (stable.headD "") then returnsInput
    else if !(numbers row "repo_frac").isEmpty && (share row).lt half then lowShare
    else if !(numbers row "repo_tt_ms").isEmpty && (time row).lt (.ofInt 1) then tooFast
    else if byParam.length < 2 then unvaried
    else if byParam.all (· == byParam.headD "") then invariant
    else fine

def line (bench : String) (v : Verdict) (row : Doc) : String :=
  let mark := if v.isFine then " " else "*"
  s!"  {mark} " ++ Numeral.padRight ' ' 32 bench ++ " " ++ Numeral.padRight ' ' 16 v.name
    ++ " (" ++ (type? row).getD "?" ++ ", repo " ++ ((share row).mul (.ofInt 100)).fixed 0 ++ "%) "
    ++ (time row).fixed 1 ++ "ms"

end Verdict
end BpfLanes
