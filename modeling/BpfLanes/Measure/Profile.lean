import BpfLanes.Number.Binary64
import BpfLanes.Text.Path

/-! # Profiles

A profile tells how much of a call's time was spent in which function. Time in
the repository's own files is told apart from time elsewhere; files that only
lie in the repository's folder, such as installed packages, build products and
the measuring tools themselves, count as elsewhere.
-/

namespace BpfLanes

/-- The time spent in one function itself. -/
structure Frame where
  file : String
  line : Int
  function : String
  self : Binary64
  deriving DecidableEq, Repr, Inhabited

/-- The whole time of a call and where it was spent. -/
structure Profile where
  total : Binary64
  frames : List Frame
  deriving DecidableEq, Repr, Inhabited

namespace Frame

def root : String := "/repo"

/-- Files in the repository's folder that are not its own. -/
def foreign : List String :=
  ["*/site-packages/*", "*/.venv/*", "*/vendor/*", "*/build/*", "*.egg-info/*", "*/_pti_*",
   "*/microbench.py"]

def isOwn (f : Frame) : Bool :=
  let path := Path.normalise f.file
  path.startsWith (root ++ "/") && !foreign.any fun p => Path.fits p.toList path.toList

/-- Whether a function is built in or lies in a compiled library. -/
def isCompiled (f : Frame) : Bool :=
  !f.isOwn && (f.file == "~" || f.file.endsWith ".so" || f.file.endsWith ".pyd")

def origin (f : Frame) : String :=
  let base := Path.baseName f.file
  if base == "microbench.py" then "<run() body>"
  else if f.file == "~" then "builtins"
  else if base.isEmpty then f.file
  else if base.endsWith ".py" then String.ofList (base.toList.take (base.length - 3))
  else base

end Frame

namespace Profile

def empty : Profile :=
  ⟨.zero false, []⟩

def sum (times : List Binary64) : Binary64 :=
  times.foldl Binary64.add (.zero false)

def timeIn (p : Profile) (test : Frame → Bool) : Binary64 :=
  sum ((p.frames.filter test).map Frame.self)

def addTo (label : String) (t : Binary64) : List (String × Binary64) → List (String × Binary64)
  | [] => [(label, t)]
  | (l, t') :: rest => if l == label then (l, t'.add t) :: rest else (l, t') :: addTo label t rest

def elsewhere (p : Profile) : List (String × Binary64) :=
  (p.frames.filter (!·.isOwn)).foldl (fun sums f => addTo f.origin f.self sums) []

/-- A time as a part of the whole, or nothing of it if there is no whole. -/
def part (p : Profile) (t : Binary64) : Binary64 :=
  if p.total.isZero then .zero false else t.div p.total

end Profile
end BpfLanes
