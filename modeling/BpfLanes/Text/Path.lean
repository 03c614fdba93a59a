/-! # Paths and patterns

Paths with `/` between their parts, cleaned of `.` and `..` without looking at
any file, and patterns in which `*` stands for any text.
-/

namespace BpfLanes.Path

/-- The parts between the slashes, without empty ones and `.`. -/
def parts (path : String) : List String :=
  (path.splitOn "/").filter fun p => p != "" && p != "."

def isAbsolute (path : String) : Bool :=
  path.startsWith "/"

/-- Parts with every `..` and the part before it taken out. Above the root there
    is nothing; a relative path keeps a leading `..`. -/
def resolve (absolute : Bool) (ps : List String) : List String :=
  ps.foldl (fun done p =>
    if p != ".." then done ++ [p]
    else if done.isEmpty then (if absolute then [] else [p])
    else if done.getLast? == some ".." then done ++ [p]
    else done.dropLast) []

def normalise (path : String) : String :=
  let body := "/".intercalate (resolve (isAbsolute path) (parts path))
  if isAbsolute path then "/" ++ body
  else if body.isEmpty then "."
  else body

def baseName (path : String) : String :=
  (path.splitOn "/").getLastD ""

def shared : List String → List String → Nat
  | p :: ps, q :: qs => if p == q then shared ps qs + 1 else 0
  | _, _ => 0

/-- A path as seen from a folder. A path that is not absolute is taken from that
    folder. -/
def relativeTo (folder path : String) : String :=
  let base := resolve true (parts folder)
  let own := resolve true (if isAbsolute path then parts path else base ++ parts path)
  let k := shared base own
  let steps := List.replicate (base.length - k) ".." ++ own.drop k
  if steps.isEmpty then "." else "/".intercalate steps

/-- Whether a text fits a pattern. A star stands for any text, slashes included. -/
def fits : List Char → List Char → Bool
  | [], [] => true
  | [], _ :: _ => false
  | '*' :: ps, [] => fits ps []
  | _ :: _, [] => false
  | '*' :: ps, c :: cs => fits ps (c :: cs) || fits ('*' :: ps) cs
  | p :: ps, c :: cs => p == c && fits ps cs
termination_by ps cs => ps.length + cs.length

end BpfLanes.Path
