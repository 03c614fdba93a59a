import BpfLanes.Doc.Basic
import BpfLanes.Optimize
import BpfLanes.Rom
import BpfLanes.Samples

/-! # Workloads over the sample programs

Compiling the samples, compiling them with the bound checks taken out for
two kinds of target, and reading and writing them.
-/

namespace BpfLanes.Workload

/-- The elements before a signed position: a negative one drops that many from
    the end. -/
def upTo {α : Type} (xs : List α) (n : Int) : List α :=
  (Position.takeBefore xs.toArray n).toList

def compiledPrograms : List Sample :=
  [Samples.drop, Samples.reflect, Samples.queueInfo, Samples.adjustTail, Samples.router]

/-- The programs that are read and written, the shortest first. -/
def filedPrograms : List Sample :=
  [Samples.redirectMap, Samples.drop, Samples.reflect, Samples.queueInfo, Samples.adjustTail,
    Samples.router]

def after (step : CompileM Unit) (target : Target) (options : Options) (s : Sample) :
    Except Fault Compilation :=
  match step.run (Compilation.start target options s.words.toArray s.texts.toArray) with
  | .ok _ c => .ok c
  | .error e _ => .error e

/-- Takes out the bound checks and makes no other search. -/
def withoutBoundChecks : Options :=
  { removeBoundChecks := true, advanced := false, printTable := false }

def count (n : Nat) : Doc := .int n

/-- The rows, the fused pairs, the blocks and the jumps of a compiled program. -/
def outline (c : Compilation) : Doc :=
  .list [count c.table.size, count c.fusedMoves, count c.fusedExits, count c.blocks.size,
    .list ((c.branches.jumps.mergeSort (· ≤ ·)).map .int)]

/-- Compiles programs without their bound checks, and the first one once more as
    it is. -/
def compileSamples (n : Int) : Except Fault Doc := do
  let outlines ← (upTo compiledPrograms n).mapM fun s => do
    return outline (← after Optimize.run {} withoutBoundChecks s)
  let plain ← after Optimize.run {} {} Samples.drop
  return .list (outlines ++ [count plain.table.size])

def known (h : Held) : Doc := count (if h.register.isSome then 1 else 0)

/-- Compiles programs without their bound checks, every other one for a target
    that branches in any lane. Gives the rows and which pointers were found. -/
def checkBounds (n : Int) : Except Fault Doc := do
  let found ← (upTo compiledPrograms n).zipIdx.mapM fun (s, i) => do
    let c ← after Optimize.run { branchAnyLane := i % 2 == 1 } withoutBoundChecks s
    return [count c.table.size, known c.bounds.context, known c.bounds.data]
  return .list (found.flatten ++ [.text "rename-fallback"])

/-- The words of a program in rows of so many lanes, the last row filled up. -/
def inRows (lanes : Nat) (words : List Word) : List (List (Option Word)) :=
  (List.range ((words.length + lanes - 1) / lanes)).map fun r =>
    (List.range lanes).map fun l => words[r * lanes + l]?

/-- The characters of a written image, or the code that writing gave up with. -/
def imageSize (table : List (List (Option Word))) : Except Fault Int :=
  match (Rom.write table).run {} with
  | .ok _ w => .ok w.file.length
  | .error (.halted code) _ => .ok code
  | .error e _ => .error e

/-- Reads programs and finds their branches, writes them, and tries to write one
    row more than the memory has. -/
def fileSamples (n : Int) : Except Fault Doc := do
  let programs := upTo filedPrograms n
  let counts ← programs.mapM fun s => do
    let b := (← after Flow.analyse {} {} s).branches
    return [count s.code.length, count (b.jumps.length + b.calls.length + b.exits.length)]
  let sizes ← programs.mapM fun s => imageSize (inRows 4 s.words)
  let excess ← imageSize (List.replicate (Rom.rows + 1) (List.replicate 4 none))
  return .list (counts.flatten ++ (sizes ++ [excess]).map .int)

end BpfLanes.Workload
