import BpfLanes.Cli
import BpfLanes.Trial
import BpfLanes.Workload.Programs

/-! # Workloads that print

Their results count the characters printed.
-/

namespace BpfLanes.Workload

/-! ## Grids -/

def gridRow (i : Nat) : List Cell :=
  let n := toString i
  List.replicate 5 (.text ("r" ++ n ++ " += r" ++ n ++ " * " ++ n))

/-- A grid of so many rows, printed once plain with a heading and once coloured. -/
def printGrids (rows : Int) : Except Fault Doc := do
  let matrix := (List.range rows.toNat).map gridRow
  let plain ← Grid.render matrix true none
  let coloured ← Grid.render matrix false (some [.number 0, .number 128, .number 255])
  return count (plain.length + coloured.length)

/-! ## Trials -/

/-- What is printed once, before the first listing: a trial and a run of the
    command line. -/
def setUpOutput : String :=
  (Trial.ofCode Samples.adjustTail.code).printed
    ++ (Cli.compile { input := Samples.redirectMap.name, output := none }
      Samples.redirectMap.code).printed

/-- Lists a program of so many instructions and reports the score of its rows of
    three. What was printed before counts as well. -/
def listProgram (n : Int) (before : String) : Except Fault Doc :=
  let words := List.replicate n.toNat Word.nop
  match (listing words).run before with
  | .ok _ listed =>
    let score : Score := { instructions := words.length, rows := (inRows 3 words).length }
    .ok (.list [count score.instructions, count score.rows,
      count (listed ++ score.report).length])
  | .error e _ => .error e

end BpfLanes.Workload
