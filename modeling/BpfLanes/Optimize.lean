import BpfLanes.BoundCheck
import BpfLanes.Flow
import BpfLanes.Fusion
import BpfLanes.Jumps
import BpfLanes.Liveness
import BpfLanes.Schedule

/-! # Compiling a program

All steps in order: cut the program into blocks, fuse neighbours, find out
what is live, remove and replace instructions, place what is left in rows and
make jumps count rows.
-/

namespace BpfLanes.Optimize

open Compilation

/-- Prints the blocks with their instructions and the registers they need. -/
def printBlocks : CompileM Unit := do
  let c ← get
  say "START block\n"
  (List.range (c.blocks.size - 2)).forM fun (k : Nat) => do
    let b := k + 1
    let blk ← block b
    say ("B" ++ toString b ++ " - " ++ blk.kind.name)
    say "------------------"
    (c.bodyOf blk).forM fun i => say i.text
    say ""
    say ("USE: " ++ Numeral.pairs blk.uses)
    say ("DEF: " ++ Numeral.pairs blk.defs)
    say ("IN: " ++ Numeral.pairs blk.liveIn.sorted)
    say ("OUT: " ++ Numeral.pairs blk.liveOut.sorted)
    if blk.kind = .call then say "... helper function code ..."
    say ""
  say "EXIT block\n"

def printSummary : CompileM Unit := do
  let c ← get
  let ascending (xs : List Int) : String := Numeral.list (xs.mergeSort fun a b => a ≤ b)
  say "\nLocal Optimizations:"
  say (" ~ mov-alu: " ++ toString c.fusedMoves)
  say (" ~ movi-exit: " ++ toString c.fusedExits)
  say "\nBranches found:"
  say (" ~ jumps:         " ++ ascending c.branches.jumps)
  say (" ~ calls:         " ++ ascending c.branches.calls)
  say (" ~ exits:         " ++ ascending c.branches.exits)
  say (" ~ jumps targets: " ++ ascending (c.branches.targets.map Prod.fst))
  say "\n"

def onRequest (asked : Bool) (step : CompileM Unit) : CompileM Unit :=
  if asked then step else pure ()

/-- Cuts the program into blocks and improves it. The search for copies and zero
    fills runs once more if the program is not going to be cut again. -/
def improve : CompileM Unit := do
  let options := (← get).options
  Flow.analyse
  onRequest options.printBeforeOptimize printBlocks
  onRequest options.drawFlow Flow.draw
  Fusion.fuseAll
  Liveness.analyse
  onRequest options.removeBoundChecks do
    let _ ← BoundCheck.removeAll
    pure ()
  onRequest options.advanced Removal.advanced
  onRequest (!options.removeBoundChecks) Removal.advanced

def recut : CompileM Unit := do
  Flow.restart
  Flow.analyse
  Liveness.analyse

/-- Places the improved program in rows. It is cut into blocks again only if bound
    checks were removed; otherwise the blocks are placed as they were parsed. -/
def layOut : CompileM Unit := do
  let options := (← get).options
  onRequest options.removeBoundChecks recut
  onRequest options.printBeforeSchedule printBlocks
  Schedule.placeAll
  printSummary
  Jumps.retargetAll

def run : CompileM Unit := do
  improve
  layOut

end BpfLanes.Optimize
