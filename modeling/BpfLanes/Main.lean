import BpfLanes.Cli

/-! # The program

Reads the dump that the arguments name, compiles it and writes the image.
-/

namespace BpfLanes

def readText (name : String) : IO (Option String) := do
  try
    return some (← IO.FS.readFile name)
  catch _ => return none

def Cli.inputOf (arguments : List String) : Option String :=
  match Cli.parse arguments with
  | .request r => some r.input
  | _ => none

/-- The exit code of a run: what it was halted with, and one for any other fault. -/
def Cli.Run.exitCode (r : Cli.Run) : UInt32 :=
  match r.fault with
  | none => 0
  | some (.halted code) => UInt32.ofNat (code % 256).toNat
  | some _ => 1

end BpfLanes

open BpfLanes in
def main (arguments : List String) : IO UInt32 := do
  let dump ← match Cli.inputOf arguments with
    | some name => readText name
    | none => pure none
  let r := Cli.run (fun _ => dump) arguments
  IO.print r.printed
  if let some (name, text) := r.written then IO.FS.writeFile name text
  return r.exitCode
