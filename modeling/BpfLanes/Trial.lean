import BpfLanes.Dump
import BpfLanes.Optimize

/-! # Trial compilation

Compiles one program of a folder with all output switched on, and says how many
rows it takes compared with its instructions.
-/

namespace BpfLanes

/-- How many rows a program takes before and after it is compiled. -/
structure Score where
  instructions : Nat
  rows : Nat
  deriving DecidableEq, Repr, Inhabited

def Score.report (s : Score) : String :=
  "\n~ Original program #rows: " ++ toString s.instructions
    ++ "\n~ Parallelized program #rows: " ++ toString s.rows ++ "\n"

namespace Trial

def program : String := "xdp_adjust_tail"

/-- What a trial prints, draws and ends with. -/
structure Run where
  printed : String := ""
  drawings : Array Drawing := #[]
  fault : Option Fault := none
  deriving Repr, Inhabited

def options : Options :=
  { name := some program, printBeforeSchedule := true, drawFlow := true }

/-- Compiles a program of so many instructions and reports its score. -/
def compile (instructions : Nat) : CompileM Unit := do
  Optimize.run
  let c ← get
  set { c with printed := c.printed ++ (Score.mk instructions c.table.size).report }

def heading : String :=
  Numeral.run '=' 52 ++ "\nFile: " ++ program ++ "\n ~ with constraints\n"

def ofCode (code : List (Word × String)) : Run :=
  let start := Compilation.start {} options (code.map Prod.fst).toArray
    (code.map Prod.snd).toArray
  match (compile code.length).run start with
  | .ok _ c => { printed := heading ++ c.printed, drawings := c.drawings }
  | .error e c =>
    { printed := heading ++ c.printed, drawings := c.drawings, fault := some e }

def run (file : String → Option String) : Run :=
  match file program with
  | none => {}
  | some dump => ofCode (Dump.read dump)

end Trial
end BpfLanes
