import BpfLanes.Board.Registers
import BpfLanes.Number.Rounding
import BpfLanes.Rom
import BpfLanes.Text.Integer

/-! # Instruction memory and maps on the board

Instruction memory is loaded from a ROM image through eight registers per row,
each of eight digits, and one register that takes the row over. The same
memory and the map memory are listed by reading these registers. Loading and
listing write addresses in different ways.
-/

namespace BpfLanes.Board

def rowDigits (row : Nat) : String :=
  Numeral.digits 16 row

/-- The address that a register of a row has when memory is loaded: the row number
    has at least two digits. -/
def loadAddress (row : Nat) (register : String) : String :=
  "0x8000" ++ (if row < 16 then "0" else "") ++ rowDigits row ++ register

/-- The address that a register of a row has when a memory is listed: only rows
    below ten get a zero in front of their number. -/
def listAddress (memory : String) (row : Nat) (register : String) : String :=
  "0x80" ++ (if row < 10 then "0" else "") ++ memory ++ "0" ++ rowDigits row ++ register

/-! ## Loading -/

/-- The digits of a line from one column up to another. -/
def columns (line : List Char) (start stop : Nat) : String :=
  String.ofList ((line.take stop).drop start)

/-- The registers of a row in the order in which they are written, each with its
    digits of the line. Only the last digits have white space around them dropped. -/
def rowParts (line : List Char) : List (String × String) :=
  [("00", String.ofList (Lines.trim (line.drop 56))), ("04", columns line 48 56),
   ("08", columns line 40 48), ("0c", columns line 32 40), ("10", columns line 24 32),
   ("14", columns line 16 24), ("18", columns line 8 16), ("1c", columns line 0 8), ("ff", "1")]

def loadRow (row : Nat) (line : List Char) : BoardM Unit := do
  (rowParts line).forM fun (register, digits) => write (loadAddress row register) digits
  say ("Injecting....Percentage Completed: "
    ++ toString (Rounding.nearest (100 * row) (Rom.rows - 1)) ++ " %")

/-- The lines of a file with their line ends; there is none after the last line end. -/
def linesWithEnds (text : String) : List (List Char) :=
  match (Lines.ofText text).reverse with
  | [] => []
  | last :: rest => (rest.map (· ++ ['\n'])).reverse ++ (if last.isEmpty then [] else [last])

/-- Loads rows of lines; a row without a line is a fault. -/
def loadRows (lines : List (List Char)) : BoardM Unit :=
  (List.range Rom.rows).forM fun row =>
    match lines[row]? with
    | some line => loadRow row line
    | none => throw .outOfRange

/-- Loads instruction memory from the file that the first argument names. -/
def load (file : String → Option String) (arguments : List String) : BoardM Unit := do
  match arguments with
  | [] =>
    say "ERROR: Need to specify .bin file"
    throw (.halted (-1))
  | name :: _ =>
    probe
    match file name with
    | none => throw .noFile
    | some text =>
      loadRows (linesWithEnds text)
      say "Done ✓"

/-! ## Listing -/

def rowCount (arguments : List String) : Except Fault Int :=
  match arguments with
  | [] => .ok Rom.rows
  | count :: _ => Integer.read 10 count

def group (memory : String) (row : Nat) (high low : String) : BoardM String := do
  let h ← read (listAddress memory row high)
  let l ← read (listAddress memory row low)
  return h ++ l

def listRow (memory : String) (groups : List (String × String)) (row : Nat) : BoardM Unit := do
  let shown ← groups.mapM fun (high, low) => group memory row high low
  say ("0x" ++ rowDigits row ++ " :\t " ++ " ".intercalate (shown.map (· ++ " |")))

def listRows (memory : String) (groups : List (String × String)) (count : Int) : BoardM Unit :=
  (List.range count.toNat).forM (listRow memory groups)

def listMemory (arguments : List String) : BoardM Unit := do
  probe
  let count ← rowCount arguments
  say "Reaing from 0 Sephirot Core"
  listRows "0" [("1c", "18"), ("14", "10"), ("0c", "08"), ("04", "00")] count

def listMaps (arguments : List String) : BoardM Unit := do
  let count ← rowCount arguments
  say "Reaing from 1 PER_CPU Map"
  say "1"
  probe
  listRows "1" [("1c", "18"), ("14", "10")] count

end BpfLanes.Board
