import BpfLanes.Text.Numeral
import BpfLanes.Word

/-! # ROM images

The text that is loaded into instruction memory: one line per row, the lanes
of a row from the last to the first, each word with its bytes reversed in
sixteen hexadecimal digits. Rows of zeros fill the memory up.
-/

namespace BpfLanes.Rom

def rows : Nat := 256

/-- What writing an image leaves behind: the file and the messages printed. -/
structure Written where
  file : String := ""
  printed : String := ""
  deriving Inhabited, Repr

def put (s : String) : EStateM Fault Written Unit :=
  modify fun w => { w with file := w.file ++ s }

def lane (slot : Option Word) : Except Fault String := do
  let w ← Word.reverseBytes 8 false (slot.getD 0)
  return Numeral.zeroPadded 16 16 w

def putRow (row : List (Option Word)) : EStateM Fault Written Unit :=
  row.reverse.forM fun slot => do put (← lane slot)

def putRows : List (List (Option Word)) → EStateM Fault Written Unit
  | [] => pure ()
  | [row] => putRow row
  | row :: rest => do
    putRow row
    put "\n"
    putRows rest

/-- Writes a table of rows, filled up with rows as wide as the first one. A table
    of more rows than the memory has is written, reported and given up. -/
def write (table : List (List (Option Word))) : EStateM Fault Written Unit := do
  putRows table
  if rows < table.length then
    modify fun w => { w with printed := w.printed
      ++ "Error the parallelized program is longer than the available memory\n" }
    throw (.halted (-1))
  if table.length < rows then
    put "\n"
    match table with
    | [] => throw .outOfRange
    | first :: _ =>
      putRows (List.replicate (rows - table.length) (List.replicate first.length none))

end BpfLanes.Rom
