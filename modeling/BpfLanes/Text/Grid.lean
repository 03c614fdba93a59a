import BpfLanes.Fault
import BpfLanes.Text.Numeral

/-! # Grids

A table of cells printed between rules. All columns have the width of the
widest cell. The first row and the first column may be coloured, and the
first row may be set off by a rule of its own.
-/

namespace BpfLanes

/-- A cell of a grid. -/
inductive Cell where
  | text (s : String)
  | number (n : Int)
  | flag (b : Bool)
  | absent
  deriving Repr, Inhabited

namespace Cell

def shown : Cell → String
  | text s => s
  | number n => toString n
  | flag true => "True"
  | flag false => "False"
  | absent => "None"

end Cell

namespace Grid

def paintStart (r g b : String) : String :=
  "\x1b[38;2;" ++ r ++ ";" ++ g ++ ";" ++ b ++ "m"

def paintEnd : String := "\x1b[0m"

/-- The start of the colour given by three parts; a part that is not there is a
    fault. -/
def paint? : Option (List Cell) → Except Fault (Option String)
  | none => .ok none
  | some (r :: g :: b :: _) => .ok (some (paintStart r.shown g.shown b.shown))
  | some _ => .error .outOfRange

/-- One cell between a blank and a bar, padded to the width of the grid. -/
def cell (width : Nat) (paint : Option String) (s : String) : String :=
  let shown := match paint with
    | some start => start ++ s ++ paintEnd
    | none => s
  " " ++ shown ++ Numeral.run ' ' (width - s.length + 1) ++ "|"

/-- One row: every cell of the first row and the first cell of every row are
    painted. -/
def row (width : Nat) (paint : Option String) (index : Nat) (cells : List String) : String :=
  "".intercalate (cells.zipIdx.map fun c =>
    cell width (if c.2 == 0 || index == 0 then paint else none) c.1)

/-- The cells of each row, as many as the first row has. A shorter row is a fault. -/
def shape (matrix : List (List Cell)) : Except Fault (List (List String)) :=
  match matrix with
  | [] => .error .outOfRange
  | top :: _ => matrix.mapM fun r =>
    if r.length < top.length then .error .outOfRange
    else .ok ((r.take top.length).map Cell.shown)

/-- The lines of a grid. The outer rules are as long as the last row, of which
    one colour's worth of invisible characters is not counted. -/
def lines (matrix : List (List Cell)) (heading : Bool) (colour : Option (List Cell)) :
    Except Fault (List String) := do
  let cells ← shape matrix
  let widths := cells.flatten.map String.length
  if widths.isEmpty then throw .outOfRange
  let width := widths.foldl max 0
  let paint ← paint? colour
  let rows := cells.zipIdx.map fun r => row width paint r.2 r.1
  let unseen := match paint with
    | some start => start.length + paintEnd.length
    | none => 0
  let length := ((rows.getLast?).getD "").length - unseen
  let rule := "+" ++ Numeral.run '-' (length - 1) ++ "+"
  let columns := match cells with
    | top :: _ => top.length
    | [] => 0
  let inner := "".intercalate
    (List.replicate columns ("+" ++ Numeral.run '-' (width + 2))) ++ "+"
  let body := rows.map ("|" ++ ·)
  let body := if heading then
      match body with
      | top :: rest => top :: inner :: rest
      | [] => []
    else body
  return rule :: body ++ [rule]

def render (matrix : List (List Cell)) (heading : Bool) (colour : Option (List Cell)) :
    Except Fault String := do
  let ls ← lines matrix heading colour
  return "".intercalate (ls.map (· ++ "\n"))

end Grid
end BpfLanes
