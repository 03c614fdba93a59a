import BpfLanes.Doc.Basic
import BpfLanes.Number.Shortest
import BpfLanes.Text.Path

/-! # The table of covered files

One row for every file, the least covered first and among equals the largest
first, with the first lines that were not reached; then the totals.
-/

namespace BpfLanes

/-- A row of the table. -/
structure CoverRow where
  name : String
  statements : Int
  missed : Int
  percent : Binary64
  lines : List String
  deriving Repr, Inhabited

namespace CoverRow

def widest : Nat := 60

def shownLines : Nat := 12

def count (d : Doc) (key : String) : Int :=
  match d.get? key with
  | some (.int i) => i
  | _ => 0

def amount (d : Doc) (key : String) : Binary64 :=
  ((d.get? key).bind Doc.number?).getD (.zero false)

def lineText : Doc → String
  | .int i => toString i
  | .text s => s
  | _ => ""

def ofFile (folder path : String) (d : Doc) : CoverRow :=
  let summary := (d.get? "summary").getD .null
  let name := if Path.isAbsolute path then Path.relativeTo folder path else path
  { name := String.ofList (name.toList.take widest)
    statements := count summary "num_statements"
    missed := count summary "missing_lines"
    percent := amount summary "percent_covered"
    lines := ((d.get? "missing_lines").map fun l => l.items.map lineText).getD [] }

def before (a b : CoverRow) : Bool :=
  a.percent.lt b.percent || (a.percent.same b.percent && b.statements ≤ a.statements)

def columns (width : Nat) (name : String) (statements missed : Int) (percent : Binary64) : String :=
  Numeral.padRight ' ' width name ++ "  " ++ Numeral.blankPadded 10 5 statements
    ++ "  " ++ Numeral.blankPadded 10 4 missed
    ++ "  " ++ Numeral.padLeft ' ' 4 (percent.fixed 0) ++ "%"

def missing (r : CoverRow) : String :=
  ",".intercalate (r.lines.take shownLines) ++ if shownLines < r.lines.length then "…" else ""

def table (folder : String) (report : Doc) : String :=
  let files := ((report.get? "files").getD .null).entries
  let rows := (files.map fun f => ofFile folder f.1 f.2).mergeSort before
  let width := rows.foldl (fun w r => max w r.name.length) 4
  let rule := Numeral.run '-' (width + 42)
  let totals := (report.get? "totals").getD .null
  let statements := count totals "num_statements"
  let body := rows.map fun r =>
    columns width r.name r.statements r.missed r.percent ++ "  " ++ r.missing
  let last := columns width "TOTAL" statements (statements - count totals "covered_lines")
    (amount totals "percent_covered")
  let head := Numeral.padRight ' ' width "Name" ++ "  Stmts  Miss  Cover  Missing"
  String.join (([head, rule] ++ body ++ [rule, last]).map (· ++ "\n"))

end CoverRow
end BpfLanes
