import BpfLanes.Fault
import BpfLanes.Text.Search

/-! # Mnemonics

The readable text of an instruction is edited along with its word: two
instructions fused into one get a three-operand text, and a renamed register
is renamed in the text.
-/

namespace BpfLanes.Mnemonic

def isDigit (c : Char) : Bool :=
  '0' ≤ c && c ≤ '9'

def register? : List Char → Option String
  | 'r' :: rest =>
    match rest.takeWhile isDigit with
    | [] => none
    | ds => some (String.ofList ('r' :: ds))
  | _ => none

def operator? : List Char → Option String
  | c :: rest =>
    if ['+', '^', '|', '&', '-'].contains c then some (String.ofList [c])
    else match rest with
      | d :: _ =>
        if ['<', '>'].contains c && ['<', '>'].contains d then some (String.ofList [c, d])
        else none
      | [] => none
  | [] => none

/-- Digits at the start of a text, with the character before them, which is not
    the mark of a register. -/
def immediate? : List Char → Option (List Char)
  | c :: rest =>
    if c == 'r' then none
    else match rest.takeWhile isDigit with
      | [] => none
      | ds => some (c :: ds)
  | [] => none

/-- The first thing of a kind in a text. A text without one is a fault. -/
def find {α : Type} (scan : List Char → Option α) (s : String) : Except Fault α :=
  match Search.first? scan s.toList with
  | some (_, a) => .ok a
  | none => .error .missingPart

/-- The three-operand text made from the text of a two-operand operation and the
    register that is read in place of the target. -/
def fuse (s : String) (input : Int) : Except Fault String := do
  let target ← find register? s
  let operator ← find operator? s
  let immediate ← find immediate? s
  let shown := match immediate with
    | '-' :: _ => "(" ++ String.ofList immediate ++ ")"
    | _ => String.ofList immediate
  return target ++ " = r" ++ toString input ++ " " ++ operator ++ " " ++ shown

def name (register : Int) : String :=
  "r" ++ toString register

/-- The text on each side of the first assignment sign. A text without one is a
    fault. -/
def sides (s : String) : Except Fault (String × String) :=
  match Search.cut? ['=', ' '] s.toList with
  | some (left, rest) =>
    -- what is assigned ends at the next sign
    let right := ((Search.cut? ['=', ' '] rest).map Prod.fst).getD rest
    .ok (String.ofList left, String.ofList right)
  | none => .error .outOfRange

/-- Renames a register where it is read: everywhere in a conditional jump, and
    otherwise right of the assignment sign. -/
def renameInput (s : String) (old new : Int) : Except Fault String :=
  if Search.contains ['i', 'f'] s.toList then .ok (Search.replace (name old) (name new) s)
  else do
    let (left, right) ← sides s
    return left ++ "= " ++ Search.replace (name old) (name new) right

/-- Renames a register where it is written, left of the assignment sign. -/
def renameOutput (s : String) (old new : Int) : Except Fault String := do
  let (left, right) ← sides s
  return Search.replace (name old) (name new) left ++ "= " ++ right

def rename (s : String) (old new : Int) : String :=
  Search.replace (name old) (name new) s

end BpfLanes.Mnemonic
