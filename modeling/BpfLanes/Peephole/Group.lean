import BpfLanes.Fields
import BpfLanes.Position

/-! # Groups of replaced instructions

A recogniser gathers the instructions that belong together in a group; the
last group is the one still being gathered. An entry says what the
instruction at a position is to become.
-/

namespace BpfLanes.Peephole

/-- What the instruction at a position becomes. -/
structure Entry where
  id : Int
  word : Word
  text : String
  deriving DecidableEq, Repr, Inhabited

/-- Entries in ascending order of their positions, one for each. -/
abbrev Group := List Entry

namespace Group

/-- Adds an entry, in place of the one at the same position if there is one. -/
def insert (e : Entry) : Group → Group
  | [] => [e]
  | f :: rest =>
    if e.id < f.id then e :: f :: rest
    else if e.id = f.id then e :: rest
    else f :: insert e rest

def find? (g : Group) (id : Int) : Option Entry :=
  List.find? (fun e => e.id == id) g

/-- All entries of another group, which win over those at the same positions. -/
def update (g h : Group) : Group :=
  h.foldl (fun g e => insert e g) g

end Group

def Entry.nop (id : Int) : Entry := { id, word := Word.nop, text := "NOP" }

/-- The groups of a recogniser and the instruction it is looking at. -/
structure Notes where
  groups : List Group := [[]]
  current : Option (Word × Int) := none
  deriving Repr, Inhabited

namespace Notes

def dropLast (n : Notes) : Notes := { n with groups := n.groups.dropLast }

def addGroup (n : Notes) : Notes := { n with groups := n.groups ++ [[]] }

def now (n : Notes) : Except Fault (Word × Int) :=
  match n.current with
  | some c => .ok c
  | none => .error .missingPart

def fields (n : Notes) : Except Fault Fields := do
  Fields.decode (← n.now).1

def last (n : Notes) : Except Fault Group :=
  match n.groups.getLast? with
  | some g => .ok g
  | none => .error .outOfRange

def put (n : Notes) (e : Entry) : Except Fault Notes := do
  let g ← n.last
  return { n with groups := n.groups.dropLast ++ [g.insert e] }

end Notes

def loadText (f : Fields) : Except Fault String := do
  let base ← Position.get f.inputs.toArray 0
  return "r" ++ toString f.dst ++ " = *(uint48 *) (r" ++ toString base ++ " + "
    ++ toString f.offset ++ ")"

def storeText (f : Fields) : Except Fault String := do
  let value ← Position.get f.inputs.toArray 0
  let base ← Position.get f.inputs.toArray 1
  return "*(uint48 *) (r" ++ toString base ++ " + " ++ toString f.offset ++ ") = r"
    ++ toString value

/-- The offset that a six-byte access starts from; there must be one. -/
def lowest (offset : Option Int) : Except Fault Int :=
  match offset with
  | some o => .ok o
  | none => .error .missingPart

end BpfLanes.Peephole
