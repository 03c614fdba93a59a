/-! # Searching texts

Small searches over lists of characters: the first place where something
starts, replacing, cutting.
-/

namespace BpfLanes.Search

def startsWith : List Char → List Char → Bool
  | _, [] => true
  | [], _ :: _ => false
  | c :: cs, p :: ps => c == p && startsWith cs ps

def contains (pattern : List Char) : List Char → Bool
  | [] => pattern.isEmpty
  | c :: cs => startsWith (c :: cs) pattern || contains pattern cs

/-- The first place at which a scanner succeeds: the text before it and what the
    scanner gives there. -/
def first? {α : Type} (scan : List Char → Option α) : List Char → Option (List Char × α)
  | [] => (scan []).map fun a => ([], a)
  | c :: cs =>
    match scan (c :: cs) with
    | some a => some ([], a)
    | none => (first? scan cs).map fun r => (c :: r.1, r.2)

/-- What stands before the first occurrence of a text and what stands behind it. -/
def cut? (pattern : List Char) : List Char → Option (List Char × List Char) :=
  first? fun cs => if startsWith cs pattern then some (cs.drop pattern.length) else none

/-- Replaces every occurrence of a text that is not empty, from the left and without
    overlap, after leaving out the first `skip` characters. -/
def replaceFrom (old new : List Char) : Nat → List Char → List Char
  | _, [] => []
  | skip + 1, _ :: cs => replaceFrom old new skip cs
  | 0, c :: cs =>
    if startsWith (c :: cs) old then new ++ replaceFrom old new (old.length - 1) cs
    else c :: replaceFrom old new 0 cs

/-- Replaces every occurrence of a text, from the left and without overlap. -/
def replace (old new s : String) : String :=
  if old.isEmpty then s else String.ofList (replaceFrom old.toList new.toList 0 s.toList)

end BpfLanes.Search
