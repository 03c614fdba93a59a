import BpfLanes.Doc.Basic
import BpfLanes.Text.Search

/-! # Reading documents

A reader takes a text from its start and gives a value and the rest of the
text. Besides the grammar of JSON the names of the infinite and the undefined
number are read. Collections lie inside one another no deeper than the text is
long, so its length bounds the work.
-/

namespace BpfLanes.Doc

def isSpace (c : Char) : Bool :=
  c == ' ' || c == '\t' || c == '\n' || c == '\r'

def skip (cs : List Char) : List Char :=
  cs.dropWhile isSpace

def hexValue? (c : Char) : Option Nat :=
  if '0' ≤ c && c ≤ '9' then some (c.toNat - '0'.toNat)
  else if 'a' ≤ c && c ≤ 'f' then some (c.toNat - 'a'.toNat + 10)
  else if 'A' ≤ c && c ≤ 'F' then some (c.toNat - 'A'.toNat + 10)
  else none

def unit? (a b c d : Char) : Option Nat := do
  return 4096 * (← hexValue? a) + 256 * (← hexValue? b) + 16 * (← hexValue? c) + (← hexValue? d)

def escaped? : Char → Option Char
  | '"' => some '"'
  | '\\' => some '\\'
  | '/' => some '/'
  | 'b' => some (Char.ofNat 8)
  | 'f' => some (Char.ofNat 12)
  | 'n' => some '\n'
  | 'r' => some '\r'
  | 't' => some '\t'
  | _ => none

/-- The characters up to the closing quote, in reverse after those already read.
    The two halves of a character beyond the first plane are joined. -/
def quotedRest : List Char → List Char → Option (String × List Char)
  | done, '"' :: rest => some (String.ofList done.reverse, rest)
  | done, '\\' :: 'u' :: a :: b :: c :: d :: '\\' :: 'u' :: a' :: b' :: c' :: d' :: rest => do
    let n ← unit? a b c d
    if 0xd800 ≤ n && n < 0xdc00 then
      match unit? a' b' c' d' with
      | some n' =>
        if 0xdc00 ≤ n' && n' < 0xe000 then
          quotedRest (Char.ofNat (0x10000 + 1024 * (n - 0xd800) + (n' - 0xdc00)) :: done) rest
        else quotedRest (Char.ofNat n :: done) ('\\' :: 'u' :: a' :: b' :: c' :: d' :: rest)
      | none => none
    else quotedRest (Char.ofNat n :: done) ('\\' :: 'u' :: a' :: b' :: c' :: d' :: rest)
  | done, '\\' :: 'u' :: a :: b :: c :: d :: rest => do
    quotedRest (Char.ofNat (← unit? a b c d) :: done) rest
  | done, '\\' :: c :: rest => do quotedRest ((← escaped? c) :: done) rest
  | done, c :: rest => if c.toNat < 0x20 then none else quotedRest (c :: done) rest
  | _, [] => none
termination_by _ cs => cs.length

def digitsOf (cs : List Char) : List Char × List Char :=
  (cs.takeWhile Char.isDigit, cs.dropWhile Char.isDigit)

def valueOf (ds : List Char) : Nat :=
  ds.foldl (fun n c => 10 * n + (c.toNat - '0'.toNat)) 0

def exponentOf (cs : List Char) : Option (Int × List Char) :=
  match cs with
  | e :: rest =>
    if e != 'e' && e != 'E' then none
    else
      let (negative, rest) := match rest with
        | '-' :: more => (true, more)
        | '+' :: more => (false, more)
        | _ => (false, rest)
      match digitsOf rest with
      | ([], _) => none
      | (ds, rest) => some (Binary64.signed negative (valueOf ds), rest)
  | [] => none

def placesOf (cs : List Char) : Option (List Char × List Char) :=
  match cs with
  | '.' :: rest =>
    match digitsOf rest with
    | ([], _) => none
    | found => some found
  | _ => none

def numberOf (negative : Bool) (cs : List Char) : Option (Doc × List Char) :=
  let (whole, rest) := match cs with
    | '0' :: rest => (['0'], rest)
    | _ => digitsOf cs
  if whole.isEmpty then none
  else
    let places := placesOf rest
    let (ds, rest) := places.getD ([], rest)
    let power := exponentOf rest
    let (e, rest) := power.getD (0, rest)
    if places.isNone && power.isNone then
      some (.int (Binary64.signed negative (valueOf whole)), rest)
    else some (.real (.ofDecimal negative (valueOf (whole ++ ds)) (e - ds.length)), rest)

def words : List (String × Doc) :=
  [("null", .null), ("true", .bool true), ("false", .bool false), ("NaN", .real .undefined),
   ("Infinity", .real (.infinite false)), ("-Infinity", .real (.infinite true))]

def atomOf (cs : List Char) : Option (Doc × List Char) :=
  match words.find? fun w => Search.startsWith cs w.1.toList with
  | some w => some (w.2, cs.drop w.1.length)
  | none =>
    match cs with
    | '"' :: rest => (quotedRest [] rest).map fun r => (.text r.1, r.2)
    | '-' :: rest => numberOf true rest
    | _ => numberOf false cs

mutual

/-- A document at the start of a text, after white space. -/
def valueFrom : Nat → List Char → Option (Doc × List Char)
  | 0, _ => none
  | fuel + 1, cs =>
    match skip cs with
    | '[' :: rest =>
      match skip rest with
      | ']' :: rest => some (.list [], rest)
      | rest => itemsFrom fuel #[] rest
    | '\x7b' :: rest =>
      match skip rest with
      | '\x7d' :: rest => some (.object [], rest)
      | rest => entriesFrom fuel [] rest
    | cs => atomOf cs

def itemsFrom : Nat → Array Doc → List Char → Option (Doc × List Char)
  | 0, _, _ => none
  | fuel + 1, done, cs => do
    let (d, rest) ← valueFrom fuel cs
    match skip rest with
    | ',' :: rest => itemsFrom fuel (done.push d) rest
    | ']' :: rest => some (.list (done.push d).toList, rest)
    | _ => none

def entriesFrom : Nat → List (String × Doc) → List Char → Option (Doc × List Char)
  | 0, _, _ => none
  | fuel + 1, done, cs =>
    match skip cs with
    | '"' :: rest => do
      let (key, rest) ← quotedRest [] rest
      match skip rest with
      | ':' :: rest =>
        let (d, rest) ← valueFrom fuel rest
        match skip rest with
        | ',' :: rest => entriesFrom fuel (assign key d done) rest
        | '\x7d' :: rest => some (.object (assign key d done), rest)
        | _ => none
      | _ => none
    | _ => none

end

/-- The document that a text holds, if it holds one and nothing else. -/
def read? (s : String) : Option Doc :=
  let cs := s.toList
  match valueFrom (2 * cs.length + 2) cs with
  | some (d, rest) => if (skip rest).isEmpty then some d else none
  | none => none

end BpfLanes.Doc
