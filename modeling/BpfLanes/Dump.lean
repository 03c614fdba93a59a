import BpfLanes.Text.Lines
import BpfLanes.Text.Search
import BpfLanes.Text.WordChar
import BpfLanes.Word

/-! # Disassembly dumps

A dump has one instruction on a line: somewhere on it stand eight bytes, or
sixteen for the instruction that takes two words, each byte as two
hexadecimal digits and single blanks between them; the mnemonic follows. A
line with a semicolon is a comment. The second word of a double instruction
is kept as an instruction that does nothing.
-/

namespace BpfLanes.Dump

def hexDigit? (c : Char) : Option Nat :=
  if '0' ≤ c && c ≤ '9' then some (c.toNat - '0'.toNat)
  else if 'a' ≤ c && c ≤ 'f' then some (c.toNat - 'a'.toNat + 10)
  else if 'A' ≤ c && c ≤ 'F' then some (c.toNat - 'A'.toNat + 10)
  else none

def byte? : List Char → Option (Nat × List Char)
  | h :: l :: rest => do
    let h ← hexDigit? h
    let l ← hexDigit? l
    return (16 * h + l, rest)
  | _ => none

/-- A byte followed by `n` more, with single blanks between them. -/
def bytes? : Nat → List Char → Option (List Nat × List Char)
  | 0, cs => (byte? cs).map fun r => ([r.1], r.2)
  | n + 1, cs => do
    let (b, rest) ← byte? cs
    match rest with
    | ' ' :: rest =>
      let (bs, rest) ← bytes? n rest
      return (b :: bs, rest)
    | _ => none

/-- Eight or sixteen bytes at the start of a text: the first eight, whether there
    are eight more, and the rest. -/
def encoding? (cs : List Char) : Option (List Nat × Bool × List Char) := do
  let (bs, rest) ← bytes? 7 cs
  match rest with
  | ' ' :: more =>
    match bytes? 7 more with
    | some (_, rest) => return (bs, true, rest)
    | none => return (bs, false, rest)
  | _ => return (bs, false, rest)

def wordOfBytes (bs : List Nat) : Word :=
  (bs.foldl (fun w b => 256 * w + b) 0 : Nat)

def label? : List Char → Option Unit
  | '<' :: rest =>
    match rest.takeWhile WordChar.isWord, rest.dropWhile WordChar.isWord with
    | _ :: _, '>' :: _ => some ()
    | _, _ => none
  | _ => none

/-- The mnemonic in the rest of a line: without leading white space, and cut
    before the first label. -/
def mnemonic (rest : List Char) : String :=
  let text := Lines.trimStart rest
  match Search.first? label? text with
  | some (before, _) => String.ofList before
  | none => String.ofList text

def readLine (line : List Char) : List (Word × String) :=
  if line.contains ';' then []
  else match Search.first? encoding? line with
    | none => []
    | some (_, bs, double, rest) =>
      (wordOfBytes bs, mnemonic rest) :: (if double then [(Word.nop, "NOP")] else [])

/-- The instructions of a dump, each with its mnemonic. -/
def read (text : String) : List (Word × String) :=
  (Lines.ofText text).flatMap readLine

end BpfLanes.Dump
