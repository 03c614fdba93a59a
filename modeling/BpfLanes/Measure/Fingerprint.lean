import BpfLanes.Digest.Sha256
import BpfLanes.Measure.Value

/-! # Fingerprints of values

Two runs of a bench agree if their values have the same fingerprint: the digest
of a run of bytes that describes the value. Real numbers enter with six
significant digits, so noise in the last places does not count. Lists and
tuples are described alike, and so are dictionaries and records; the order in
which a dictionary was filled does not count. Very long and very deep values
enter in part.
-/

namespace BpfLanes

namespace Fingerprint

/-- How many collections inside one another are described. -/
def deepest : Nat := 8

def longest : Nat := 2000

def utf8 (s : String) : List UInt8 :=
  s.toUTF8.toList

def tooDeep : List UInt8 :=
  utf8 "..."

def sixDigits : Binary64 → Binary64
  | .finite s m e =>
    if m = 0 then .zero false
    else
      let (n, d) := Binary64.fraction m e
      Binary64.roundTo (5 - Binary64.leadingExponent n d) (.finite s m e)
  | x => x

/-- The text of a real number with six significant digits. -/
def realText (x : Binary64) : String :=
  (sixDigits x).text

def header (mark : String) (length : Nat) : List UInt8 :=
  utf8 (mark ++ toString length)

def hexText (bytes : List UInt8) : String :=
  String.join (bytes.map fun b => Numeral.zeroPadded 16 2 b.toNat)

/-- The order of digests: by their first byte that differs. -/
def digestLE : List UInt8 → List UInt8 → Bool
  | [], _ => true
  | _ :: _, [] => false
  | a :: as, b :: bs => a < b || (a == b && digestLE as bs)

/-- Descriptions with those of their keys, in the order of the keys' digests. -/
def inKeyOrder (entries : List (List UInt8 × List UInt8)) : List UInt8 :=
  let marked := entries.map fun p => (Sha256.digest p.1, p)
  (marked.mergeSort fun a b => digestLE a.1 b.1).flatMap fun m => m.2.1 ++ m.2.2

/-- The number in the code of an array's elements, which is their width in
    bytes. -/
def widthOf (element : String) : Nat :=
  (element.toList.filter Char.isDigit).foldl (fun n c => 10 * n + (c.toNat - '0'.toNat)) 0

def lowFirst (width : Nat) (i : Int) : List UInt8 :=
  (List.range width).map fun k => UInt8.ofNat ((i / Int.pow 256 k) % 256).toNat

def cellBytes (width : Nat) : Value → List UInt8
  | .whole i => lowFirst width i
  | .truth b => lowFirst width (if b then 1 else 0)
  | _ => lowFirst width 0

/-- Whether the code of an array's elements is one for real or complex numbers. -/
def isReal (element : String) : Bool :=
  element.toList.any fun c => c == 'f' || c == 'c'

end Fingerprint

open Fingerprint

namespace Value

mutual

/-- The bytes that describe a value, with room for so many collections inside one
    another. -/
def description (room : Nat) : Value → List UInt8
  | real x => utf8 (realText x)
  | complex re im => utf8 ("c" ++ realText re ++ realText im)
  | text s => utf8 ("s" ++ s)
  | bytes _ content => utf8 "s" ++ content
  | list items => if room = 0 then tooDeep
    else header "L" items.length ++ ((descriptions (room - 1) items).take longest).flatten
  | tuple items => if room = 0 then tooDeep
    else header "L" items.length ++ ((descriptions (room - 1) items).take longest).flatten
  | set _ items => if room = 0 then tooDeep
    else header "S" items.length ++ inKeyOrder ((descriptions (room - 1) items).map fun d => (d, []))
  | dictionary entries => if room = 0 then tooDeep
    else header "D" entries.length ++ inKeyOrder (entryDescriptions (room - 1) entries)
  | record _ fields => if room = 0 then tooDeep
    else header "D" fields.length ++ inKeyOrder (entryDescriptions (room - 1) fields)
  | array element shape cells =>
    utf8 ("A" ++ tupleForm (shape.map toString) ++ element) ++
      if isReal element then (descriptions room cells).flatten
      else Sha256.digest (cells.flatMap (cellBytes (widthOf element)))
  | absent => utf8 "None"
  | truth b => utf8 (if b then "True" else "False")
  | whole i => utf8 (toString i)
  | written _ form => utf8 form
  | object => utf8 "<builtins.object>"

def descriptions (room : Nat) : List Value → List (List UInt8)
  | [] => []
  | v :: vs => description room v :: descriptions room vs

def entryDescriptions (room : Nat) : List (Value × Value) → List (List UInt8 × List UInt8)
  | [] => []
  | (k, v) :: rest => (description room k, description room v) :: entryDescriptions room rest

end

def fingerprint (v : Value) : String :=
  hexText (Sha256.digest (v.description deepest))

end Value
end BpfLanes
