/-! # Numerals

How numbers are written: hexadecimal and binary digits of a signed number,
padded to a least width. With zeros the padding stands between the sign and
the digits; with blanks it stands before the sign. The width counts the sign.
-/

namespace BpfLanes.Numeral

/-- The digits of a number in a base up to sixteen, without leading zeros. -/
def digits (base n : Nat) : String :=
  String.ofList (Nat.toDigits base n)

def sign (x : Int) : String :=
  if x < 0 then "-" else ""

def run (c : Char) (n : Nat) : String :=
  String.ofList (List.replicate n c)

def padLeft (c : Char) (width : Nat) (s : String) : String :=
  run c (width - s.length) ++ s

def padRight (c : Char) (width : Nat) (s : String) : String :=
  s ++ run c (width - s.length)

def zeroPadded (base width : Nat) (x : Int) : String :=
  sign x ++ padLeft '0' (width - (sign x).length) (digits base x.natAbs)

def blankPadded (base width : Nat) (x : Int) : String :=
  padLeft ' ' width (sign x ++ digits base x.natAbs)

def list (xs : List Int) : String :=
  "[" ++ ", ".intercalate (xs.map toString) ++ "]"

/-- Pairs of numbers between braces, `1: 2` for each pair. -/
def pairs (xs : List (Int × Int)) : String :=
  "\x7b" ++ ", ".intercalate (xs.map fun p => toString p.1 ++ ": " ++ toString p.2) ++ "\x7d"

end BpfLanes.Numeral
