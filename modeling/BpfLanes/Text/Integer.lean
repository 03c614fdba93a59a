import BpfLanes.Fault
import BpfLanes.Text.Lines

/-! # Reading whole numbers

A whole number may have white space around it, a sign, and single underscores
between its digits. Digits of every script count. In base sixteen a mark `0x`
may stand before the digits, and an underscore after the mark.
-/

namespace BpfLanes.Integer

/-- The zeros of all scripts; the other nine digits follow each of them. -/
def zeros : List Nat :=
  [0x30, 0x660, 0x6f0, 0x7c0, 0x966, 0x9e6, 0xa66, 0xae6, 0xb66, 0xbe6, 0xc66, 0xce6, 0xd66,
   0xde6, 0xe50, 0xed0, 0xf20, 0x1040, 0x1090, 0x17e0, 0x1810, 0x1946, 0x19d0, 0x1a80, 0x1a90,
   0x1b50, 0x1bb0, 0x1c40, 0x1c50, 0xa620, 0xa8d0, 0xa900, 0xa9d0, 0xa9f0, 0xaa50, 0xabf0,
   0xff10, 0x104a0, 0x10d30, 0x11066, 0x110f0, 0x11136, 0x111d0, 0x112f0, 0x11450, 0x114d0,
   0x11650, 0x116c0, 0x11730, 0x118e0, 0x11950, 0x11c50, 0x11d50, 0x11da0, 0x16a60, 0x16ac0,
   0x16b50, 0x1d7ce, 0x1d7d8, 0x1d7e2, 0x1d7ec, 0x1d7f6, 0x1e140, 0x1e2f0, 0x1e950, 0x1fbf0]

def decimalDigit? (c : Char) : Option Nat :=
  (zeros.find? fun z => z ≤ c.toNat && c.toNat < z + 10).map (c.toNat - ·)

/-- The value of a digit or a letter that stands for one. -/
def digit? (c : Char) : Option Nat :=
  if 'a' ≤ c && c ≤ 'z' then some (c.toNat - 'a'.toNat + 10)
  else if 'A' ≤ c && c ≤ 'Z' then some (c.toNat - 'A'.toNat + 10)
  else decimalDigit? c

/-- White space around a number; the separators of files, groups, records and
    units do not count. -/
def isBlank (c : Char) : Bool :=
  Lines.isBlank c && !(0x1c ≤ c.toNat && c.toNat ≤ 0x1f)

/-- Digits below the base, with single underscores between them. The flag says
    whether an underscore may come next. -/
def digits? (base : Nat) : Nat → Bool → List Char → Option Nat
  | value, afterDigit, [] => if afterDigit then some value else none
  | value, afterDigit, '_' :: rest => if afterDigit then digits? base value false rest else none
  | value, _, c :: rest => do
    let d ← digit? c
    if d < base then digits? base (base * value + d) true rest else none

/-- Digits after the mark of base sixteen, if there is one. -/
def unsigned? (base : Nat) (cs : List Char) : Option Nat :=
  match base, cs with
  | 16, '0' :: 'x' :: '_' :: rest => digits? 16 0 false rest
  | 16, '0' :: 'X' :: '_' :: rest => digits? 16 0 false rest
  | 16, '0' :: 'x' :: rest => digits? 16 0 false rest
  | 16, '0' :: 'X' :: rest => digits? 16 0 false rest
  | _, _ => digits? base 0 false cs

def read? (base : Nat) (s : String) : Option Int :=
  let cs := s.toList.dropWhile isBlank
  let cs := (cs.reverse.dropWhile isBlank).reverse
  match cs with
  | '-' :: rest => (unsigned? base rest).map fun n => -(n : Int)
  | '+' :: rest => (unsigned? base rest).map fun n => (n : Int)
  | _ => (unsigned? base cs).map fun n => (n : Int)

/-- A whole number written in a base; any other text is a fault. -/
def read (base : Nat) (s : String) : Except Fault Int :=
  match read? base s with
  | some i => .ok i
  | none => .error .badNumeral

end BpfLanes.Integer
