import BpfLanes.Number.Rounding

/-! # Binary numbers of 53 bits

Measured and computed quantities are binary numbers with 53 significant bits.
Every operation is carried out exactly on fractions and then rounded once, to
the nearest such number, a half to the even neighbour.
-/

namespace BpfLanes

/-- A number with a sign, or one of the values beyond all numbers. A number is
    `significand * 2 ^ exponent`. -/
inductive Binary64 where
  | finite (negative : Bool) (significand : Nat) (exponent : Int)
  | infinite (negative : Bool)
  | undefined
  deriving DecidableEq, Repr, Inhabited

namespace Binary64

def leastExponent : Int := -1074

def greatestExponent : Int := 971

def zero (negative : Bool) : Binary64 :=
  .finite negative 0 leastExponent

def shiftFraction (n d : Nat) (e : Int) : Nat × Nat :=
  if 0 ≤ e then (n * Nat.pow 2 e.toNat, d) else (n, d * Nat.pow 2 (-e).toNat)

def inUnits (n d : Nat) (e : Int) : Nat :=
  let (n, d) := shiftFraction n d (-e)
  Rounding.nearest n d

/-- The exponent at which the fraction `n / d` has 53 significant bits, but never
    less than the least one. -/
def exponentOf (n d : Nat) : Int :=
  let e : Int := (n.log2 : Int) - (d.log2 : Int) - 52
  let (n', d') := shiftFraction n d (-e)
  let e := if n' < d' * Nat.pow 2 52 then e - 1 else e
  max e leastExponent

/-- The number nearest to the fraction `n / d`, with a sign. -/
def ofFraction (negative : Bool) (n d : Nat) : Binary64 :=
  if n = 0 then zero negative
  else
    let e := exponentOf n d
    let m := inUnits n d e
    let (m, e) := if m = Nat.pow 2 53 then (Nat.pow 2 52, e + 1) else (m, e)
    if greatestExponent < e then .infinite negative
    else if m = 0 then zero negative
    else .finite negative m e

/-- The number nearest to a decimal number `n * 10 ^ e`. -/
def ofDecimal (negative : Bool) (n : Nat) (e : Int) : Binary64 :=
  if 0 ≤ e then ofFraction negative (n * Nat.pow 10 e.toNat) 1
  else ofFraction negative n (Nat.pow 10 (-e).toNat)

def ofInt (i : Int) : Binary64 :=
  ofFraction (i < 0) i.natAbs 1

/-- The number nearest to the quotient of two whole numbers, the second positive. -/
def ofQuotient (n : Int) (d : Nat) : Binary64 :=
  ofFraction (n < 0) n.natAbs d

/-- Whether the number is below all numbers that are not negative, or is zero with
    a minus sign. -/
def isNegative : Binary64 → Bool
  | finite s _ _ => s
  | infinite s => s
  | undefined => false

def isFinite : Binary64 → Bool
  | finite .. => true
  | _ => false

def isZero : Binary64 → Bool
  | finite _ m _ => m == 0
  | _ => false

def neg : Binary64 → Binary64
  | finite s m e => finite (!s) m e
  | infinite s => infinite (!s)
  | undefined => undefined

def abs : Binary64 → Binary64
  | finite _ m e => finite false m e
  | infinite _ => infinite false
  | undefined => undefined

def fraction (m : Nat) (e : Int) : Nat × Nat :=
  shiftFraction m 1 e

def signed (negative : Bool) (n : Nat) : Int :=
  if negative then -(n : Int) else n

/-- The sum. The sum of opposite numbers is zero without a minus sign. -/
def add : Binary64 → Binary64 → Binary64
  | finite s m e, finite s' m' e' =>
    let (n, d) := fraction m e
    let (n', d') := fraction m' e'
    let sum := signed s (n * d') + signed s' (n' * d)
    if sum = 0 then zero (s && s') else ofFraction (sum < 0) sum.natAbs (d * d')
  | infinite s, infinite s' => if s == s' then infinite s else undefined
  | infinite s, finite .. => infinite s
  | finite .., infinite s => infinite s
  | _, _ => undefined

def sub (x y : Binary64) : Binary64 :=
  add x y.neg

def mul : Binary64 → Binary64 → Binary64
  | finite s m e, finite s' m' e' =>
    let (n, d) := fraction m e
    let (n', d') := fraction m' e'
    ofFraction (s != s') (n * n') (d * d')
  | infinite s, infinite s' => infinite (s != s')
  | infinite s, finite s' m _ => if m = 0 then undefined else infinite (s != s')
  | finite s m _, infinite s' => if m = 0 then undefined else infinite (s != s')
  | _, _ => undefined

def div : Binary64 → Binary64 → Binary64
  | finite s m e, finite s' m' e' =>
    let (n, d) := fraction m e
    let (n', d') := fraction m' e'
    ofFraction (s != s') (n * d') (d * n')
  | infinite s, finite s' _ _ => infinite (s != s')
  | finite s _ _, infinite s' => zero (s != s')
  | _, _ => undefined

/-- Whether one value is less than another. Nothing is less or greater than the
    undefined value. -/
def lt : Binary64 → Binary64 → Bool
  | finite s m e, finite s' m' e' =>
    let (n, d) := fraction m e
    let (n', d') := fraction m' e'
    signed s (n * d') < signed s' (n' * d)
  | infinite s, infinite s' => s && !s'
  | infinite s, finite .. => s
  | finite .., infinite s => !s
  | _, _ => false

/-- Whether two values are equal. The undefined value equals nothing, and the two
    zeros are equal. -/
def same : Binary64 → Binary64 → Bool
  | undefined, _ => false
  | _, undefined => false
  | x, y => !lt x y && !lt y x

/-- Whether one value is less than another or equal to it. -/
def le (x y : Binary64) : Bool :=
  lt x y || same x y

/-- The whole number nearest to a number times a power of ten, without its sign. -/
def scaled (m : Nat) (e : Int) (places : Int) : Nat :=
  let (n, d) := fraction m e
  if 0 ≤ places then Rounding.nearest (n * Nat.pow 10 places.toNat) d
  else Rounding.nearest n (d * Nat.pow 10 (-places).toNat)

/-- The number nearest to the number rounded to decimal places. -/
def roundTo (places : Int) : Binary64 → Binary64
  | finite s m e => ofDecimal s (scaled m e places) (-places)
  | x => x

end Binary64
end BpfLanes
