import BpfLanes.Number.Binary64
import BpfLanes.Text.Numeral

/-! # Decimal texts of binary numbers

The shortest text of a number has the fewest digits that read back as the same
number; of two such texts the nearer one is taken. Numbers from `0.0001` on
and below `10 ^ 16` are written out, all others with an exponent of at least
two digits. A text with fixed places is the exact value rounded.
-/

namespace BpfLanes.Binary64

/-- A decimal number `digits * 10 ^ exponent`. -/
structure Decimal where
  digits : Nat
  exponent : Int
  deriving DecidableEq, Repr, Inhabited

/-- Whether a decimal number is nearest to this binary number. -/
def Decimal.readsAs (x : Binary64) (d : Decimal) : Bool :=
  ofDecimal false d.digits d.exponent = x

/-- The exponent of the first digit of `n / d`: the greatest power of ten that is
    not more than it. The estimate from the lengths may be one too high. -/
def leadingExponent (n d : Nat) : Int :=
  let e : Int := (Nat.toDigits 10 n).length - (Nat.toDigits 10 d).length
  let reached := if 0 ≤ e then d * Nat.pow 10 e.toNat ≤ n else d ≤ n * Nat.pow 10 (-e).toNat
  if reached then e else e - 1

/-- The neighbours of `n / d` among the decimal numbers with an exponent, the
    nearer one first. -/
def neighbours (n d : Nat) (exponent : Int) : List Decimal :=
  let (n, d) := if 0 ≤ exponent then (n, d * Nat.pow 10 exponent.toNat)
    else (n * Nat.pow 10 (-exponent).toNat, d)
  let below := n / d
  let near := Rounding.nearest n d
  let far := if near = below then below + 1 else below
  [⟨near, exponent⟩, ⟨far, exponent⟩]

/-- The first decimal number that reads back, trying ever more digits. -/
def search (x : Binary64) (n d : Nat) (lead : Int) : Nat → Nat → Decimal
  | 0, count => (neighbours n d (lead - count)).headD ⟨0, 0⟩
  | fuel + 1, count =>
    match (neighbours n d (lead - count)).find? (Decimal.readsAs x) with
    | some found => found
    | none => search x n d lead fuel (count + 1)

/-- The decimal number with the fewest digits that reads back as `m * 2 ^ e`.
    Seventeen digits always do. -/
def shortest (m : Nat) (e : Int) : Decimal :=
  if m = 0 then ⟨0, 0⟩
  else
    let (n, d) := fraction m e
    search (.finite false m e) n d (leadingExponent n d) 16 0

/-- The digits without trailing zeros, and where the point stands: before the
    digit with this number. -/
def significant (d : Decimal) : String × Int :=
  let all := Nat.toDigits 10 d.digits
  let kept := (all.reverse.dropWhile (· == '0')).reverse
  (String.ofList kept, all.length + d.exponent)

def positional (digits : String) (point : Int) : String :=
  if point ≤ 0 then "0." ++ Numeral.run '0' (-point).toNat ++ digits
  else
    let k := point.toNat
    if digits.length ≤ k then digits ++ Numeral.run '0' (k - digits.length) ++ ".0"
    else String.ofList (digits.toList.take k) ++ "." ++ String.ofList (digits.toList.drop k)

/-- Digits with the point after the first one and an exponent. -/
def exponential (digits : String) (point : Int) : String :=
  let e := point - 1
  let head := String.ofList (digits.toList.take 1)
  let tail := String.ofList (digits.toList.drop 1)
  head ++ (if tail.isEmpty then "" else "." ++ tail) ++ "e" ++ (if e < 0 then "-" else "+")
    ++ Numeral.zeroPadded 10 2 e.natAbs

def text : Binary64 → String
  | finite s m e =>
    let sign := if s then "-" else ""
    if m = 0 then sign ++ "0.0"
    else
      let (digits, point) := significant (shortest m e)
      sign ++ if -4 < point && point ≤ 16 then positional digits point
        else exponential digits point
  | infinite s => if s then "-inf" else "inf"
  | undefined => "nan"

/-- The text of a value with a fixed number of decimal places. -/
def fixed (places : Nat) : Binary64 → String
  | finite s m e =>
    let digits := Numeral.padLeft '0' (places + 1) (Numeral.digits 10 (scaled m e places))
    let whole := digits.toList.take (digits.length - places)
    let rest := digits.toList.drop (digits.length - places)
    (if s then "-" else "") ++ String.ofList whole
      ++ (if places = 0 then "" else "." ++ String.ofList rest)
  | infinite s => if s then "-inf" else "inf"
  | undefined => "nan"

end BpfLanes.Binary64
