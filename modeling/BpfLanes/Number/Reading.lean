import BpfLanes.Number.Binary64
import BpfLanes.Text.Integer

/-! # Reading binary numbers

A number is read from a decimal text: a sign, digits with a point among them,
an exponent, single underscores between digits and white space around it all.
The names of the infinite and the undefined value are read in any case.
-/

namespace BpfLanes.Binary64

/-- Decimal digits with single underscores between them, and what follows. The
    digits come back as a number and a count. -/
def leadingDigits : Nat → Nat → List Char → Nat × Nat × List Char
  | value, count, [] => (value, count, [])
  | value, count, c :: rest =>
    match Integer.decimalDigit? c with
    | some d => leadingDigits (10 * value + d) (count + 1) rest
    | none =>
      match c, rest with
      | '_', c' :: _ =>
        if 0 < count && (Integer.decimalDigit? c').isSome then leadingDigits value count rest
        else (value, count, c :: rest)
      | _, _ => (value, count, c :: rest)

/-- An exponent at the end of a number; without one it is zero. -/
def exponent? : List Char → Option Int
  | [] => some 0
  | c :: rest =>
    if c != 'e' && c != 'E' then none
    else
      let (negative, rest) := match rest with
        | '-' :: more => (true, more)
        | '+' :: more => (false, more)
        | _ => (false, rest)
      match leadingDigits 0 0 rest with
      | (value, count, []) => if count = 0 then none else some (signed negative value)
      | _ => none

def unsigned? (negative : Bool) (cs : List Char) : Option Binary64 :=
  match String.ofList (cs.map Char.toLower) with
  | "inf" | "infinity" => some (.infinite negative)
  | "nan" => some .undefined
  | _ =>
    let (whole, count, rest) := leadingDigits 0 0 cs
    let (value, places, count, rest) := match rest with
      | '.' :: more =>
        if more.head? == some '_' then (whole, 0, 0, more)
        else
          let (part, places, rest) := leadingDigits 0 0 more
          (whole * Nat.pow 10 places + part, places, count + places, rest)
      | _ => (whole, 0, count, rest)
    if count = 0 then none
    else (exponent? rest).map fun e => ofDecimal negative value (e - places)

def read? (s : String) : Option Binary64 :=
  let cs := s.toList.dropWhile Integer.isBlank
  match (cs.reverse.dropWhile Integer.isBlank).reverse with
  | '-' :: rest => unsigned? true rest
  | '+' :: rest => unsigned? false rest
  | cs => unsigned? false cs

end BpfLanes.Binary64
