/-! # Lines and blanks

Ways a text is cut into lines, and the white space that is trimmed.
-/

namespace BpfLanes.Lines

def isBlank (c : Char) : Bool :=
  let n := c.toNat
  (0x09 ≤ n && n ≤ 0x0d) || (0x1c ≤ n && n ≤ 0x20) || n == 0x85 || n == 0xa0 || n == 0x1680
    || (0x2000 ≤ n && n ≤ 0x200a) || n == 0x2028 || n == 0x2029 || n == 0x202f || n == 0x205f
    || n == 0x3000

def trimStart (cs : List Char) : List Char :=
  cs.dropWhile isBlank

def trimEnd (cs : List Char) : List Char :=
  (cs.reverse.dropWhile isBlank).reverse

def trim (cs : List Char) : List Char :=
  trimEnd (trimStart cs)

/-- Writes every line end, `\r\n`, `\r` or `\n`, as `\n`. -/
def unify : List Char → List Char
  | [] => []
  | '\r' :: '\n' :: rest => '\n' :: unify rest
  | '\r' :: rest => '\n' :: unify rest
  | c :: rest => c :: unify rest

/-- Cuts at every occurrence of a character; there is always one piece more than
    there are occurrences. -/
def splitAt (sep : Char) : List Char → List (List Char)
  | [] => [[]]
  | c :: rest =>
    if c == sep then [] :: splitAt sep rest
    else match splitAt sep rest with
      | piece :: pieces => (c :: piece) :: pieces
      | [] => [[c]]

/-- The lines of a text file, without their line ends. A text that ends in a line
    end has an empty last piece. -/
def ofText (s : String) : List (List Char) :=
  splitAt '\n' (unify s.toList)

/-- The characters that end a line in some script or device. -/
def endsLine (c : Char) : Bool :=
  let n := c.toNat
  (0x0a ≤ n && n ≤ 0x0d) || (0x1c ≤ n && n ≤ 0x1e) || n == 0x85 || n == 0x2028 || n == 0x2029

/-- The lines of a text, cut at every kind of line end. Nothing follows the last
    line end. -/
def anyLines (s : String) : List (List Char) :=
  let cs := unify s.toList
  let pieces := splitAt '\n' (cs.map fun c => if endsLine c then '\n' else c)
  if pieces.getLast? == some [] then pieces.dropLast else pieces

end BpfLanes.Lines
