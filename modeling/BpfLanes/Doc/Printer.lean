import BpfLanes.Doc.Basic
import BpfLanes.Number.Shortest

/-! # Writing documents

A document is written on one line with a blank after each comma and colon.
Characters beyond ASCII are written by their numbers.
-/

namespace BpfLanes.Doc

def unitText (n : Nat) : String :=
  "\\u" ++ Numeral.zeroPadded 16 4 n

def charText (c : Char) : String :=
  let n := c.toNat
  if c == '"' then "\\\""
  else if c == '\\' then "\\\\"
  else if c == '\n' then "\\n"
  else if c == '\r' then "\\r"
  else if c == '\t' then "\\t"
  else if n == 8 then "\\b"
  else if n == 12 then "\\f"
  else if n < 0x20 || (0x7f ≤ n && n < 0x10000) then unitText n
  else if 0x10000 ≤ n then
    unitText (0xd800 + (n - 0x10000) / 1024) ++ unitText (0xdc00 + (n - 0x10000) % 1024)
  else c.toString

def quoted (s : String) : String :=
  "\"" ++ String.join (s.toList.map charText) ++ "\""

/-- A real number; the values beyond all numbers have names. -/
def realText : Binary64 → String
  | .infinite negative => if negative then "-Infinity" else "Infinity"
  | .undefined => "NaN"
  | x => x.text

mutual

def render : Doc → String
  | null => "null"
  | bool b => if b then "true" else "false"
  | int i => toString i
  | real x => realText x
  | text s => quoted s
  | list items => "[" ++ ", ".intercalate (renderItems items) ++ "]"
  | object entries => "\x7b" ++ ", ".intercalate (renderEntries entries) ++ "\x7d"

def renderItems : List Doc → List String
  | [] => []
  | d :: ds => render d :: renderItems ds

def renderEntries : List (String × Doc) → List String
  | [] => []
  | (k, d) :: rest => (quoted k ++ ": " ++ render d) :: renderEntries rest

end

end BpfLanes.Doc
