import BpfLanes.Number.Shortest

/-! # Values that a bench returns

A bench may return anything: numbers, texts, bytes, collections, records,
arrays of numbers, or an object that is known by its written form only.
`Value.typeName` names the type, and `Value.plain` writes the value.
-/

namespace BpfLanes

/-- The types that hold a run of bytes. -/
inductive ByteHolder where
  | fixed
  | growing
  | view
  deriving DecidableEq, Repr, Inhabited

/-- A value. -/
inductive Value where
  | absent
  | truth (b : Bool)
  | whole (i : Int)
  | real (x : Binary64)
  | complex (re im : Binary64)
  | text (s : String)
  | bytes (holder : ByteHolder) (content : List UInt8)
  | list (items : List Value)
  | tuple (items : List Value)
  | set (frozen : Bool) (items : List Value)
  | dictionary (entries : List (Value × Value))
  | record (type : String) (fields : List (Value × Value))
  /-- an array of numbers: the code of its elements, its shape, its elements -/
  | array (element : String) (shape : List Nat) (cells : List Value)
  | written (type form : String)
  /-- an object without a written form of its own -/
  | object
  deriving Repr, Inhabited

namespace Value

def typeName : Value → String
  | absent => "NoneType"
  | truth _ => "bool"
  | whole _ => "int"
  | real _ => "float"
  | complex .. => "complex"
  | text _ => "str"
  | bytes .fixed _ => "bytes"
  | bytes .growing _ => "bytearray"
  | bytes .view _ => "memoryview"
  | list _ => "list"
  | tuple _ => "tuple"
  | set frozen _ => if frozen then "frozenset" else "set"
  | dictionary _ => "dict"
  | record type _ => type
  | array .. => "ndarray"
  | written type _ => type
  | object => "object"

/-- A character between quotes: the backslash and the quote are marked, and control
    characters are given by their number. -/
def quotedChar (quote c : Char) : String :=
  if c == quote || c == '\\' then "\\" ++ c.toString
  else if c == '\n' then "\\n"
  else if c == '\r' then "\\r"
  else if c == '\t' then "\\t"
  else if c.toNat < 0x20 || (0x7f ≤ c.toNat && c.toNat ≤ 0xa0) || c.toNat == 0xad then
    "\\x" ++ Numeral.zeroPadded 16 2 c.toNat
  else c.toString

/-- A text between quotes. They are single ones, unless the text holds only single
    ones itself. -/
def quoted (s : String) : String :=
  let cs := s.toList
  let quote := if cs.contains '\'' && !cs.contains '"' then '"' else '\''
  quote.toString ++ String.join (cs.map (quotedChar quote)) ++ quote.toString

def quotedBytes (content : List UInt8) : String :=
  let cs := content.map fun b => Char.ofNat b.toNat
  let quote := if cs.contains '\'' && !cs.contains '"' then '"' else '\''
  let one (c : Char) := if c.toNat < 0x7f then quotedChar quote c
    else "\\x" ++ Numeral.zeroPadded 16 2 c.toNat
  "b" ++ quote.toString ++ String.join (cs.map one) ++ quote.toString

/-- The parts of a tuple between parentheses; a single one is followed by a
    comma. -/
def tupleForm (forms : List String) : String :=
  match forms with
  | [form] => "(" ++ form ++ ",)"
  | _ => "(" ++ ", ".intercalate forms ++ ")"

def setForm (frozen : Bool) (forms : List String) : String :=
  let inner := "\x7b" ++ ", ".intercalate forms ++ "\x7d"
  match frozen, forms with
  | false, [] => "set()"
  | false, _ => inner
  | true, [] => "frozenset()"
  | true, _ => "frozenset(" ++ inner ++ ")"

mutual

def form : Value → String
  | absent => "None"
  | truth b => if b then "True" else "False"
  | whole i => toString i
  | real x => x.text
  | complex re im => "(" ++ re.text ++ (if im.isNegative then "" else "+") ++ im.text ++ "j)"
  | text s => quoted s
  | bytes .fixed content => quotedBytes content
  | bytes .growing content => "bytearray(" ++ quotedBytes content ++ ")"
  | bytes .view _ => "<memory>"
  | list items => "[" ++ ", ".intercalate (forms items) ++ "]"
  | tuple items => tupleForm (forms items)
  | set frozen items => setForm frozen (forms items)
  | dictionary entries => "\x7b" ++ ", ".intercalate (entryForms ": " entries) ++ "\x7d"
  | record type fields => type ++ "(" ++ ", ".intercalate (entryForms "=" fields) ++ ")"
  | array _ _ cells => "array([" ++ ", ".intercalate (forms cells) ++ "])"
  | written _ form => form
  | object => "<builtins.object>"

def forms : List Value → List String
  | [] => []
  | v :: vs => form v :: forms vs

def entryForms (between : String) : List (Value × Value) → List String
  | [] => []
  | (k, v) :: rest => (form k ++ between ++ form v) :: entryForms between rest

end

/-- A value as plain text: a text stands for itself, all else is in written form. -/
def plain : Value → String
  | text s => s
  | v => form v

/-- What two keys have in common exactly if they are the same key: truth values and
    real numbers count as the whole numbers they equal. -/
def keyForm : Value → String
  | truth b => if b then "1" else "0"
  | real x =>
    if x.isZero then "0"
    else if x.isFinite && x.same (x.roundTo 0) then x.fixed 0
    else x.text
  | v => form v

/-- Sets a key of a dictionary. A key that is there keeps its place. -/
def setEntry (k v : Value) : List (Value × Value) → List (Value × Value)
  | [] => [(k, v)]
  | (k', v') :: rest =>
    if keyForm k' == keyForm k then (k', v) :: rest else (k', v') :: setEntry k v rest

def ofEntries (entries : List (Value × Value)) : Value :=
  dictionary (entries.foldl (fun d p => setEntry p.1 p.2 d) [])

def ofMembers (frozen : Bool) (items : List Value) : Value :=
  set frozen (items.foldl (fun kept v =>
    if kept.any fun k => keyForm k == keyForm v then kept else kept ++ [v]) [])

/-! ## Values known by their written form -/

/-- A fraction, written as numerator and denominator with a stroke between them, in
    lowest terms. -/
def fraction (s : String) : Value :=
  let n := ((s.splitOn "/").head?.bind String.toInt?).getD 0
  let d := ((s.splitOn "/")[1]?.bind String.toInt?).getD 1
  let g := Int.gcd n d
  written "Fraction" s!"Fraction({n / g}, {d / g})"

def decimal (s : String) : Value :=
  written "Decimal" ("Decimal('" ++ s ++ "')")

/-- A day, written as year, month and day with hyphens between them. -/
def date (s : String) : Value :=
  let parts := (s.splitOn "-").map fun p => toString (p.toNat?.getD 0)
  written "date" ("datetime.date(" ++ ", ".intercalate parts ++ ")")

def identifier (s : String) : Value :=
  let cs := s.toList.filter (· != '-')
  let piece (start length : Nat) := String.ofList ((cs.drop start).take length)
  let pieces := [piece 0 8, piece 8 4, piece 12 4, piece 16 4, piece 20 12]
  written "UUID" ("UUID('" ++ "-".intercalate pieces ++ "')")

def path (s : String) : Value :=
  written "PurePosixPath" ("PurePosixPath('" ++ s ++ "')")

end Value
end BpfLanes
