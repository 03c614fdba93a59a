import BpfLanes.Doc.Basic
import BpfLanes.Measure.Bench
import BpfLanes.Measure.Profile
import BpfLanes.Number.Reading

/-! # Descriptions of benches

Benches, their values and profiles of their calls can be described by
documents. Plain documents describe themselves. Any other value is an object
with a tag `t` for its type and a content `v`.
-/

namespace BpfLanes

namespace Value

def realOf : Value → Binary64
  | text s => (Binary64.read? s).getD .undefined
  | whole i => .ofInt i
  | real x => x
  | _ => .undefined

def items : Value → List Value
  | list xs => xs
  | _ => []

def pairs (v : Value) : List (Value × Value) :=
  v.items.filterMap fun
    | list [a, b] => some (a, b)
    | _ => none

def textOf : Value → String
  | text s => s
  | _ => ""

def countOf : Value → Nat
  | whole i => i.toNat
  | _ => 0

def bytesOf : List Char → List UInt8
  | a :: b :: rest =>
    UInt8.ofNat (16 * (Integer.digit? a).getD 0 + (Integer.digit? b).getD 0) :: bytesOf rest
  | _ => []

def cellOf : Value → Value
  | text s => real (realOf (text s))
  | v => v

def tagged (fields : List (String × Value)) : Value :=
  let field (key : String) : Value := (fields.lookup key).getD absent
  let v := field "v"
  match (field "t").textOf with
  | "float" => real v.realOf
  | "complex" => complex (v.items.headD absent).realOf ((v.items.drop 1).headD absent).realOf
  | "tuple" => tuple v.items
  | "set" => ofMembers false v.items
  | "frozenset" => ofMembers true v.items
  | "dict" => ofEntries v.pairs
  | "dataclass" => record "D" v.pairs
  | "bytes" => bytes .fixed (bytesOf v.textOf.toList)
  | "bytearray" => bytes .growing (bytesOf v.textOf.toList)
  | "memoryview" => bytes .view (bytesOf v.textOf.toList)
  | "ints" => list ((List.range v.countOf).map fun i : Nat => whole i)
  | "fraction" => fraction v.textOf
  | "decimal" => decimal v.textOf
  | "date" => date v.textOf
  | "uuid" => identifier v.textOf
  | "path" => path v.textOf
  | "ndarray" =>
    array (field "dtype").textOf ((field "shape").items.map countOf) (v.items.map cellOf)
  | _ => object

mutual

def ofDoc : Doc → Value
  | .null => absent
  | .bool b => truth b
  | .int i => whole i
  | .real x => real x
  | .text s => text s
  | .list xs => list (ofDocs xs)
  | .object es => tagged (ofFields es)

def ofDocs : List Doc → List Value
  | [] => []
  | d :: ds => ofDoc d :: ofDocs ds

def ofFields : List (String × Doc) → List (String × Value)
  | [] => []
  | (k, d) :: rest => (k, ofDoc d) :: ofFields rest

end

end Value

namespace Raised

def ofDoc? (d : Doc) (key : String) : Option Raised :=
  (d.get? key).bind Doc.text? |>.map fun kind =>
    ⟨kind, ((d.get? "message").bind Doc.text?).getD ""⟩

end Raised

namespace Bench

def conductOf (d : Doc) : Conduct :=
  let field (key : String) : Value := Value.ofDoc ((d.get? key).getD .null)
  if (d.get? "const").isSome then .constant
  else if let some r := Raised.ofDoc? d "raises" then .interrupted (.raised r)
  else if (d.get? "value").isSome then .returns (field "value")
  else if (d.get? "seq").isSome then .cycles (field "seq").items
  else if let some (.text key) := d.get? "param" then
    let wrapped := ((d.get? "wrap").getD .null).isFilled
    .echoes key (field "default") wrapped
  else if let some r := Raised.ofDoc? d "run_raises" then .interrupted (.raised r)
  else if ((d.get? "timeout").getD .null).isFilled then .interrupted .timeout
  else .returns (field "run")

def ofDoc (d : Doc) : Bench :=
  { name := ((d.get? "name").bind Doc.text?).getD ""
    conduct := conductOf d
    params := ((d.get? "params").getD .null).items.map fun p => Value.ofFields p.entries }

end Bench

def Suite.ofDoc (d : Doc) : Suite :=
  match Raised.ofDoc? ((d.get? "import_error").getD .null) "raises" with
  | some r => .error r
  | none => .ok (((d.get? "benches").getD .null).items.map Bench.ofDoc)

namespace Profile

def timeOf (d : Doc) : Binary64 :=
  d.number?.getD (.zero false)

/-- The frame that a list of file, line, function and time describes. -/
def frameOf? : Doc → Option Frame
  | .list [.text file, .int line, .text function, time] => some ⟨file, line, function, timeOf time⟩
  | _ => none

def ofDoc (d : Doc) : Profile :=
  { total := timeOf ((d.get? "total").getD .null)
    frames := ((d.get? "frames").getD .null).items.filterMap frameOf? }

def allOf (d : Doc) : List Profile :=
  ((d.get? "profiles").getD .null).items.map ofDoc

end Profile
end BpfLanes
