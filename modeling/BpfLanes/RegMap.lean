/-! # Positions by register

A map from registers to positions in the program. Entries keep the place at
which their register was first put in.
-/

namespace BpfLanes

abbrev RegMap := List (Int × Int)

namespace RegMap

def keys (m : RegMap) : List Int := m.map Prod.fst

def has (m : RegMap) (r : Int) : Bool := m.any fun e => e.1 == r

def get? (m : RegMap) (r : Int) : Option Int := m.lookup r

def put (m : RegMap) (r p : Int) : RegMap :=
  if m.has r then m.map fun e => if e.1 == r then (r, p) else e
  else m ++ [(r, p)]

def without (m n : RegMap) : RegMap := m.filter fun e => !n.has e.1

/-- The entries of two maps; a register in both gets the smaller position. -/
def union (m n : RegMap) : RegMap :=
  n.foldl (fun m e =>
    match m.get? e.1 with
    | none => m.put e.1 e.2
    | some p => if e.2 < p then m.put e.1 e.2 else m) m

def sameKeys (m n : RegMap) : Bool :=
  m.all (fun e => n.has e.1) && n.all fun e => m.has e.1

def sorted (m : RegMap) : RegMap := m.mergeSort fun a b => a.1 ≤ b.1

end RegMap
end BpfLanes
