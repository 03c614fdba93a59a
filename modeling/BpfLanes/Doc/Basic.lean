import BpfLanes.Number.Binary64

/-! # Documents

The measuring tools hand each other JSON documents. The entries of an object
keep their order, and whole numbers are told apart from real ones.
-/

namespace BpfLanes

/-- A JSON document. -/
inductive Doc where
  | null
  | bool (b : Bool)
  | int (i : Int)
  | real (x : Binary64)
  | text (s : String)
  | list (items : List Doc)
  | object (entries : List (String × Doc))
  deriving Repr, Inhabited

namespace Doc

/-- Sets the entry of a key. A key that is there keeps its place. -/
def assign (key : String) (d : Doc) : List (String × Doc) → List (String × Doc)
  | [] => [(key, d)]
  | (k, d') :: rest => if k == key then (k, d) :: rest else (k, d') :: assign key d rest

def get? : Doc → String → Option Doc
  | object entries, key => entries.lookup key
  | _, _ => none

def entries : Doc → List (String × Doc)
  | object es => es
  | _ => []

def entries? : Doc → Option (List (String × Doc))
  | object es => some es
  | _ => none

def items : Doc → List Doc
  | list xs => xs
  | _ => []

def text? : Doc → Option String
  | text s => some s
  | _ => none

/-- The value of a number. A truth value counts as zero or one. -/
def number? : Doc → Option Binary64
  | int i => some (.ofInt i)
  | real x => some x
  | bool b => some (.ofInt (if b then 1 else 0))
  | _ => none

/-- Whether a document holds something: it is not null, false, zero or empty. -/
def isFilled : Doc → Bool
  | null => false
  | bool b => b
  | int i => i != 0
  | real x => !x.isZero
  | text s => !s.isEmpty
  | list xs => !xs.isEmpty
  | object es => !es.isEmpty

@[simp] theorem get?_object (es : List (String × Doc)) (key : String) :
    (object es).get? key = es.lookup key := rfl

theorem lookup_assign (key : String) (d : Doc) (es : List (String × Doc)) :
    (assign key d es).lookup key = some d := by
  induction es with
  | nil => simp [assign]
  | cons e rest ih =>
    obtain ⟨k, d'⟩ := e
    by_cases h : k = key
    · subst h; simp [assign]
    · have h' : (key == k) = false := by simpa using fun e => h e.symm
      simp [assign, h, List.lookup_cons, h', ih]

end Doc
end BpfLanes
