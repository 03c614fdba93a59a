import BpfLanes.Peephole.Group
import BpfLanes.Peephole.Rule
import BpfLanes.Peephole.Span

/-! # Copies in batches

Recognises a copy of six bytes in which all loads come first and all stores
later. Between the two nothing may touch the registers that hold the pieces.
The stores must put the pieces down in the order in which they were loaded. A
recognised copy becomes one load and one store of six bytes.
-/

namespace BpfLanes.Peephole

/-- Where the recogniser of batched copies is. -/
inductive CopyBatch.Phase where
  | idle
  | loading
  | loaded
  | storing
  deriving DecidableEq, Repr, Inhabited

/-- The recogniser of batched copies. -/
structure CopyBatch where
  phase : CopyBatch.Phase := .idle
  load : Span := {}
  store : Span := {}
  progress : Progress := {}
  registers : List Int := []
  /-- register of the piece at each offset, of the loads and then of the stores -/
  area : List (Int × Int) := []
  /-- register of each piece, counted from the lowest offset -/
  order : List (Int × Int) := []
  notes : Notes := {}
  deriving Repr, Inhabited

namespace CopyBatch

abbrev Step := EStateM Fault CopyBatch

/-- Records a value under a number, in place of the one recorded before. -/
def record (m : List (Int × Int)) (k v : Int) : List (Int × Int) :=
  (m.filter fun e => e.1 != k) ++ [(k, v)]

def recorded (m : List (Int × Int)) (k : Int) : Except Fault Int :=
  match m.lookup k with
  | some v => .ok v
  | none => .error .missingKey

/-- The offsets from `low` up to `high` in steps of a size. -/
def offsets (low high size : Option Int) : Except Fault (List Int) := do
  let low ← need low
  let high ← need high
  let size ← need size
  if size = 0 then throw .negativeAmount
  if size < 0 then return []
  return (List.range ((high - low + size - 1) / size).toNat).map fun (k : Nat) => low + k * size

def fields : Step Fields := do (← get).notes.fields

def setSize (size : Int) : Step Unit :=
  modify fun s => { s with progress := { s.progress with size := some size } }

/-! ## Tests -/

def isLoad : Step Bool := return (← fields).isNarrowLoad

def isStore : Step Bool := return (← fields).isNarrowStore

def isLoadComplete : Step Bool := do
  let s ← get
  s.load.complete s.progress

/-- Whether the pieces from `low` to `high` were stored in the order of the loads. -/
def inOrder (s : CopyBatch) (low high : Option Int) : Except Fault Bool := do
  for (offset, i) in (← offsets low high s.progress.size).zipIdx do
    let stored ← recorded s.area offset
    let loaded ← recorded s.order i
    if stored != loaded then return false
  return true

/-- All six bytes have been stored, in the order of the loads. -/
def isStoreComplete : Step Bool := do
  let s ← get
  match ← s.store.bounds? s.progress with
  | some (low, high) => s.inOrder low high
  | none => return false

/-- A load of a piece next to those seen. Notes its size. -/
def isNextLoad : Step Bool := do
  let f ← fields
  if !f.isLoad then return false
  let some direction := (← get).progress.direction | return true
  let size ← bytesOfBits f.loadBits?
  setSize size
  let s ← get
  let complete := s.load.complete s.progress
  match direction with
  | .pending => return s.load.touches f.offset size
  | .forward => s.load.continuesForward complete f.offset size
  | .backward =>
    let reach := ((← pieces (some size)) - s.progress.count) * size
    s.load.continuesBackward complete f.offset size reach

/-- A store of one of the loaded registers next to the pieces stored. Notes its
    size. -/
def isNextStore : Step Bool := do
  let f ← fields
  if !f.isStore then return false
  let size ← bytesOfBits f.storeBits?
  setSize size
  let s ← get
  if !s.registers.contains (← Position.get f.inputs.toArray 0) then return false
  let complete := s.load.complete s.progress
  match s.progress.direction with
  | none => return true
  | some .pending => return s.store.touches f.offset size
  | some .forward => s.store.continuesForward complete f.offset size
  | some .backward =>
    let reach := (← pieces (some size)) - s.progress.count * size
    s.store.continuesBackward complete f.offset size reach

def touchesRegisters : Step Bool := do
  let f ← fields
  let s ← get
  return f.inputs.any s.registers.contains || f.output?.any s.registers.contains

/-! ## Actions -/

def keep : Step Unit := do
  let s ← get
  let (word, id) ← s.notes.now
  let notes ← s.notes.put { id, word, text := "NOP" }
  set { s with notes := notes }

def extended (span : Span) (p : Progress) (offset size : Int) (refusal : String) :
    Except Fault (Direction × Span) :=
  match p.direction with
  | none => .ok (.pending, span.start offset size)
  | some .pending => span.second offset size loadRefusal
  | some .forward => return (.forward, ← span.extendForward offset size refusal)
  | some .backward => return (.backward, ← span.extendBackward offset size p.count refusal)

/-- Notes the size of a piece; all pieces of a copy have one size. -/
def agreeSize (size : Int) : Step Unit := do
  match (← get).progress.size with
  | none => setSize size
  | some s => require (s == size) ""

def countPiece : Step Unit :=
  modify fun s => { s with progress := { s.progress with count := s.progress.count + 1 } }

def addLoad : Step Unit := do
  let f ← fields
  let some bits := f.loadBits? | throw (.violated loadRefusal)
  let size := Int.tdiv bits 8
  agreeSize size
  let s ← get
  let (direction, load) ← extended s.load s.progress f.offset size loadRefusal
  set { s with load, progress := { s.progress with direction := some direction } }
  keep
  modify fun s => { s with area := record s.area f.offset f.dst }
  countPiece
  modify fun s => { s with
    registers := if s.registers.contains f.dst then s.registers else s.registers ++ [f.dst] }

def addStore : Step Unit := do
  let f ← fields
  let some bits := f.storeBits? | throw (.violated loadRefusal)
  let size := Int.tdiv bits 8
  agreeSize size
  let s ← get
  let (direction, store) ← extended s.store s.progress f.offset size storeRefusal
  set { s with store, progress := { s.progress with direction := some direction } }
  keep
  let value ← Position.get f.inputs.toArray 0
  modify fun s => { s with area := record s.area f.offset value }
  countPiece

def beginStores : Step Unit :=
  modify fun s => { s with
    area := [], progress := { s.progress with direction := none, count := 0 } }

def finishLoads : Step Unit := do
  let s ← get
  let bounds : Option (Option Int × Option Int) :=
    match s.progress.direction with
    | some .forward =>
      if s.load.leftLow.isNone && s.load.leftHigh.isNone then
        some (s.load.rightLow, s.load.rightHigh)
      else some (s.load.leftLow, s.load.rightHigh)
    | some .backward =>
      if s.load.rightLow.isNone && s.load.rightHigh.isNone then
        some (s.load.leftLow, s.load.leftHigh)
      else some (s.load.leftLow, s.load.rightHigh)
    | _ => none
  let some (low, high) := bounds | return ()
  (← offsets low high s.progress.size).zipIdx.forM fun (offset, i) => do
    let register ← recorded s.area offset
    modify fun s => { s with order := record s.order i register }

def put (e : Entry) : Step Unit := do
  let s ← get
  let notes ← s.notes.put e
  set { s with notes := notes }

/-- Turns the last group into a load and a store of six bytes: the first load
    carries the one, the store of the register it loads carries the other, and
    the rest is dropped. -/
def finish : Step Unit := do
  let s ← get
  let group ← s.notes.last
  let first ← Position.get group.toArray 0
  let start ← lowest (s.load.leftLow.or s.load.rightLow)
  let load ← Word.setOffset (first.word.setOpcode Opcode.load48) start
  let loadFields ← Fields.decode load
  let loadShown ← loadText loadFields
  put { id := first.id, word := load, text := loadShown }
  (group.drop 1).forM fun e => do
    let f ← Fields.decode e.word
    let stored := if f.isStore then f.inputs.head? else none
    if f.isStore && stored == some loadFields.dst then
      let start ← lowest (s.store.leftLow.or s.store.rightLow)
      let store ← Word.setOffset (e.word.setOpcode Opcode.store48) start
      put { id := e.id, word := store, text := ← storeText f }
    else put (.nop e.id)

def dropGroup : Step Unit := modify fun s => { s with notes := s.notes.dropLast }

def openGroup : Step Unit := modify fun s => { s with notes := s.notes.addGroup }

def reset : Step Unit :=
  modify fun s => { s with
    load := {}, store := {}, progress := {}, registers := [], area := [], order := [] }

/-! ## Rules -/

def rules : List (Rule CopyBatch Phase) := [
  { source := .idle, target := .loading, whenAll := [isLoad], after := [addLoad] },

  { source := .loading, target := .idle, unlessAny := [isLoad, isLoadComplete],
    after := [dropGroup, openGroup, reset] },
  { source := .loading, target := .loading, whenAll := [isNextLoad],
    unlessAny := [isLoadComplete], after := [addLoad] },
  { source := .loading, target := .loading, whenAll := [isLoad], unlessAny := [isNextLoad],
    after := [dropGroup, openGroup, reset, addLoad] },
  { source := .loading, target := .loaded, whenAll := [isLoadComplete],
    after := [finishLoads, beginStores] },

  { source := .loaded, target := .loading, whenAll := [isLoad, touchesRegisters],
    after := [dropGroup, openGroup, reset, addLoad] },
  { source := .loaded, target := .loaded, unlessAny := [touchesRegisters] },
  { source := .loaded, target := .storing, whenAll := [isStore, isNextStore],
    after := [addStore] },

  { source := .storing, target := .storing, whenAll := [isStore, isNextStore],
    after := [addStore] },
  { source := .storing, target := .loading, whenAll := [isLoad],
    unlessAny := [isStoreComplete], after := [dropGroup, openGroup, reset, addLoad] },
  { source := .storing, target := .loading, whenAll := [isLoad, isStoreComplete],
    after := [finish, openGroup, reset, addLoad] },
  { source := .storing, target := .idle, whenAll := [isStoreComplete], unlessAny := [isLoad],
    after := [finish, openGroup, reset] },
  { source := .storing, target := .idle, unlessAny := [isStoreComplete, isLoad],
    after := [dropGroup, openGroup, reset] }]

def read (word : Word) (id : Int) : Step Unit := do
  modify fun s => { s with notes := { s.notes with current := some (word, id) } }
  Rule.step CopyBatch.phase (fun p s => { s with phase := p }) rules

end CopyBatch
end BpfLanes.Peephole
