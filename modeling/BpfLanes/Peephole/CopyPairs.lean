import BpfLanes.Peephole.Group
import BpfLanes.Peephole.Rule
import BpfLanes.Peephole.Span

/-! # Copies in pairs

Recognises a copy of six bytes in which loads and stores alternate: each piece
is stored right after it was loaded. A recognised copy becomes one load and
one store of six bytes.
-/

namespace BpfLanes.Peephole

/-- Where the recogniser of alternating copies is. -/
inductive CopyPairs.Phase where
  | idle
  | loaded
  | paired
  deriving DecidableEq, Repr, Inhabited

/-- The recogniser of alternating copies. -/
structure CopyPairs where
  phase : CopyPairs.Phase := .idle
  load : Span := {}
  store : Span := {}
  progress : Progress := {}
  notes : Notes := {}
  deriving Repr, Inhabited

namespace CopyPairs

abbrev Step := EStateM Fault CopyPairs

def fields : Step Fields := do (← get).notes.fields

def setSize (size : Int) : Step Unit :=
  modify fun s => { s with progress := { s.progress with size := some size } }

/-! ## Tests -/

def isLoad : Step Bool := return (← fields).isNarrowLoad

def isStore : Step Bool := return (← fields).isNarrowStore

def isComplete : Step Bool := do
  let s ← get
  s.store.complete s.progress

/-- A load of a piece next to those seen. Notes its size. -/
def isNextLoad : Step Bool := do
  let f ← fields
  if !f.isLoad then return false
  let some direction := (← get).progress.direction | return true
  let size ← bytesOfBits f.loadBits?
  setSize size
  let s ← get
  let complete := s.store.complete s.progress
  match direction with
  | .pending => return s.load.touches f.offset size
  | .forward => s.load.continuesForward complete f.offset size
  | .backward =>
    let reach := ((← pieces (some size)) - s.progress.count) * size
    s.load.continuesBackward complete f.offset size reach

/-- A store of a piece next to those seen. Notes its size. -/
def isNextStore : Step Bool := do
  let f ← fields
  if !f.isStore then return false
  let size ← bytesOfBits f.storeBits?
  setSize size
  let s ← get
  let complete := s.store.complete s.progress
  match s.progress.direction with
  | none => return false
  | some .pending => return true
  | some .forward => s.store.continuesForward complete f.offset size
  | some .backward =>
    let reach := (← pieces (some size)) - s.progress.count * size
    s.store.continuesBackward complete f.offset size reach

/-! ## Actions -/

def keep : Step Unit := do
  let s ← get
  let (word, id) ← s.notes.now
  let notes ← s.notes.put { id, word, text := "NOP" }
  set { s with notes := notes }

/-- Notes the size of a loaded piece; all pieces of a copy have one size. -/
def agreeSize (size : Int) : Step Unit := do
  match (← get).progress.size with
  | none => setSize size
  | some s => require (s == size) ""

/-- Adds a piece to those loaded. The second one decides about the direction. -/
def extendLoad (offset size : Int) : Step Unit := do
  let s ← get
  match s.progress.direction with
  | none =>
    set { s with
      progress := { s.progress with direction := some .pending }
      load := s.load.start offset size }
  | some .pending =>
    let (direction, load) ← s.load.second offset size loadRefusal
    let progress := { s.progress with direction := some direction }
    if direction = .forward then
      set { s with progress, load, store := s.store.turnForward (offset + size) }
    else
      set { s with progress, load }
  | some .forward =>
    let load ← s.load.extendForward offset size loadRefusal
    set { s with load }
  | some .backward =>
    let load ← s.load.extendBackward offset size s.progress.count loadRefusal
    set { s with load }

def addLoad : Step Unit := do
  let f ← fields
  let some bits := f.loadBits? | throw (.violated loadRefusal)
  let size := Int.tdiv bits 8
  agreeSize size
  extendLoad f.offset size
  keep

/-- Makes sure that a stored piece has the size of those loaded. -/
def checkSize (size : Int) : Step Unit := do
  match (← get).progress.size with
  | none => pure ()
  | some s => require (s == size) ""

def extendStore (offset : Int) : Step Unit := do
  let s ← get
  match s.progress.direction with
  | none => pure ()
  | some .pending =>
    if s.store.leftLow.isNone && s.store.rightLow.isNone then
      let size ← need s.progress.size
      set { s with store := s.store.start offset size }
  | some .forward =>
    let size ← need s.progress.size
    let store ← s.store.extendForward offset size storeRefusal
    set { s with store }
  | some .backward =>
    let size ← need s.progress.size
    let store ← s.store.extendBackward offset size s.progress.count storeRefusal
    set { s with store }

def addStore : Step Unit := do
  let f ← fields
  let some bits := f.storeBits? | throw (.violated loadRefusal)
  checkSize (Int.tdiv bits 8)
  extendStore f.offset
  modify fun s => { s with progress := { s.progress with count := s.progress.count + 1 } }
  keep

def put (e : Entry) : Step Unit := do
  let s ← get
  let notes ← s.notes.put e
  set { s with notes := notes }

/-- Turns the last group into a load and a store of six bytes: the first two
    instructions carry them, the others are dropped. -/
def finish : Step Unit := do
  let s ← get
  let group ← s.notes.last
  let first ← Position.get group.toArray 0
  let load ← Word.setOffset (first.word.setOpcode Opcode.load48) (← lowest s.load.leftLow)
  let loadShown ← loadText (← Fields.decode load)
  let second ← Position.get group.toArray 1
  let store ← Word.setOffset (second.word.setOpcode Opcode.store48) (← lowest s.store.leftLow)
  let storeShown ← storeText (← Fields.decode store)
  put { id := first.id, word := load, text := loadShown }
  put { id := second.id, word := store, text := storeShown }
  (group.drop 2).forM fun e => put (.nop e.id)

def dropGroup : Step Unit := modify fun s => { s with notes := s.notes.dropLast }

def openGroup : Step Unit := modify fun s => { s with notes := s.notes.addGroup }

def reset : Step Unit :=
  modify fun s => { s with load := {}, store := {}, progress := {} }

/-! ## Rules -/

def rules : List (Rule CopyPairs Phase) := [
  { source := .idle, target := .loaded, whenAll := [isLoad], after := [addLoad] },

  { source := .loaded, target := .paired, whenAll := [isStore, isNextStore],
    after := [addStore] },
  { source := .loaded, target := .idle, unlessAny := [isNextStore, isLoad],
    after := [dropGroup, openGroup, reset] },
  { source := .loaded, target := .loaded, whenAll := [isLoad],
    after := [dropGroup, openGroup, reset, addLoad] },

  { source := .paired, target := .loaded, whenAll := [isLoad, isNextLoad],
    unlessAny := [isComplete], after := [addLoad] },
  { source := .paired, target := .loaded, whenAll := [isLoad], unlessAny := [isComplete],
    after := [dropGroup, openGroup, reset, addLoad] },
  { source := .paired, target := .loaded, whenAll := [isLoad, isComplete],
    unlessAny := [isNextLoad], after := [finish, openGroup, reset, addLoad] },
  { source := .paired, target := .idle, whenAll := [isComplete], unlessAny := [isLoad],
    after := [finish, openGroup, reset] },
  { source := .paired, target := .idle, unlessAny := [isComplete],
    after := [dropGroup, openGroup, reset] }]

def read (word : Word) (id : Int) : Step Unit := do
  modify fun s => { s with notes := { s.notes with current := some (word, id) } }
  Rule.step CopyPairs.phase (fun p s => { s with phase := p }) rules

end CopyPairs
end BpfLanes.Peephole
