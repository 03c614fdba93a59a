import BpfLanes.Fault
import BpfLanes.Text.Lines
import BpfLanes.Text.Numeral

/-! # The registers of a board

A board has registers behind texts for addresses. A register holds the text
that was written to it, with its mark `0x`; a register that was never written
holds the default. Counters that change by themselves are given as a sequence
of values that reads take one after another.
-/

namespace BpfLanes

/-- One access to a register. -/
inductive Access where
  | write (address value : String)
  | read (address : String)
  deriving DecidableEq, Repr, Inhabited

/-- A board and what a tool did with it. -/
structure Board where
  present : Bool := true
  registers : List (String × String) := []
  unset : String := ""
  /-- values that reads give before the registers do -/
  pending : List String := []
  log : Array Access := #[]
  printed : String := ""
  deriving Repr, Inhabited

abbrev BoardM := EStateM Fault Board

namespace Board

def say (s : String) : BoardM Unit :=
  modify fun b => { b with printed := b.printed ++ s ++ "\n" }

def value (b : Board) (address : String) : String :=
  (b.registers.lookup address).getD b.unset

/-- Replaces the text under an address, which keeps its place. -/
def put (address value : String) : List (String × String) → List (String × String)
  | [] => [(address, value)]
  | (a, v) :: rest => if a == address then (a, value) :: rest else (a, v) :: put address value rest

def write (address digits : String) : BoardM Unit :=
  modify fun b => { b with
    registers := put address ("0x" ++ digits) b.registers
    log := b.log.push (.write address ("0x" ++ digits)) }

/-- The digits in a printed value: without the mark in front and the white space
    behind. -/
def digitsOf (shown : String) : String :=
  String.ofList (Lines.trimEnd (shown.toList.drop 2))

def read (address : String) : BoardM String := do
  let b ← get
  match b.pending with
  | v :: rest =>
    set { b with pending := rest, log := b.log.push (.read address) }
    return digitsOf v
  | [] =>
    set { b with log := b.log.push (.read address) }
    return digitsOf (b.value address)

def probe : BoardM Unit := do
  if (← get).present then say "NetFPGA-SUME Detected"
  else
    say "ERROR: NetFPGA-SUME not available on this system"
    throw (.halted (-1))

theorem lookup_put_self (a v : String) (regs : List (String × String)) :
    (put a v regs).lookup a = some v := by
  induction regs with
  | nil => simp [put]
  | cons r rest ih =>
    obtain ⟨b, w⟩ := r
    simp only [put]
    by_cases h : b = a
    · simp [h]
    · have h' : (a == b) = false := by simp [Ne.symm h]
      have h'' : (b == a) = false := by simp [h]
      simp [h'', List.lookup_cons, h', ih]

theorem lookup_put_other (a b v : String) (regs : List (String × String)) (h : b ≠ a) :
    (put a v regs).lookup b = regs.lookup b := by
  induction regs with
  | nil => simp [put, List.lookup_cons, beq_false_of_ne h]
  | cons r rest ih =>
    obtain ⟨c, w⟩ := r
    simp only [put]
    by_cases hc : c = a
    · subst hc
      simp [List.lookup_cons, beq_false_of_ne h]
    · have h'' : (c == a) = false := by simp [hc]
      simp only [h'', Bool.false_eq_true, if_false, List.lookup_cons]
      cases b == c <;> simp [ih]

end Board
end BpfLanes
