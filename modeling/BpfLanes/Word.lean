import BpfLanes.Fault

/-! # Instruction words

A word holds one instruction, the opcode in its most significant byte:

    opcode   source  target  offset            immediate
    8 bits   4 bits  4 bits  16 bits           32 bits

Offset and immediate are stored lowest byte first. Words are integers, so
that editing a field never depends on a width; a word proper lies in
`[0, 2^64)`, and reading the fields of anything else is a fault.
-/

namespace BpfLanes

abbrev Word := Int

namespace Word

def nop : Word := 0

def weight (n : Nat) : Int := Int.ofNat (Nat.pow 2 n)

/-! ## Bytes -/

def lowBytes : Nat → Nat → List Nat
  | 0, _ => []
  | n + 1, x => x % 256 :: lowBytes n (x / 256)

def ofLowBytes : List Nat → Nat
  | [] => 0
  | b :: bs => b + 256 * ofLowBytes bs

/-- Whether a number can be written in `size` bytes. Signed numbers use two's
    complement, where a negative number that is all sign bits takes no room. -/
def fits (size : Nat) (signed : Bool) (x : Int) : Bool :=
  if signed then
    x == -1 || (-weight (8 * size) ≤ 2 * x && 2 * x < weight (8 * size))
  else 0 ≤ x && x < weight (8 * size)

def asSigned (bits : Nat) (x : Nat) : Int :=
  if weight bits ≤ 2 * x then x - weight bits else x

/-- The bytes of a number that fits in `size` bytes, in the opposite order. -/
def swapBytes (size : Nat) (signed : Bool) (x : Int) : Int :=
  let y := ofLowBytes (lowBytes size (x % weight (8 * size)).toNat).reverse
  if signed && 0 < size then asSigned (8 * size) y else y

/-- Reverses the bytes of a number written in `size` bytes: reading a big-endian number as
    a little-endian one and the other way round are this one function. -/
def reverseBytes (size : Int) (signed : Bool) (x : Int) : Except Fault Int :=
  if size < 0 then .error .negativeAmount
  else if fits size.toNat signed x then .ok (swapBytes size.toNat signed x)
  else .error .tooWide

def bit (x : Int) (i : Nat) : Bool :=
  x / weight i % 2 == 1

/-- Reads the low `bits` bits of a number in two's complement: a number whose
    sign bit is set stands for itself less `2^bits`. -/
def twosComplement (x : Int) (bits : Int) : Except Fault Int :=
  if bits ≤ 0 then .error .negativeAmount
  else if bit x (bits - 1).toNat then .ok (x - weight bits.toNat)
  else .ok x

/-- The bits of a word under a mask, after a shift, counted from the opcode byte:
    the word is read lowest byte first. -/
def extract (w : Word) (mask shift : Int) : Except Fault Int := do
  let r ← reverseBytes 8 false w
  if shift < 0 then throw .negativeAmount
  let x := (r / weight shift.toNat).toNat
  let m := (mask % weight 64).toNat
  return ((x &&& m : Nat) : Int)

/-! ## Fields -/

/-- Replaces the `width` bits of a word from bit `low` on. -/
def writeField (low width : Nat) (v : Int) (w : Word) : Word :=
  w - (w / weight low % weight width) * weight low + (v % weight width) * weight low

def targetShift : Nat := 48

def sourceShift : Nat := 52

def setOffset (w : Word) (offset : Int) : Except Fault Word := do
  let v ← reverseBytes 2 true offset
  return writeField 32 16 v w

def setImmediate (w : Word) (immediate : Int) : Except Fault Word := do
  let v ← reverseBytes 4 false immediate
  return writeField 0 32 v w

/-- Replaces the register field that starts at bit `shift`. The register must
    fit in a byte; its low four bits are stored. -/
def setRegister (w : Word) (register : Int) (shift : Int) : Except Fault Word := do
  let v ← reverseBytes 1 false register
  if shift < 0 then throw .negativeAmount
  return writeField shift.toNat 4 v w

def setOpcode (w : Word) (opcode : Int) : Word :=
  writeField 56 8 opcode w

def setTarget (w : Word) (register : Int) : Except Fault Word :=
  setRegister w register targetShift

def setSource (w : Word) (register : Int) : Except Fault Word :=
  setRegister w register sourceShift

def clearSource (w : Word) : Except Fault Word :=
  setSource w 0

end Word
end BpfLanes
