/-! # Opcode classes

The opcodes of the instruction set and of its lane-processor extensions,
sorted into the classes that the compiler asks about. An opcode is the
number in the top byte of a word.
-/

namespace BpfLanes.Opcode

/-! ## Control flow -/

/-- Every instruction that may leave the straight line. -/
def branches : List Int :=
  [0x05, 0x15, 0x1d, 0x25, 0x2d, 0x35, 0x3d, 0xa5, 0xad, 0xb5, 0xbd, 0x45, 0x4d, 0x55, 0x5d,
   0x65, 0x6d, 0x75, 0x7d, 0xc5, 0xcd, 0xd5, 0xdd, 0x85, 0x95, 0x96]

/-- The unconditional jump. -/
def goto : Int := 0x05

/-- The helper call. -/
def call : Int := 0x85

/-- The end of the program that also sets the result. -/
def moveExit : Int := 0x96

/-- The ends of the program. -/
def exits : List Int := [0x95, moveExit]

/-- Branches without register operands: goto, call and the exits. -/
def plainBranches : List Int := [goto, call, 0x95, moveExit]

/-- Branches without an offset. -/
def offsetlessBranches : List Int := [call, 0x95, moveExit]

/-- Comparisons of two registers by "greater" and "greater or equal". -/
def greaterJumps : List Int := [0x2d, 0x3d]

/-! ## Arithmetic -/

/-- Does nothing. -/
def nop : Int := 0x00

/-- Copies a register. -/
def move : Int := 0xbf

/-- Sets a register to an immediate. -/
def moveImmediate : Int := 0xb7

/-- Arithmetic and logic. -/
def arithmetic : List Int :=
  [0x07, 0x0f, 0x17, 0x1f, 0x27, 0x2f, 0x37, 0x3f, 0x47, 0x4f, 0x57, 0x5f, 0x67, 0x6f, 0x77,
   0x7f, 0x87, 0x97, 0x9f, 0xa7, 0xaf, 0xb7, 0xbf, 0xc7, 0xcf, 0x04, 0x0c, 0x14, 0x1c, 0x24,
   0x2c, 0x34, 0x3c, 0x44, 0x4c, 0x54, 0x5c, 0x64, 0x6c, 0x74, 0x7c, 0x84, 0x94, 0x9c, 0xa4,
   0xac, 0xb4, 0xbc, 0xc4, 0xcc]

/-- Additions of an immediate, the three-operand form included. -/
def addImmediate : List Int := [0x07, 0x8f]

/-- Additions of a register. -/
def addRegister : List Int := [0x0f]

/-- The three-operand form of each two-operand operation that has one. -/
def fusedForms : List (Int × Int) :=
  [(0x07, 0x8f), (0x17, 0xd7), (0x47, 0xdf), (0x57, 0xff), (0x67, 0xef), (0x77, 0xf7),
   (0x04, 0x8c), (0x14, 0xe4), (0x64, 0xec), (0x74, 0xf4), (0xa4, 0xfc)]

/-- The three-operand form of an operation. -/
def fused? (opcode : Int) : Option Int :=
  fusedForms.lookup opcode

/-- The three-operand operations. -/
def fused : List Int :=
  fusedForms.map Prod.snd

/-! ## Memory -/

/-- Loads six bytes. -/
def load48 : Int := 0x59

/-- Stores six bytes. -/
def store48 : Int := 0x5a

/-- Loads. -/
def loads : List Int :=
  [0x18, 0x20, 0x28, 0x30, 0x38, 0x40, 0x48, 0x50, 0x58, 0x61, 0x69, 0x71, 0x79, load48]

/-- Stores of an immediate or of a register. -/
def plainStores : List Int := [0x62, 0x6a, 0x72, 0x7a, 0x63, 0x6b, 0x73, 0x7b]

/-- Stores. -/
def stores : List Int := plainStores ++ [store48]

/-- The bits moved by a load through a register. -/
def loadBits : List (Int × Int) :=
  [(0x61, 32), (0x69, 16), (0x71, 8), (0x79, 64), (load48, 48)]

/-- The bits moved by a store of a register. -/
def storeBits : List (Int × Int) :=
  [(0x63, 32), (0x6b, 16), (0x73, 8), (0x7b, 64), (store48, 48)]

/-- Loads that can be gathered into a load of six bytes. -/
def narrowLoads : List Int := [0x69, 0x71]

/-- Stores that can be gathered into a store of six bytes. -/
def narrowStores : List Int := [0x6b, 0x73]

/-! ## Operands -/

/-- Instructions that read the target register only. -/
def readsTarget : List Int :=
  [0x07, 0x17, 0x27, 0x37, 0x47, 0x57, 0x67, 0x77, 0x87, 0x97, 0xa7, 0xc7, 0x04, 0x14, 0x24,
   0x34, 0x44, 0x54, 0x64, 0x74, 0x84, 0x94, 0xa4, 0xc4, 0xd4, 0xdc, 0x62, 0x6a, 0x72, 0x7a,
   0x15, 0x25, 0x35, 0xa5, 0xb5, 0x45, 0x55, 0x65, 0x75, 0xc5, 0xd5]

/-- Instructions that read the source and the target register. -/
def readsBoth : List Int :=
  [0x0f, 0x1f, 0x2f, 0x3f, 0x4f, 0x5f, 0x6f, 0x7f, 0x9f, 0xaf, 0xcf, 0x0c, 0x1c, 0x2c, 0x3c,
   0x4c, 0x5c, 0x6c, 0x7c, 0x9c, 0xac, 0xcc, 0x63, 0x6b, 0x73, 0x7b, 0x1d, 0x2d, 0x3d, 0xad,
   0xbd, 0x4d, 0x5d, 0x6d, 0x7d, 0xcd, 0xdd, store48]

/-- Instructions that read the source register only. -/
def readsSource : List Int :=
  [0xbf, 0xbc, 0x61, 0x69, 0x71, 0x79] ++ fused ++ [load48]

/-- Instructions that read no register field. -/
def readsNothing : List Int := [0xb7, 0xb4, 0x18, 0x05, 0x85, 0x95, 0x96]

/-- Instructions that write no register. -/
def writesNothing : List Int := branches ++ plainStores

/-! ## Register roles -/

/-- The register that points at the stack. -/
def stackRegister : Int := 10

/-- The arguments of a helper that takes other than five, by helper number. -/
def helperArity : List (Int × Nat) :=
  [(1, 4), (5, 0), (6, 5), (8, 0), (23, 2), (25, 3), (28, 4), (44, 2), (51, 3), (54, 2), (65, 2),
   (69, 4)]

/-- The registers that hold the arguments of a helper. -/
def helperArguments (helper : Int) : List Int :=
  (List.range ((helperArity.lookup helper).getD 5)).map fun (k : Nat) => (k : Int) + 1

end BpfLanes.Opcode
