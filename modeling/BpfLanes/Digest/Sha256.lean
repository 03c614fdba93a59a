/-! # SHA-256 digests

A digest condenses a run of bytes to 32 bytes. The message is padded to whole
blocks of 64 bytes, and each block is mixed into eight words in 64 rounds.
-/

namespace BpfLanes.Sha256

/-- The eight words that a digest is built in. -/
structure State where
  a : UInt32
  b : UInt32
  c : UInt32
  d : UInt32
  e : UInt32
  f : UInt32
  g : UInt32
  h : UInt32
  deriving DecidableEq, Repr, Inhabited

/-- The words before the first block: the fractional bits of the square roots of
    the first eight primes. -/
def State.initial : State := {
  a := 0x6a09e667, b := 0xbb67ae85, c := 0x3c6ef372, d := 0xa54ff53a,
  e := 0x510e527f, f := 0x9b05688c, g := 0x1f83d9ab, h := 0x5be0cd19 }

/-- The round constants: the fractional bits of the cube roots of the first 64
    primes. -/
def roundConstants : List UInt32 := [
    0x428a2f98, 0x71374491, 0xb5c0fbcf, 0xe9b5dba5, 0x3956c25b, 0x59f111f1, 0x923f82a4, 0xab1c5ed5,
    0xd807aa98, 0x12835b01, 0x243185be, 0x550c7dc3, 0x72be5d74, 0x80deb1fe, 0x9bdc06a7, 0xc19bf174,
    0xe49b69c1, 0xefbe4786, 0x0fc19dc6, 0x240ca1cc, 0x2de92c6f, 0x4a7484aa, 0x5cb0a9dc, 0x76f988da,
    0x983e5152, 0xa831c66d, 0xb00327c8, 0xbf597fc7, 0xc6e00bf3, 0xd5a79147, 0x06ca6351, 0x14292967,
    0x27b70a85, 0x2e1b2138, 0x4d2c6dfc, 0x53380d13, 0x650a7354, 0x766a0abb, 0x81c2c92e, 0x92722c85,
    0xa2bfe8a1, 0xa81a664b, 0xc24b8b70, 0xc76c51a3, 0xd192e819, 0xd6990624, 0xf40e3585, 0x106aa070,
    0x19a4c116, 0x1e376c08, 0x2748774c, 0x34b0bcb5, 0x391c0cb3, 0x4ed8aa4a, 0x5b9cca4f, 0x682e6ff3,
    0x748f82ee, 0x78a5636f, 0x84c87814, 0x8cc70208, 0x90befffa, 0xa4506ceb, 0xbef9a3f7, 0xc67178f2]

def turn (w : UInt32) (n : UInt32) : UInt32 :=
  (w >>> n) ||| (w <<< (32 - n))

/-- One round, with the word of the schedule and the constant added up. -/
def State.step (s : State) (input : UInt32) : State :=
  let choice := (s.e &&& s.f) ^^^ (~~~s.e &&& s.g)
  let majority := (s.a &&& s.b) ^^^ (s.a &&& s.c) ^^^ (s.b &&& s.c)
  let t := s.h + (turn s.e 6 ^^^ turn s.e 11 ^^^ turn s.e 25) + choice + input
  let u := (turn s.a 2 ^^^ turn s.a 13 ^^^ turn s.a 22) + majority
  { a := t + u, b := s.a, c := s.b, d := s.c, e := s.d + t, f := s.e, g := s.f, h := s.g }

def State.add (s t : State) : State := {
  a := s.a + t.a, b := s.b + t.b, c := s.c + t.c, d := s.d + t.d,
  e := s.e + t.e, f := s.f + t.f, g := s.g + t.g, h := s.h + t.h }

def State.words (s : State) : List UInt32 :=
  [s.a, s.b, s.c, s.d, s.e, s.f, s.g, s.h]

/-- The next word of a schedule, from the sixteen before it. -/
def nextWord (schedule : Array UInt32) : UInt32 :=
  let back (k : Nat) := schedule.getD (schedule.size - k) 0
  let x := back 15
  let y := back 2
  back 16 + (turn x 7 ^^^ turn x 18 ^^^ (x >>> 3)) + back 7 + (turn y 17 ^^^ turn y 19 ^^^ (y >>> 10))

/-- The 64 words of a block: its sixteen own words and those that follow from
    them. -/
def schedule (block : Array UInt32) : Array UInt32 :=
  (List.range 48).foldl (fun ws _ => ws.push (nextWord ws)) block

def State.absorb (s : State) (block : Array UInt32) : State :=
  let inputs := (schedule block).toList.zipWith (· + ·) roundConstants
  s.add (inputs.foldl State.step s)

def highFirst (count n : Nat) : List UInt8 :=
  (List.range count).map fun i => UInt8.ofNat (n / Nat.pow 256 (count - 1 - i))

/-- What follows a message of a given length: a set bit, zeros up to the last eight
    bytes of a block, and there the length in bits. -/
def padding (length : Nat) : List UInt8 :=
  0x80 :: List.replicate ((119 - length % 64) % 64) 0 ++ highFirst 8 (8 * length)

def wordAt (bytes : Array UInt8) (i : Nat) : UInt32 :=
  let byte (k : Nat) := (bytes.getD (i + k) 0).toUInt32
  (byte 0 <<< 24) ||| (byte 1 <<< 16) ||| (byte 2 <<< 8) ||| byte 3

def digest (message : List UInt8) : List UInt8 :=
  let bytes := (message ++ padding message.length).toArray
  let block (i : Nat) := ((List.range 16).map fun k => wordAt bytes (64 * i + 4 * k)).toArray
  let last := (List.range (bytes.size / 64)).foldl (fun s i => s.absorb (block i)) State.initial
  last.words.flatMap fun w => highFirst 4 w.toNat

end BpfLanes.Sha256
