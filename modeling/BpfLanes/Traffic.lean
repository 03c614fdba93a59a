import BpfLanes.Fault
import BpfLanes.Text.Numeral

/-! # Test traffic

Traffic for throughput tests: packets of one size, each of a flow of its own
with random addresses and ports, written to a capture file. Random numbers are
drawn from a sequence that is given.
-/

namespace BpfLanes

/-- One packet: its link, network and transport addresses and its payload. -/
structure Packet where
  linkSource : String
  linkTarget : String
  source : String
  target : String
  sourcePort : Int
  targetPort : Int
  payload : String
  deriving DecidableEq, Repr, Inhabited

/-- A capture file that was written. -/
structure Capture where
  file : String
  /-- whether the packets were added to what the file held -/
  appended : Bool
  packets : List Packet
  deriving DecidableEq, Repr, Inhabited

/-- A generator of traffic and what it has done. -/
structure Traffic where
  /-- the numbers that are drawn, round by round and one higher in each round -/
  feed : Array Int
  drawn : Nat := 0
  payloads : List (Int × String) := []
  captures : Array Capture := #[]
  printed : String := ""
  deriving Repr, Inhabited

abbrev TrafficM := EStateM Fault Traffic

namespace Traffic

def headerSize : Int := 42

def drawAt (feed : Array Int) (turn : Nat) : Option Int :=
  (feed[turn % feed.size]?).map (· + (turn / feed.size : Nat))

def draw : TrafficM Int := do
  let t ← get
  match drawAt t.feed t.drawn with
  | some x =>
    set { t with drawn := t.drawn + 1 }
    return x
  | none => throw .divisionByZero

def between (low high : Int) : TrafficM Int := do
  return low + (← draw) % (high - low + 1)

/-- Draws a port that is neither reserved nor ephemeral. -/
def port : TrafficM Int :=
  between 2000 49151

def hexByte : TrafficM String := do
  return Numeral.zeroPadded 16 2 ((← draw) % 256)

def linkAddress : TrafficM String := do
  return ":".intercalate (← (List.range 6).mapM fun _ => hexByte)

def address : TrafficM String := do
  let parts ← (List.range 4).mapM fun _ => between 1 255
  return ".".intercalate (parts.map toString)

/-- A text repeated as often as it fits into a size, filled up with dots. A
    negative size holds no text, and its dots make it up to a multiple of the
    text's length. -/
def fill (size : Int) (text : String) : Except Fault String :=
  if text.length = 0 then .error .divisionByZero
  else
    let whole := (size.tdiv text.length).toNat
    let rest := (size % text.length).toNat
    .ok ("".intercalate (List.replicate whole text) ++ Numeral.run '.' rest)

/-- The payload of a size. It is made once: later ones of the same size are equal
    to it, whatever text they are to be made of. -/
def payload (size : Int) (text : String) : TrafficM String := do
  match (← get).payloads.lookup size with
  | some p => return p
  | none =>
    let p ← fill size text
    modify fun t => { t with payloads := (size, p) :: t.payloads }
    return p

def packet (size : Int) (text : String) : TrafficM Packet := do
  let linkSource ← linkAddress
  let linkTarget ← linkAddress
  let source ← address
  let target ← address
  let sourcePort ← port
  let targetPort ← port
  let payload ← payload (size - headerSize) text
  return { linkSource, linkTarget, source, target, sourcePort, targetPort, payload }

/-- Writes packets to a capture file. More packets than one are added to it, and
    there must be one. -/
def writeFlows (count size : Int) (text file : String) : TrafficM Unit := do
  let packets ← (List.range count.toNat).mapM fun _ => packet size text
  if packets.isEmpty then throw .unassigned
  let capture : Capture := { file, appended := packets.length != 1, packets }
  modify fun t => { t with captures := t.captures.push capture }

def say (s : String) : TrafficM Unit :=
  modify fun t => { t with printed := t.printed ++ s ++ "\n" }

/-- The capture that the throughput tests use: a hundred flows of large packets. -/
def standard : TrafficM Unit := do
  say "Generating 1500 Bytes, 100 flows"
  writeFlows 100 1500 "sal" "100_flows_1500_bytes.pcap"
  say "Thread 0 finished"

end Traffic
end BpfLanes
