import BpfLanes.Board.Registers
import BpfLanes.Number.Shortest
import BpfLanes.Text.Integer

/-! # Watching the packet counters

The counters of dropped, sent and received packets are read twice, one second
apart, and shown with their rates in millions of packets per second. This goes
on until a counter cannot be read.
-/

namespace BpfLanes.Board

/-- The packet counters at one time. -/
structure Counters where
  dropped : Int
  sent : Int
  received : Int
  deriving DecidableEq, Repr, Inhabited

def readCounter (address : String) : BoardM Int := do
  Integer.read 16 (← read address)

def readCounters : BoardM Counters := do
  let dropped ← readCounter "0x80020004"
  let sent ← readCounter "0x80020003"
  let received ← readCounter "0x80020002"
  return { dropped, sent, received }

/-- A count in a second as millions in a second. A rate beyond all numbers is a
    fault. -/
def rate (count : Int) : Except Fault String :=
  let r := Binary64.ofQuotient count 1000000
  if r.isFinite then .ok r.text else .error .tooWide

/-- One round: both readings, and the lines about them. The count of received
    packets that is shown is read once more. -/
def watchOnce : BoardM Unit := do
  let before ← readCounters
  let now ← readCounters
  let shown ← readCounter "0x80020002"
  say ("RECEIVED PACKETS: " ++ toString shown ++ " pkts")
  say ("XDP_DROP OCCURENCIES: " ++ toString now.dropped ++ " pkts")
  say ("ARRIVAL RATE: " ++ (← rate (now.received - before.received)) ++ " Mpps")
  say ("DROP RATE: " ++ (← rate (now.dropped - before.dropped)) ++ " Mpps")
  say ("TX RATE: " ++ (← rate (now.sent - before.sent)) ++ " Mpps")

/-- Rounds up to a bound; counters that can be read for ever never end it. -/
def watchRounds : Nat → BoardM Unit
  | 0 => throw .endless
  | n + 1 => do
    watchOnce
    watchRounds n

/-- Watches the counters. A round takes pending values away as long as there are
    any, so one round more than there are values settles whether it ends. -/
def watch : BoardM Unit := do
  probe
  watchRounds ((← get).pending.length + 1)

end BpfLanes.Board
