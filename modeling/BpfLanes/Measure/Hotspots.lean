import BpfLanes.Measure.Bench
import BpfLanes.Measure.Profile

/-! # Where benches spend their time

For every bench the share of its time that the repository's own code takes, and
the two origins outside it that take most.
-/

namespace BpfLanes

/-- A bench's time: the repository's share in percent, and the greatest shares
    elsewhere with their origins. -/
structure Hotspots where
  share : Binary64
  hottest : List (Binary64 × String)
  deriving DecidableEq, Repr, Inhabited

namespace Hotspots

/-- The least total that shares are taken of, a thousand-millionth. -/
def leastTotal : Binary64 :=
  .ofDecimal false 1 (-9)

def percent (total t : Binary64) : Binary64 :=
  (((Binary64.ofInt 100).mul t).div total).roundTo 1

/-- Whether one entry comes before another: more time first, then the later
    label. -/
def before (a b : String × Binary64) : Bool :=
  b.2.lt a.2 || (a.2.same b.2 && !(a.1 < b.1))

def ofProfile (p : Profile) : Hotspots :=
  let total := if p.total.isZero then leastTotal else p.total
  let ranked := (p.elsewhere.filter (!·.2.isZero)).mergeSort before
  { share := percent total (p.timeIn Frame.isOwn)
    hottest := (ranked.take 2).map fun e => (percent total e.2, e.1) }

def failed (cause : Interrupt) : Hotspots :=
  { share := .ofInt (-1), hottest := [(.zero false, cause.mark)] }

/-- The hotspots of benches in order; each bench that ends well takes the next
    profile. -/
def measure : List Profile → List Bench → List (String × Hotspots)
  | _, [] => []
  | profiles, b :: bs =>
    match b.call 0 [] with
    | .error cause => (b.name, failed cause) :: measure profiles bs
    | .ok _ => (b.name, ofProfile (profiles.headD .empty)) :: measure profiles.tail bs

end Hotspots
end BpfLanes
