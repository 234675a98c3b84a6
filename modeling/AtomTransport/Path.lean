import AtomTransport.Address
import AtomTransport.Binary64

/-!
# Paths

A path is a starting location and the lane traversals that follow it. A heuristic scores a path by
its locations and lanes and by the lanes of the paths that were accepted before it.
-/

namespace AtomTransport

structure Segment where
  lane : Lane
  src : Location
  dst : Location
  deriving DecidableEq

structure Path where
  start : Location
  segments : List Segment
  deriving DecidableEq

namespace Path

def stay (l : Location) : Path := ⟨l, []⟩

def finish (p : Path) : Location :=
  match p.segments.getLast? with
  | some s => s.dst
  | none => p.start

def length (p : Path) : Nat := p.segments.length

def isEmpty (p : Path) : Bool := p.segments.isEmpty

def lanes (p : Path) : List Lane := p.segments.map (·.lane)

def locations (p : Path) : List Location := p.start :: p.segments.map (·.dst)

end Path

/-- A preference among shortest paths; the lowest score wins. The first argument holds the lanes of
every path accepted so far, in the order of acceptance. -/
structure Heuristic where
  score : List (List Lane) → List Location → List Lane → Binary64

namespace Heuristic

def zero : Heuristic := ⟨fun _ _ _ => Binary64.zero⟩

/-- The number of lanes whose signature no accepted path has used. Lanes of one signature can share
a step, so fewer new signatures tend to need fewer steps. -/
def busReuse : Heuristic where
  score accepted _ lanes :=
    let used := accepted.flatten.map (·.signature)
    Binary64.ofNat (lanes.filter fun l => !used.contains l.signature).length

/-- Weighs lanes by their bus and locations by themselves; a bus without a weight counts nothing. -/
def weighted (busWeights : List Int) (siteWeights : List (Location × Int)) : Heuristic where
  score _ locations lanes :=
    let buses := lanes.map fun l => busWeights.getD l.bus 0
    let sites := (siteWeights.filter fun w => locations.contains w.1).map (·.2)
    Binary64.ofInt (buses.foldl (· + ·) 0 + sites.foldl (· + ·) 0)

end Heuristic

/-- Wherever every gate layer may have a heuristic of its own, one may serve them all. -/
instance coeHeuristicLayers : Coe Heuristic (Nat → Heuristic) := ⟨fun h _ => h⟩

end AtomTransport
