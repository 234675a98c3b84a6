import AtomTransport.Device
import AtomTransport.Path

/-!
# The lane graph

Locations are joined by lanes: every bus pair gives one forward and one backward edge wherever both
of its ends exist. A search by levels finds all paths with the fewest lanes, in an order that
depends only on the order of the edges, and a heuristic picks one of them.
-/

namespace AtomTransport

namespace Device

variable (d : Device)

def hasLocation (l : Location) : Bool :=
  match d.word? l.word with
  | some w => w.hasSite l.site
  | none => false

def laneEdges (lane : Lane) (src dst : Location) : List Segment :=
  if d.hasLocation src && d.hasLocation dst then [⟨lane, src, dst⟩, ⟨lane.reverse, dst, src⟩]
  else []

def siteEdges : List Segment :=
  d.blueprint.siteBusWords.flatMap fun word =>
    (d.buses .site).zipIdx.flatMap fun (bus, i) =>
      bus.pairs.flatMap fun (s, t) =>
        d.laneEdges ⟨.site, word, s, i, .forward⟩ ⟨word, s⟩ ⟨word, t⟩

def wordEdges : List Segment :=
  (d.buses .word).zipIdx.flatMap fun (bus, i) =>
    bus.pairs.flatMap fun (s, t) =>
      d.blueprint.wordBusSites.flatMap fun site =>
        d.laneEdges ⟨.word, s, site, i, .forward⟩ ⟨s, site⟩ ⟨t, site⟩

def edges : List Segment := d.siteEdges ++ d.wordEdges

end Device

structure LaneGraph where
  device : Device
  edges : List Segment
  edges_eq : edges = device.edges

/-- What a search knows: how far away each location is that it has met, and which edges enter that location
from the level before. -/
structure Search where
  depths : List (Location × Nat)
  incoming : List (Location × List Segment) := []

namespace LaneGraph

def ofDevice (d : Device) : LaneGraph := ⟨d, d.edges, rfl⟩

variable (g : LaneGraph)

/-- Where a lane starts and ends. If several edges carry the lane, the last one counts. -/
def endpoints? (lane : Lane) : Option (Location × Location) :=
  (g.edges.reverse.find? (·.lane = lane)).map fun e => (e.src, e.dst)

def leaving (l : Location) : List Segment := g.edges.filter (·.src = l)

/-- Follows an edge from one level of a search to the next one, which `step` has met so far. -/
def follow (blocked : Location → Bool) (level : Nat) (step : Search × List Location) (e : Segment) :
    Search × List Location :=
  let (s, next) := step
  let incoming := Ascending.put e.dst ((Ascending.get? e.dst s.incoming).getD [] ++ [e]) s.incoming
  if blocked e.dst then step
  else
    match Ascending.get? e.dst s.depths with
    | none => (⟨Ascending.put e.dst level s.depths, incoming⟩, next ++ [e.dst])
    | some depth => if depth = level then ({ s with incoming }, next) else step

def explore (blocked : Location → Bool) (target : Location) :
    Nat → Nat → Search → List Location → Search
  | 0, _, s, _ => s
  | fuel + 1, level, s, frontier =>
    if frontier.isEmpty || (Ascending.get? target s.depths).isSome then s
    else
      let (s, next) :=
        frontier.foldl (fun step l => (g.leaving l).foldl (follow blocked (level + 1)) step) (s, [])
      explore blocked target fuel (level + 1) s next

/-- All ways back from a location to the start. The edges into a location come from the level before it, so
no way back has more edges than the location is deep. -/
def enumerate (incoming : List (Location × List Segment)) (start : Location) :
    Nat → Location → List (List Segment)
  | 0, l => if l = start then [[]] else []
  | depth + 1, l =>
    if l = start then [[]]
    else
      ((Ascending.get? l incoming).getD []).flatMap fun e =>
        (enumerate incoming start depth e.src).map (· ++ [e])

/-- Every path with the fewest lanes that enters no blocked location. The start and the end have to
be free too. Each level of the search has a location of its own, so the number of locations bounds
the number of levels. -/
def shortestPaths (start finish : Location) (blocked : Location → Bool) : List Path :=
  if blocked start || blocked finish || !g.device.hasLocation start || !g.device.hasLocation finish
  then []
  else
    let s := g.explore blocked finish g.device.locations.length 0 ⟨[(start, 0)], []⟩ [start]
    match Ascending.get? finish s.depths with
    | none => []
    | some depth => (enumerate s.incoming start depth finish).map (⟨start, ·⟩)

def best? (score : Path → Binary64) : List Path → Option Path
  | [] => none
  | p :: rest => some (rest.foldl (fun b q => if (score q).lt (score b) then q else b) p)

def findPath? (h : Heuristic) (accepted : List (List Lane)) (start finish : Location)
    (blocked : Location → Bool) : Option Path :=
  best? (fun p => h.score accepted p.locations p.lanes) (g.shortestPaths start finish blocked)

end LaneGraph

end AtomTransport
