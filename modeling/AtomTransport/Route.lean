import AtomTransport.CompileError

/-!
# Routes and the router

A route is a path with at most one word lane: site lanes that align the atom, the word lane that
crosses to another word, and site lanes that settle it there. The router plans the routes of one
transition: every accepted route claims the locations that it visits, so that later routes avoid
them.
-/

namespace AtomTransport

structure Route where
  start : Location
  align : List Segment := []
  cross : Option Segment := none
  settle : List Segment := []
  deriving DecidableEq

namespace Route

def stay (l : Location) : Route := { start := l }

/-- Appends a segment. A second word lane does not fit. -/
def extend (r : Route) (s : Segment) : Option Route :=
  match s.lane.kind, r.cross with
  | .word, some _ => none
  | .word, none => some { r with cross := some s }
  | .site, some _ => some { r with settle := r.settle ++ [s] }
  | .site, none => some { r with align := r.align ++ [s] }

def ofPath? (p : Path) : Option Route := p.segments.foldlM extend (stay p.start)

variable (r : Route)

def segments : List Segment := r.align ++ r.cross.toList ++ r.settle

def toPath : Path := ⟨r.start, r.segments⟩

def lanes : List Lane := r.segments.map (·.lane)

def length : Nat := r.segments.length

def isEmpty : Bool := r.segments.isEmpty

def finish : Location := r.toPath.finish

def visited : List Location := r.segments.map (·.dst)

def wordPair? : Option (Nat × Nat) := r.cross.map fun s => (s.src.word, s.dst.word)

def signatures : List Signature := r.lanes.map (·.signature)

def plan (g : LaneGraph) (h : Heuristic) (src dst : Location) (blocked : Location → Bool) :
    Except CompileError Route := do
  (g.device.checkLocation src).mapError .address
  (g.device.checkLocation dst).mapError .address
  match (g.findPath? h [] src dst blocked).bind ofPath? with
  | some r => .ok r
  | none => .error (.unsupportedMove src dst)

end Route

/-- The plan of one transition. Claimed locations are never entered. Pending ones are the ends of
routes that are not planned yet; only the route that ends there may enter. -/
structure Router where
  graph : LaneGraph
  heuristic : Heuristic
  claimed : List Location
  pending : List Location := []
  accepted : List (List Lane) := []
  routes : List (Qubit × Route) := []

namespace Router

variable (r : Router)

def reserve (locations : List Location) : Router := { r with pending := r.pending ++ locations }

def isClaimed (l : Location) : Bool := r.claimed.contains l

/-- The locations that a route from `src` to `dst` may not enter. Its own start is free, and its end
is free unless it is claimed. -/
def blocks (src dst l : Location) : Bool :=
  (r.claimed.contains l || r.pending.contains l) && l ≠ src && (l ≠ dst || r.claimed.contains dst)

def route? (src dst : Location) : Option Route :=
  if src = dst then some (Route.stay src)
  else (r.graph.findPath? r.heuristic r.accepted src dst (r.blocks src dst)).bind Route.ofPath?

def commit (q : Qubit) (route : Route) : Router :=
  { r with
    claimed := r.claimed ++ route.visited
    pending := r.pending.filter (· ≠ route.finish)
    accepted := r.accepted ++ [route.lanes]
    routes := Ascending.put q route r.routes }

def paths : List (Qubit × Path) :=
  (r.routes.filter fun (_, route) => !route.isEmpty).map fun (q, route) => (q, route.toPath)

end Router

end AtomTransport
