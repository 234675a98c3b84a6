import AtomTransport.Placement

/-!
# Move layers

A change of placement becomes an ordered list of layers, each a set of lanes that run in one step.
Every moving atom gets a route. First the atoms that stay in their word move, then the others align,
cross and settle; in each of these phases the first hops of all atoms come before the second ones.
The lanes of a stage are grouped by signature, and a group is split into layers of pairwise
compatible lanes. The layers are replayed on the first placement before they are returned.
-/

namespace AtomTransport

structure MoveLayer where
  lanes : List Lane
  deriving DecidableEq

namespace MoveLayer

def length (l : MoveLayer) : Nat := l.lanes.length

def isEmpty (l : MoveLayer) : Bool := l.lanes.isEmpty

def signature? (l : MoveLayer) : Option Signature := l.lanes.head?.map (·.signature)

/-- Adds a lane to the first layer in which it is compatible with all others, or to a new one. -/
def insert (d : Device) (lane : Lane) : List MoveLayer → List MoveLayer
  | [] => [⟨[lane]⟩]
  | layer :: rest =>
    if layer.lanes.all (d.compatible lane) then ⟨layer.lanes ++ [lane]⟩ :: rest
    else layer :: insert d lane rest

def split (d : Device) (lanes : List Lane) : List MoveLayer :=
  lanes.foldl (fun layers lane => insert d lane layers) []

def ofStage (d : Device) (stage : List Segment) : Except CompileError (List MoveLayer) := do
  let lanes := stage.map (·.lane)
  lanes.forM fun lane => (d.checkLane lane).mapError (.invalidLane lane)
  let signatures := Ascending.ofList (lanes.map (·.signature))
  .ok (signatures.flatMap fun s => split d (lanes.filter (·.signature = s)))

/-- The `i`-th stage holds the `i`-th hop of every atom that has one. -/
def stages (hops : List (List Segment)) : List (List Segment) :=
  let count := hops.foldl (fun n h => max n h.length) 0
  (List.range count).map fun i => hops.filterMap (·[i]?)

def ofStages (d : Device) (stages : List (List Segment)) : Except CompileError (List MoveLayer) := do
  let layers ← stages.mapM (ofStage d)
  .ok layers.flatten

def checkWordPairs : Option (Nat × Nat) → List Route → Except CompileError Unit
  | _, [] => .ok ()
  | taken, r :: rest =>
    match r.wordPair?, taken with
    | none, _ => checkWordPairs taken rest
    | some pair, none => checkWordPairs (some pair) rest
    | some pair, some first =>
      if pair = first then checkWordPairs taken rest else .error (.multipleWordPairs first pair)

/-- The stages of all routes: atoms that stay in their word, then alignment, crossing and
settlement of the others. -/
def phases (routes : List Route) : List (List Segment) :=
  let inside := routes.filter (·.cross.isNone)
  let crossing := routes.filter (·.cross.isSome)
  stages (inside.map (·.align)) ++ stages (crossing.map (·.align))
    ++ [crossing.filterMap (·.cross)] ++ stages (crossing.map (·.settle))

abbrev Positions := List (Location × Qubit)

def lift (d : Device) (index : Nat) :
    Positions → List Lane → Except CompileError (List (Qubit × Location) × Positions)
  | positions, [] => .ok ([], positions)
  | positions, lane :: rest => do
    let (src, dst) ← (d.endpoints lane).mapError (.invalidLane lane)
    match Ascending.get? src positions with
    | none => .error (.laneConflict index src)
    | some q =>
      let (hops, left) ← lift d index (positions.filter (·.1 ≠ src)) rest
      .ok ((q, dst) :: hops, left)

def drop (occupied : List Location) (index : Nat) :
    Positions → List (Qubit × Location) → Except CompileError Positions
  | positions, [] => .ok positions
  | positions, (q, dst) :: rest =>
    if occupied.contains dst || (Ascending.get? dst positions).isSome then
      .error (.laneConflict index dst)
    else drop occupied index (Ascending.put dst q positions) rest

def replayFrom (d : Device) (occupied : List Location) :
    Nat → Positions → List MoveLayer → Except CompileError Positions
  | _, positions, [] => .ok positions
  | index, positions, layer :: rest => do
    let (hops, left) ← lift d index positions layer.lanes
    replayFrom d occupied (index + 1) (← drop occupied index left hops) rest

def checkReached (positions : Positions) : List (Qubit × Location) → Except CompileError Unit
  | [] => .ok ()
  | (q, expected) :: rest =>
    match positions.find? (·.2 = q) with
    | some (actual, _) =>
      if actual = expected then checkReached positions rest
      else .error (.routeMismatch q expected actual)
    | none => checkReached positions rest

def replay (d : Device) (before after : Placement) (layers : List MoveLayer) :
    Except CompileError Unit := do
  let start := Ascending.ofPairs (before.qubits.map fun (q, l) => (l, q))
  checkReached (← replayFrom d before.occupied 0 start layers) after.qubits

structure Mover where
  qubit : Qubit
  src : Location
  dst : Location
  deriving DecidableEq

def movers (d : Device) (before after : Placement) : Except CompileError (List Mover) := do
  let changed := (before.qubits.zip after.layout).filter fun ((_, src), dst) => src ≠ dst
  changed.mapM fun ((q, src), dst) => do
    (d.checkLocation src).mapError .address
    (d.checkLocation dst).mapError .address
    .ok ⟨q, src, dst⟩

/-- A suggested path applies to an atom if it leads from its old to its new location. -/
def hint? (hints : List (Qubit × Path)) (m : Mover) : Option Path :=
  (Ascending.get? m.qubit hints).filter fun p => p.start = m.src && p.finish = m.dst

def followHint (hints : List (Qubit × Path)) (router : Router) (m : Mover) :
    Except CompileError Router :=
  match (hint? hints m).bind Route.ofPath? with
  | some route => .ok (router.commit m.qubit route)
  | none => .error (.unsupportedMove m.src m.dst)

def routeFreely (router : Router) (m : Mover) : Except CompileError Router :=
  match router.route? m.src m.dst with
  | some route => .ok (router.commit m.qubit route)
  | none => .error (.unsupportedMove m.src m.dst)

/-- Routes for all movers: those with a suggested path first, then the others around them. -/
def planRoutes (g : LaneGraph) (h : Heuristic) (hints : List (Qubit × Path)) (before : Placement)
    (movers : List Mover) : Except CompileError (List Route) := do
  let router : Router := ⟨g, h, before.blocked, movers.map (·.dst), [], []⟩
  let (hinted, free) := movers.partition fun m => (hint? hints m).isSome
  let router ← hinted.foldlM (followHint hints) router
  let router ← free.foldlM routeFreely router
  .ok (router.routes.map (·.2))

def along (g : LaneGraph) (h : Heuristic) (hints : List (Qubit × Path)) (before after : Placement) :
    Except CompileError (List MoveLayer) :=
  if before.size ≠ after.size then
    .error (.invalidProgram (.layoutSizes before.size after.size))
  else do
    let movers ← movers g.device before after
    let routes ← planRoutes g h hints before movers
    checkWordPairs none routes
    let layers ← ofStages g.device (phases routes)
    replay g.device before after layers
    .ok layers

def between (g : LaneGraph) (before after : Placement) : Except CompileError (List MoveLayer) :=
  along g .busReuse [] before after

end MoveLayer

end AtomTransport
