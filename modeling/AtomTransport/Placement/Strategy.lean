import AtomTransport.Placement

/-!
# Placement strategies

Before a layer of CZ gates the two atoms of each pair have to sit on interacting sites. Pair by pair,
either of the two qubits may move next to the other; a strategy ranks these candidates, and the best
one is accepted before the next pair is considered. All atoms that change their word in one layer
cross between the same two words.
-/

namespace AtomTransport

/-- One way to bring a pair together. `order` is 0 if the control moves and 1 if the target moves. -/
structure Candidate where
  mover : Qubit
  route : Route
  moves : Nat
  wordLoad : Nat
  conflicts : Nat
  order : Nat
  deriving DecidableEq

inductive Strategy where
  /-- The qubit that has moved least moves. -/
  | logical
  /-- The move that shares most signatures with the layer is made. -/
  | conflictAware
  deriving DecidableEq

namespace Strategy

def name : Strategy → String
  | logical => "logical"
  | conflictAware => "conflict_aware"

def all : List Strategy := [logical, conflictAware]

def rank : Strategy → Candidate → List Nat
  | logical, c => [c.moves, c.wordLoad, c.conflicts, c.order]
  | conflictAware, c => [c.conflicts, c.moves, c.wordLoad, c.order]

def best? (s : Strategy) : List Candidate → Option Candidate
  | [] => none
  | c :: rest => some (rest.foldl (fun b c => if s.rank c < s.rank b then c else b) c)

end Strategy

structure LayerPlan where
  router : Router
  placement : Placement
  wordPair : Option (Nat × Nat) := none
  signatures : List (List Signature) := []

namespace LayerPlan

variable (plan : LayerPlan)

def candidate? (mover partner : Qubit) (order : Nat) : Option Candidate := do
  let src ← plan.placement.locationOf? mover
  let other ← plan.placement.locationOf? partner
  let dst ← plan.router.graph.device.blockaded? other
  if plan.router.isClaimed dst then none
  else
    let route ← plan.router.route? src dst
    let crossing := match route.wordPair?, plan.wordPair with
      | some pair, some taken => pair = taken
      | _, _ => true
    if !crossing then none
    else
      some {
        mover := mover
        route := route
        moves := (plan.placement.movesOf mover).toNat
        wordLoad := ((plan.placement.qubits.filter fun (q, l) =>
          q ≠ mover && l.word = dst.word).map fun e => (plan.placement.movesOf e.1).toNat).foldl (· + ·) 0
        conflicts := (plan.signatures.filter (· ≠ route.signatures)).length
        order := order }

def accept (c : Candidate) : LayerPlan :=
  { router := plan.router.commit c.mover c.route
    placement := plan.placement.relocate c.mover c.route.finish c.route.length
    wordPair := plan.wordPair.or c.route.wordPair?
    signatures := plan.signatures ++ [c.route.signatures] }

def together (control target : Qubit) : Bool :=
  match plan.placement.locationOf? control, plan.placement.locationOf? target with
  | some lc, some lt => plan.router.graph.device.blockaded? lc = some lt
  | _, _ => false

def placePair (s : Strategy) (pair : Qubit × Qubit) : Except CompileError LayerPlan :=
  let (control, target) := pair
  if plan.together control target then .ok plan
  else
    match s.best? ([plan.candidate? control target 0, plan.candidate? target control 1].filterMap
      fun c => c) with
    | some c => .ok (plan.accept c)
    | none => .error (.noPlacement control target)

end LayerPlan

namespace Placement

def admitsCz (p : Placement) (controls targets : List Qubit) : Bool :=
  controls.length = targets.length
    && (controls ++ targets).all (· < p.size)
    && (controls ++ targets).eraseDups.length = (controls ++ targets).length

/-- Places every pair of a layer of CZ gates. A layer that is not admitted gives up all knowledge of
the placement. The router keeps the accepted routes. -/
def placeCz (s : Strategy) (router : Router) (p : Placement) (controls targets : List Qubit) :
    Except CompileError (PlacementInfo × Router) :=
  if p.admitsCz controls targets then do
    let plan ← (controls.zip targets).foldlM (fun plan pair => plan.placePair s pair)
      ({ router := router, placement := p } : LayerPlan)
    .ok (.known plan.placement, plan.router)
  else .ok (.anything, router)

/-- The placement for one gate layer, with the paths of the atoms that move. Only CZ gates move
atoms. -/
def transfer (g : LaneGraph) (h : Heuristic) (s : Strategy) (p : Placement) (layer : GateLayer) :
    Except CompileError (PlacementInfo × List (Qubit × Path)) :=
  match layer with
  | .cz controls targets => do
    let (after, router) ← placeCz s ⟨g, h, p.blocked, [], [], []⟩ p controls targets
    .ok (after, router.paths)
  | _ => .ok (.known p, [])

def placeLayers (g : LaneGraph) (h : Nat → Heuristic) (s : Strategy) :
    Nat → PlacementInfo → List GateLayer → Except CompileError (List LayerPlacement)
  | _, _, [] => .ok []
  | index, before, layer :: rest => do
    let (after, paths) ← match before with
      | .known p => transfer g (h index) s p layer
      | other => .ok (other, [])
    let placements ← placeLayers g h s (index + 1) after rest
    .ok (⟨index, before, after, paths⟩ :: placements)

end Placement

def GateProgram.place (g : LaneGraph) (h : Nat → Heuristic) (s : Strategy) (initial : InitialLayout)
    (p : GateProgram) : Except CompileError (List LayerPlacement) := do
  let start ← initial.place g.device p.numQubits
  Placement.placeLayers g h s 0 (.known start) p.layers

end AtomTransport
