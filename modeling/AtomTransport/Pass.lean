import AtomTransport.CompileError

/-!
# Passes

A pass changes a movement program or finds facts about it. Facts are kept in typed slots beside the
target device, so that later passes can read what earlier ones have found. A pipeline runs its passes
in order and stops at the first failure; what was done before the failure stays.
-/

namespace AtomTransport

structure Facts (κ : Type) (τ : κ → Type) where
  graph : Option LaneGraph := none
  maxVisits : Nat := Analysis.defaultVisits
  slot : (k : κ) → Option (τ k) := fun _ => none

namespace Facts

variable {κ : Type} {τ : κ → Type} [DecidableEq κ] (f : Facts κ τ)

def insert (k : κ) (v : τ k) : Facts κ τ :=
  { f with slot := fun k' => if h : k' = k then some (h ▸ v) else f.slot k' }

def erase (k : κ) : Facts κ τ :=
  { f with slot := fun k' => if k' = k then none else f.slot k' }

/-- What a slot holds, and the facts without it. -/
def take (k : κ) : Option (τ k) × Facts κ τ :=
  (f.slot k, f.erase k)

omit [DecidableEq κ] in
def requireGraph : Except CompileError LaneGraph :=
  match f.graph with
  | some g => .ok g
  | none => .error .missingDevice

end Facts

inductive Fact where
  | dropped
  | checked
  | analysis
  deriving DecidableEq

structure CheckedAddresses where
  statements : Nat
  addresses : Nat
  deriving DecidableEq

def Fact.Carrier : Fact → Type
  | dropped => Nat
  | checked => CheckedAddresses
  | analysis => Analysis

abbrev ProgramFacts := Facts Fact Fact.Carrier

inductive PassKind where
  | analysis
  | transformation
  deriving DecidableEq

def PassKind.text : PassKind → String
  | analysis => "Analysis"
  | transformation => "Transformation"

structure Pass where
  name : String
  kind : PassKind
  applies : Program → Bool
  run : Program → ProgramFacts → Except CompileError (Program × ProgramFacts)

namespace Op

def isEmptyMove : Op → Bool
  | move _ lanes => lanes.isEmpty
  | _ => false

end Op

namespace Program

variable (p : Program)

def withoutEmptyMoves : Program :=
  { p with blocks := p.blocks.map fun b =>
      { b with statements := b.statements.filter fun s => !s.op.isEmptyMove } }

/-- For the result of every empty move the state that it passes on. -/
def emptyMoves : List (Var × Var) :=
  Ascending.ofPairs (p.statements.filterMap fun (_, s) =>
    match s.op with
    | .move state [] => some (s.result, state)
    | _ => none)

def follow (forward : List (Var × Var)) : Nat → Var → Var
  | 0, v => v
  | fuel + 1, v =>
    match Ascending.get? v forward with
    | some next => follow forward fuel next
    | none => v

/-- Deletes the empty moves and lets every use of their results read the first real state before
them. -/
def dropEmptyMoves : Program :=
  let forward := p.emptyMoves
  forward.foldl (fun q (old, _) => q.replaceUses old (follow forward (forward.length + 1) old))
    p.withoutEmptyMoves

def incompatiblePairs (d : Device) : List Lane → List AddressError
  | [] => []
  | lane :: rest =>
    (rest.filter fun other => !d.compatible lane other).map (.incompatibleLanes lane)
      ++ incompatiblePairs d rest

def faultOf (r : Except AddressError Unit) : Option AddressError :=
  match r with
  | .error e => some e
  | .ok () => none

def addressFaults (d : Device) (op : Op) : List AddressError :=
  op.locations.filterMap (fun l => faultOf (d.checkLocation l))
    ++ op.zones.filterMap (fun z => faultOf (d.checkZone z))
    ++ op.lanes.filterMap (fun l => faultOf (d.checkLane l))
    ++ incompatiblePairs d op.lanes

def diagnostics (d : Device) : List Diagnostic :=
  p.statements.flatMap fun (point, s) =>
    (addressFaults d s.op).map fun e => ⟨point, s.op.name, e⟩

def addressCounts : CheckedAddresses :=
  ⟨p.numStatements, (p.statements.map fun (_, s) =>
    s.op.locations.length + s.op.zones.length + s.op.lanes.length).foldl (· + ·) 0⟩

end Program

namespace Pass

/-- Deletes moves without lanes. -/
def dropEmptyMoves : Pass where
  name := "drop_empty_moves"
  kind := .transformation
  applies p := p.statements.any fun (_, s) => s.op.isEmptyMove
  run p facts := .ok (p.dropEmptyMoves, facts.insert .dropped p.emptyMoves.length)

def addressValidation : Pass where
  name := "address_validation"
  kind := .analysis
  applies _ := true
  run p facts := do
    let g ← facts.requireGraph
    match p.diagnostics g.device with
    | [] => .ok (p, facts.insert .checked p.addressCounts)
    | faults => .error (.validation faults)

def atomAnalysis : Pass where
  name := "atom_state_analysis"
  kind := .analysis
  applies _ := true
  run p facts := do
    let g ← facts.requireGraph
    let a ← (Analysis.run g p facts.maxVisits).mapError .analysis
    .ok (p, facts.insert .analysis a)

def standard (validate : Bool) : List Pass :=
  if validate then [dropEmptyMoves, addressValidation, atomAnalysis]
  else [dropEmptyMoves, atomAnalysis]

def runAll : List Pass → Program → ProgramFacts → Option CompileError × Program × ProgramFacts
  | [], p, facts => (none, p, facts)
  | pass :: rest, p, facts =>
    if pass.applies p then
      match pass.run p facts with
      | .ok (p, facts) => runAll rest p facts
      | .error e => (some e, p, facts)
    else runAll rest p facts

end Pass

end AtomTransport
