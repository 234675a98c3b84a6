import AtomTransport.MoveLayer
import AtomTransport.Program.Draft

/-!
# Lowering

Placed gates become one block of statements: the atoms are loaded and put on their first sites, and
every gate layer contributes its moves and then its gate. The program returns the results of the last
measurement, or the last atom state if nothing is measured.
-/

namespace AtomTransport

/-- The draft so far and what the following gates need to know. The draft stays a straight line. -/
structure Lowering where
  draft : Draft := {}
  straight : ∃ ops, draft = .straight ops := by exact ⟨[], rfl⟩
  layout : List Location
  /-- The result list of every zone of the last measurement, and the layout at that time. -/
  results : List (Zone × Var) := []
  measuredLayout : List Location := []
  observables : Nat := 0

namespace Lowering

def start (layout : List Location) : Lowering where
  layout := layout

variable (s : Lowering)

theorem straight_push (op : Op) : ∃ ops, (s.draft.push op).2 = .straight ops := by
  obtain ⟨ops, hdraft⟩ := s.straight
  exact ⟨ops ++ [op], by rw [hdraft, Draft.push_straight]⟩

def emit (op : Op) : Var × Lowering :=
  ((s.draft.push op).1, { s with draft := (s.draft.push op).2, straight := s.straight_push op })

def location (q : Qubit) : Except CompileError Location :=
  match s.layout[q]? with
  | some l => .ok l
  | none => .error (.invalidProgram (.noSite q))

def zoneOf (d : Device) (l : Location) : Except CompileError Zone :=
  match d.zoneOf? l with
  | some z => .ok z
  | none => .error (.invalidProgram (.noZone l))

def zones (d : Device) (qubits : List Qubit) : Except CompileError (List Zone) := do
  let zones ← qubits.mapM fun q => do zoneOf d (← s.location q)
  .ok (Ascending.ofList zones)

def emitCz : Lowering → Var → List Zone → Var × Lowering
  | s, state, [] => (state, s)
  | s, state, z :: rest =>
    let (state, s) := s.emit (.cz state z)
    emitCz s state rest

def emitResults : Lowering → Var → List Zone → List (Zone × Var) × Lowering
  | s, _, [] => ([], s)
  | s, future, z :: rest =>
    let (v, s) := s.emit (.getFutureResult future z)
    let (results, s) := emitResults s future rest
    ((z, v) :: results, s)

def emitItem (d : Device) (q : Qubit) : Except CompileError (Var × Lowering) :=
  match s.measuredLayout[q]? with
  | none => .error (.invalidProgram (.notMeasured q))
  | some l => do
    let zone ← zoneOf d l
    match Ascending.get? zone s.results with
    | none => .error (.invalidProgram (.zoneNotMeasured zone))
    | some results =>
      let (index, s) := s.emit (.getZoneIndex zone l)
      .ok (s.emit (.getItem results index))

def emitItems (d : Device) : Lowering → List Qubit → Except CompileError (List Var × Lowering)
  | s, [] => .ok ([], s)
  | s, q :: rest => do
    let (v, s) ← s.emitItem d q
    let (vs, s) ← emitItems d s rest
    .ok (v :: vs, s)

def emitMeasurements (d : Device) (qubits : List Qubit) : Except CompileError (Var × Lowering) := do
  let (items, s) ← emitItems d s qubits
  .ok (s.emit (.newList items))

/-- The statements of a gate. It takes the number of the current atom state and returns the next. -/
def gate (d : Device) (state : Var) : GateLayer → Except CompileError (Var × Lowering)
  | .cz controls _ => do
    let zones ← s.zones d controls
    .ok (s.emitCz state zones)
  | .localR qubits axis rotation => do
    let locations ← qubits.mapM s.location
    .ok (s.emit (.localR state axis rotation locations))
  | .globalR axis rotation => .ok (s.emit (.globalR state axis rotation))
  | .localRz qubits rotation => do
    let locations ← qubits.mapM s.location
    .ok (s.emit (.localRz state rotation locations))
  | .globalRz rotation => .ok (s.emit (.globalRz state rotation))
  | .measure => do
    let zones ← s.zones d (List.range s.layout.length)
    let (future, s) := s.emit (.endMeasure state zones)
    let (results, s) := s.emitResults future zones
    .ok (future, { s with results := results, measuredLayout := s.layout })
  | .detector qubits coordinates => do
    let (list, s) ← s.emitMeasurements d qubits
    .ok (state, (s.emit (.setDetector list coordinates)).2)
  | .observable qubits => do
    let (list, s) ← s.emitMeasurements d qubits
    let s := (s.emit (.setObservable list s.observables)).2
    .ok (state, { s with observables := s.observables + 1 })

def emitMoves : Lowering → Var → List MoveLayer → Var × Lowering
  | s, state, [] => (state, s)
  | s, state, layer :: rest =>
    if layer.isEmpty then emitMoves s state rest
    else
      let (state, s) := s.emit (.move state layer.lanes)
      emitMoves s state rest

def layers (d : Device) : Lowering → Var → List (GateLayer × LayerPlacement × List MoveLayer) →
    Except CompileError (Var × Lowering)
  | s, state, [] => .ok (state, s)
  | s, state, (gate, placement, moves) :: rest => do
    let (state, s) := s.emitMoves state moves
    match placement.after.known? with
    | none => .error (.imprecisePlacement placement.index)
    | some after =>
      let (state, s) ← ({ s with layout := after.layout } : Lowering).gate d state gate
      layers d s state rest

/-- The value that the program returns: the results of the last measurement as one list or as a list
of lists, or the last state. -/
def result (state : Var) : Var × Lowering :=
  match s.results with
  | [] => (state, s)
  | [(_, v)] => (v, s)
  | results => s.emit (.newList (results.map (·.2)))

end Lowering

def GateProgram.lower (d : Device) (p : GateProgram) (initial : Placement)
    (placements : List LayerPlacement) (moves : List (List MoveLayer)) :
    Except CompileError Program :=
  if placements.length ≠ p.layers.length ∨ moves.length ≠ p.layers.length then
    .error (.invalidProgram (.layerCounts p.layers.length placements.length moves.length))
  else do
    let (loaded, s) := (Lowering.start initial.layout).emit .load
    let (state, s) := s.emit (.fill loaded initial.layout)
    let (state, s) ← Lowering.layers d s state (p.layers.zip (placements.zip moves))
    let (value, s) := s.result state
    (s.draft.terminate (.ret value) >>= Draft.finish).mapError .program

end AtomTransport
