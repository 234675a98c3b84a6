import AtomTransport.Ascending
import AtomTransport.LaneGraph
import AtomTransport.Program

/-!
# Maps of the atoms on a device

Four maps record the atoms of a device: the qubit at each occupied location, the location of each qubit, the
last lane of each qubit that has moved, and how often each qubit has moved, counted in 32 bits. A filling
binds new locations and qubits one after another. A move first lifts all its atoms and then drops them one
after another. No operation changes the maps in place; each returns new ones or the reason why it is
impossible.
-/

namespace AtomTransport

structure Atom where
  qubit : Qubit
  location : Location
  moves : UInt32 := 0
  lastLane : Option Lane := none
  deriving DecidableEq

structure AtomMaps where
  qubits : List (Location × Qubit) := []
  locations : List (Qubit × Location) := []
  lastLanes : List (Qubit × Lane) := []
  counts : List (Qubit × UInt32) := []
  deriving DecidableEq

inductive AtomError where
  | address (cause : AddressError)
  | occupiedSite (location : Location)
  | duplicateQubit (qubit : Qubit)
  | emptySource (lane : Lane) (location : Location)
  | occupiedDestination (lane : Lane) (location : Location)
  | inconsistent
  deriving DecidableEq

def AtomError.message : AtomError → String
  | address cause => "Invalid address: " ++ cause.message
  | occupiedSite l => "Site " ++ l.text ++ " is already occupied"
  | duplicateQubit q => "Qubit " ++ q.text ++ " appears more than once"
  | emptySource lane l => "Lane " ++ lane.text ++ " starts at empty site " ++ l.text
  | occupiedDestination lane l => "Lane " ++ lane.text ++ " ends at occupied site " ++ l.text
  | inconsistent => "Site/qubit maps are inconsistent"

structure Hop where
  lane : Lane
  qubit : Qubit
  src : Location
  dst : Location
  deriving DecidableEq

/-- The atoms of a zone, split by their interaction: `controls[i]` sits on the lower and
`targets[i]` on the higher site of one pair. -/
structure Pairing where
  controls : List Qubit := []
  targets : List Qubit := []
  unpaired : List Qubit := []
  deriving DecidableEq

def Device.conflict? (d : Device) : List Lane → Option (Lane × Lane)
  | [] => none
  | lane :: rest =>
    match rest.find? fun other => !d.compatible lane other with
    | some other => some (lane, other)
    | none => d.conflict? rest

namespace AtomMaps

open Ascending (get? put erase)

variable (m : AtomMaps)

def size : Nat := m.locations.length

def isEmpty : Bool := m.locations.isEmpty

def qubitAt? (l : Location) : Option Qubit := get? l m.qubits

def locationOf? (q : Qubit) : Option Location := get? q m.locations

def moves (q : Qubit) : UInt32 := (get? q m.counts).getD 0

def lastLane? (q : Qubit) : Option Lane := get? q m.lastLanes

def occupied : List Location := m.qubits.map (·.1)

def layout : List (Qubit × Location) := m.locations

/-- Whether two states place every qubit alike, whatever way the atoms have come. -/
def sameLayout (n : AtomMaps) : Bool := m.qubits = n.qubits

/-- What the maps say about the atom of each qubit, in the order of the qubits. -/
def list : List Atom := m.locations.map fun e => ⟨e.1, e.2, m.moves e.1, m.lastLane? e.1⟩

def bijective : Bool :=
  m.qubits.length = m.locations.length && m.qubits.all fun e => m.locationOf? e.2 = some e.1

def place (l : Location) (q : Qubit) : Except AtomError AtomMaps :=
  if (m.qubitAt? l).isSome then .error (.occupiedSite l)
  else if (m.locationOf? q).isSome then .error (.duplicateQubit q)
  else .ok { m with
    qubits := put l q m.qubits
    locations := put q l m.locations
    counts := put q 0 m.counts }

def fillWith : AtomMaps → List (Location × Qubit) → Except AtomError AtomMaps
  | m, [] => .ok m
  | m, (l, q) :: rest => do fillWith (← m.place l q) rest

def nextQubit : Qubit :=
  match m.locations.getLast? with
  | some e => e.1 + 1
  | none => 0

/-- Adds an atom on each location; the new qubits are numbered after the largest one. -/
def fill (locations : List Location) : Except AtomError AtomMaps :=
  m.fillWith (locations.zipIdx m.nextQubit)

def hop (g : LaneGraph) (lane : Lane) : Except AtomError Hop :=
  match g.endpoints? lane with
  | none =>
    match g.device.checkLane lane with
    | .error e => .error (.address e)
    | .ok () => .error (.address (.laneNotInBus lane))
  | some (src, dst) =>
    match m.qubitAt? src with
    | none => .error (.emptySource lane src)
    | some q => .ok ⟨lane, q, src, dst⟩

def hops (g : LaneGraph) : List Lane → List Qubit → Except AtomError (List Hop)
  | [], _ => .ok []
  | lane :: rest, moving => do
    let h ← m.hop g lane
    if moving.contains h.qubit then .error (.duplicateQubit h.qubit)
    else .ok (h :: (← hops g rest (h.qubit :: moving)))

def lift (hops : List Hop) : AtomMaps :=
  hops.foldl (fun m h => { m with qubits := erase h.src m.qubits }) m

def land (h : Hop) : AtomMaps where
  qubits := put h.dst h.qubit m.qubits
  locations := put h.qubit h.dst m.locations
  lastLanes := put h.qubit h.lane m.lastLanes
  counts := put h.qubit (m.moves h.qubit + 1) m.counts

def drop : AtomMaps → List Hop → Except AtomError AtomMaps
  | m, [] => .ok m
  | m, h :: rest =>
    if (m.qubitAt? h.dst).isSome then .error (.occupiedDestination h.lane h.dst)
    else drop (m.land h) rest

/-- Moves all atoms at the starts of the lanes in one step. The lanes have to be pairwise compatible,
each needs an atom at its start, and each needs a free end once all these atoms are lifted. -/
def move (g : LaneGraph) (lanes : List Lane) : Except AtomError AtomMaps :=
  match g.device.conflict? lanes with
  | some (first, second) => .error (.address (.incompatibleLanes first second))
  | none => do
    let hops ← m.hops g lanes []
    let next ← (m.lift hops).drop hops
    if next.bijective then .ok next else .error .inconsistent

/-- Adds the atom at a location to a pairing. A pair counts once, at its lower site. -/
def addToPairing (d : Device) (p : Pairing) (l : Location) : Pairing :=
  match m.qubitAt? l with
  | none => p
  | some q =>
    match (d.blockaded? l).bind fun other => (m.qubitAt? other).map fun r => (other, r) with
    | some (other, r) =>
      if l < other then { p with controls := p.controls ++ [q], targets := p.targets ++ [r] } else p
    | none => { p with unpaired := p.unpaired ++ [q] }

def pairing? (d : Device) (z : Zone) : Option Pairing :=
  (d.zoneLocations? z).map fun locations => locations.foldl (m.addToPairing d) {}

end AtomMaps

end AtomTransport
