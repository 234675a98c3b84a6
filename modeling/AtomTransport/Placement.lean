import AtomTransport.Gates
import AtomTransport.Route

/-!
# Placements

A placement says where the atoms of all qubits are, which other locations are occupied, and how many
lanes each atom has travelled. What is known about a placement is a flat lattice.
-/

namespace AtomTransport

/-- Qubit `i` sits at `layout[i]` and has travelled `moves[i]` lanes, counted in 32 bits. -/
structure Placement where
  occupied : List Location
  layout : List Location
  moves : List UInt32
  deriving DecidableEq

namespace Placement

def ofLayout (layout occupied : List Location) : Placement :=
  ⟨Ascending.ofList occupied, layout, List.replicate layout.length 0⟩

variable (p : Placement)

def size : Nat := p.layout.length

def locationOf? (q : Qubit) : Option Location := p.layout[q]?

def qubitAt? (l : Location) : Option Qubit := p.layout.findIdx? (· = l)

def movesOf (q : Qubit) : UInt32 := p.moves.getD q 0

def qubits : List (Qubit × Location) := p.layout.zipIdx.map fun (l, q) => (q, l)

def blocked : List Location := Ascending.ofList (p.layout ++ p.occupied)

def relocate (q : Qubit) (l : Location) (lanes : Nat) : Placement :=
  { p with layout := p.layout.set q l, moves := p.moves.modify q (· + .ofNat lanes) }

end Placement

inductive PlacementInfo where
  | nothing
  | known (p : Placement)
  | anything
  deriving DecidableEq

namespace PlacementInfo

def known? : PlacementInfo → Option Placement
  | known p => some p
  | _ => none

def le : PlacementInfo → PlacementInfo → Bool
  | nothing, _ => true
  | _, anything => true
  | known a, known b => a = b
  | _, _ => false

def join : PlacementInfo → PlacementInfo → PlacementInfo
  | nothing, x => x
  | x, nothing => x
  | known a, known b => if a = b then known a else anything
  | _, _ => anything

def meet : PlacementInfo → PlacementInfo → PlacementInfo
  | anything, x => x
  | x, anything => x
  | known a, known b => if a = b then known a else nothing
  | _, _ => nothing

end PlacementInfo

/-- The sites chosen for the qubits, in order, and further sites that hold other atoms. -/
structure InitialLayout where
  sites : List Location
  reserved : List Location := []
  deriving DecidableEq

namespace InitialLayout

def reserve (i : InitialLayout) (locations : List Location) : InitialLayout :=
  { i with reserved := Ascending.union locations i.reserved }

def firstRepeat? : List Location → List Location → Option Location
  | _, [] => none
  | seen, l :: rest => if seen.contains l then some l else firstRepeat? (l :: seen) rest

/-- Gives the first sites to the qubits. The sites that are left over stay occupied. -/
def place (i : InitialLayout) (d : Device) (numQubits : Nat) : Except CompileError Placement :=
  if i.sites.length < numQubits then .error (.tooFewSites numQubits i.sites.length)
  else do
    ((i.sites ++ i.reserved).forM d.checkLocation).mapError .address
    match firstRepeat? [] i.sites with
    | some l => .error (.duplicateSite l)
    | none =>
      let layout := i.sites.take numQubits
      .ok (Placement.ofLayout layout
        ((i.reserved ++ i.sites.drop numQubits).filter fun l => !layout.contains l))

end InitialLayout

structure LayerPlacement where
  index : Nat
  before : PlacementInfo
  after : PlacementInfo
  paths : List (Qubit × Path) := []
  deriving DecidableEq

def LayerPlacement.isStatic (l : LayerPlacement) : Bool := l.before = l.after

end AtomTransport
