import AtomTransport.Proofs.LiftAndDrop

/-!
# Atoms on a device

The atoms of a device, recorded in maps that fit together. A filling or a move gives the maps that the loops
over them build, with the proof that these fit together again.
-/

namespace AtomTransport

structure Atoms extends AtomMaps where
  wellFormed : toAtomMaps.WellFormed := by exact .empty
  deriving DecidableEq

namespace Atoms

/-- An outcome of an operation on the maps as one of the atoms. -/
def pack (x : Except AtomError AtomMaps) (h : ∀ m, x = .ok m → m.WellFormed) : Except AtomError Atoms :=
  match x, h with
  | .error e, _ => .error e
  | .ok m, h => .ok ⟨m, h m rfl⟩

variable (s : Atoms)

def sameLayout (t : Atoms) : Bool := s.toAtomMaps.sameLayout t.toAtomMaps

def place (l : Location) (q : Qubit) : Except AtomError Atoms :=
  pack (s.toAtomMaps.place l q) fun _ => s.wellFormed.place

def fillWith (atoms : List (Location × Qubit)) : Except AtomError Atoms :=
  pack (s.toAtomMaps.fillWith atoms) fun _ => s.wellFormed.fillWith

def fill (locations : List Location) : Except AtomError Atoms :=
  pack (s.toAtomMaps.fill locations) fun _ => s.wellFormed.fillWith

def move (g : LaneGraph) (lanes : List Lane) : Except AtomError Atoms :=
  pack (s.toAtomMaps.move g lanes) fun _ => s.wellFormed.move

end Atoms

end AtomTransport
