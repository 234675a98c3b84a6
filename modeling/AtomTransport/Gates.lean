import AtomTransport.Program

/-!
# Gate programs

The input of compilation: a number of qubits and a list of gate layers, which say what happens to the
qubits and not where their atoms are.
-/

namespace AtomTransport

inductive GateLayer where
  /-- Entangles `controls[i]` with `targets[i]` for every `i`. -/
  | cz (controls targets : List Qubit)
  | localR (qubits : List Qubit) (axis rotation : Binary64)
  | globalR (axis rotation : Binary64)
  | localRz (qubits : List Qubit) (rotation : Binary64)
  | globalRz (rotation : Binary64)
  | measure
  | detector (qubits : List Qubit) (coordinates : List Binary64)
  | observable (qubits : List Qubit)
  deriving DecidableEq

namespace GateLayer

def qubits : GateLayer → List Qubit
  | cz controls targets => controls ++ targets
  | localR qubits _ _ => qubits
  | localRz qubits _ => qubits
  | detector qubits _ => qubits
  | observable qubits => qubits
  | globalR _ _ => []
  | globalRz _ => []
  | measure => []

def isCz : GateLayer → Bool
  | cz _ _ => true
  | _ => false

end GateLayer

structure GateProgram where
  numQubits : Nat
  layers : List GateLayer := []
  deriving DecidableEq

namespace GateProgram

def push (p : GateProgram) (layer : GateLayer) : GateProgram :=
  { p with layers := p.layers ++ [layer] }

def check (p : GateProgram) : Except ProgramError Unit :=
  match p.layers.findSome? fun layer => layer.qubits.find? fun q => p.numQubits ≤ q with
  | some q => .error (.qubitOutOfRange q p.numQubits)
  | none => .ok ()

end GateProgram

end AtomTransport
