import AtomTransport.Analysis

/-!
# Readout of shots

A shot is a list of measured bits, one for each qubit. The trees that an analysis has found are turned
into a readout once; applying it to a shot then gives the returned value and the parities of all
detectors and observables.
-/

namespace AtomTransport

inductive ReadoutPart where
  | returnValue
  | detector
  | observable
  deriving DecidableEq

def ReadoutPart.text : ReadoutPart → String
  | returnValue => "return value"
  | detector => "detector"
  | observable => "observable"

inductive ReadoutError where
  | unknownValue (part : ReadoutPart)
  | tooFewBits (expected got : Nat)
  deriving DecidableEq

def ReadoutError.message : ReadoutError → String
  | unknownValue part => "Cannot post-process an unknown " ++ part.text
  | tooFewBits expected got =>
    "Shot has " ++ toString got ++ " bits, expected at least " ++ toString expected

inductive Outcome where
  /-- An empty site, an atom state, or nothing at all. -/
  | none
  | scalar (s : Scalar)
  | list (items : List Outcome)

inductive Extractor where
  | none
  | constant (s : Scalar)
  | bit (index : Nat)
  | list (items : List Extractor)

namespace Extractor

mutual

/-- The extractor of a tree without unknown parts, and the number of bits that are needed with it if `n` were
needed before. -/
def compile (n : Nat) : Value → Except ReadoutError (Extractor × Nat)
  | .unknown => .error (.unknownValue .returnValue)
  | .result q => .ok (bit q, max n (q + 1))
  | .scalar s => .ok (constant s, n)
  | .list items => do
    let (es, n) ← compileAll n items
    .ok (list es, n)
  | .bottom => .ok (none, n)
  | .atoms _ => .ok (none, n)
  | .measured _ => .ok (none, n)

def compileAll (n : Nat) : List Value → Except ReadoutError (List Extractor × Nat)
  | [] => .ok ([], n)
  | v :: vs => do
    let (e, n) ← compile n v
    let (es, n) ← compileAll n vs
    .ok (e :: es, n)

end

mutual

/-- Reads a shot. A bit that the shot does not have gives no value. -/
def apply (shot : List Bool) : Extractor → Outcome
  | none => .none
  | constant s => .scalar s
  | bit i => match shot[i]? with
    | some b => .scalar (.bool b)
    | Option.none => .none
  | list items => .list (applyAll shot items)

def applyAll (shot : List Bool) : List Extractor → List Outcome
  | [] => []
  | e :: es => e.apply shot :: applyAll shot es

end

end Extractor

structure Parity where
  bits : List Nat := []
  flip : Bool := false
  deriving DecidableEq

namespace Parity

mutual

/-- Adds the results and the Boolean constants of a tree; other leaves count nothing. -/
def addValue (part : ReadoutPart) (p : Parity) : Value → Except ReadoutError Parity
  | .unknown => .error (.unknownValue part)
  | .result q => .ok { p with bits := p.bits ++ [q] }
  | .list items => addValues part p items
  | .scalar (.bool b) => .ok { p with flip := p.flip ^^ b }
  | .scalar (.int _) => .ok p
  | .scalar (.float _) => .ok p
  | .bottom => .ok p
  | .atoms _ => .ok p
  | .measured _ => .ok p

def addValues (part : ReadoutPart) (p : Parity) : List Value → Except ReadoutError Parity
  | [] => .ok p
  | v :: vs => do addValues part (← addValue part p v) vs

end

def ofValue (part : ReadoutPart) (v : Value) : Except ReadoutError Parity := addValue part {} v

/-- The parity of a tree, and the number of bits that are needed with it if `n` were needed before. -/
def compile (part : ReadoutPart) (n : Nat) (v : Value) : Except ReadoutError (Parity × Nat) := do
  let p ← ofValue part v
  match p.bits.max? with
  | some i => .ok (p, max n (i + 1))
  | none => .ok (p, n)

def compileAll (part : ReadoutPart) (n : Nat) : List Value → Except ReadoutError (List Parity × Nat)
  | [] => .ok ([], n)
  | v :: vs => do
    let (p, n) ← compile part n v
    let (ps, n) ← compileAll part n vs
    .ok (p :: ps, n)

def apply (shot : List Bool) (p : Parity) : Bool :=
  p.bits.foldl (fun acc i => acc ^^ shot.getD i false) p.flip

end Parity

structure Shot where
  value : Outcome
  detectors : List Bool
  observables : List Bool

structure Readout where
  value : Extractor
  detectors : List Parity
  observables : List Parity
  minBits : Nat

namespace Readout

/-- The readout of a returned value, detectors and observables. It fails at the first tree with an
unknown part. -/
def ofValues (value : Value) (detectors observables : List Value) : Except ReadoutError Readout := do
  let (value, n) ← Extractor.compile 0 value
  let (detectors, n) ← Parity.compileAll .detector n detectors
  let (observables, n) ← Parity.compileAll .observable n observables
  .ok ⟨value, detectors, observables, n⟩

def apply (r : Readout) (shot : List Bool) : Except ReadoutError Shot :=
  if shot.length < r.minBits then .error (.tooFewBits r.minBits shot.length)
  else .ok ⟨r.value.apply shot, r.detectors.map (·.apply shot), r.observables.map (·.apply shot)⟩

def applyAll (r : Readout) (shots : List (List Bool)) : Except ReadoutError (List Shot) :=
  shots.mapM r.apply

end Readout

def Analysis.readout (a : Analysis) : Except ReadoutError Readout :=
  Readout.ofValues a.returned (a.detectors.map (·.2.measurements))
    (a.observables.map (·.2.measurements))

end AtomTransport
