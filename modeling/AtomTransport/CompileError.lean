import AtomTransport.Readout

/-!
# Compilation errors

Everything that can stop a compilation, with its text.
-/

namespace AtomTransport

structure Diagnostic where
  point : Point
  op : String
  error : AddressError
  deriving DecidableEq

def Diagnostic.text (d : Diagnostic) : String :=
  d.point.text ++ " (" ++ d.op ++ "): " ++ d.error.message

inductive LoweringError where
  | layoutSizes (before after : Nat)
  | layerCounts (gates placements transitions : Nat)
  | noSite (qubit : Qubit)
  | noZone (location : Location)
  | notMeasured (qubit : Qubit)
  | zoneNotMeasured (zone : Zone)
  deriving DecidableEq

def LoweringError.message : LoweringError → String
  | layoutSizes before after =>
    "layouts have " ++ toString before ++ " and " ++ toString after ++ " qubits"
  | layerCounts gates placements transitions =>
    toString gates ++ " gate layers but " ++ toString placements ++ " placements and " ++
      toString transitions ++ " move transitions"
  | noSite q => q.text ++ " has no site"
  | noZone l => "site " ++ l.text ++ " is in no zone"
  | notMeasured q => q.text ++ " is used before measurement"
  | zoneNotMeasured z => "zone " ++ z.text ++ " has not been measured"

inductive CompileError where
  | blueprint (cause : BlueprintError)
  | address (cause : AddressError)
  | program (cause : ProgramError)
  | analysis (cause : AnalysisError)
  | readout (cause : ReadoutError)
  | tooFewSites (required available : Nat)
  | duplicateSite (location : Location)
  | noPlacement (control target : Qubit)
  | unsupportedMove (src dst : Location)
  | multipleWordPairs (first second : Nat × Nat)
  | invalidLane (lane : Lane) (cause : AddressError)
  | laneConflict (layer : Nat) (location : Location)
  | routeMismatch (qubit : Qubit) (expected actual : Location)
  | validation (diagnostics : List Diagnostic)
  | imprecisePlacement (layer : Nat)
  | invalidProgram (cause : LoweringError)
  | unknownStrategy (name : String)
  | unknownHeuristic (name : String)
  | missingDevice
  | missingAnalysis
  deriving DecidableEq

def wordPairText (p : Nat × Nat) : String := "(" ++ toString p.1 ++ ", " ++ toString p.2 ++ ")"

def CompileError.message : CompileError → String
  | blueprint cause => "Architecture error: " ++ cause.message
  | address cause => "Invalid address: " ++ cause.message
  | program cause => "IR error: " ++ cause.message
  | analysis cause => "Interpretation failed: " ++ cause.message
  | readout cause => "Post-processing failed: " ++ cause.message
  | tooFewSites required available =>
    "Program needs " ++ toString required ++ " qubits but the initial layout has " ++
      toString available ++ " sites"
  | duplicateSite l => "Site " ++ l.text ++ " is assigned twice in the initial layout"
  | noPlacement control target =>
    "No placement for CZ between " ++ control.text ++ " and " ++ target.text
  | unsupportedMove src dst => "Cannot route an atom from " ++ src.text ++ " to " ++ dst.text
  | multipleWordPairs first second =>
    "Transition moves atoms between word pairs " ++ wordPairText first ++ " and " ++
      wordPairText second
  | invalidLane lane cause => "Synthesized invalid lane " ++ lane.text ++ ": " ++ cause.message
  | laneConflict layer l => "Move layer " ++ toString layer ++ " conflicts at " ++ l.text
  | routeMismatch q expected actual =>
    "Move layers leave " ++ q.text ++ " at " ++ actual.text ++ " instead of " ++ expected.text
  | validation diagnostics =>
    "Validation failed with " ++ toString diagnostics.length ++ " diagnostic(s)"
  | imprecisePlacement layer => "Placement is imprecise at gate layer " ++ toString layer
  | invalidProgram cause => "Invalid program: " ++ cause.message
  | unknownStrategy name => "Unknown placement strategy '" ++ name ++ "'"
  | unknownHeuristic name => "Unknown path heuristic '" ++ name ++ "'"
  | missingDevice => "Missing architecture in property set"
  | missingAnalysis => "Missing property: atom state analysis"

end AtomTransport
