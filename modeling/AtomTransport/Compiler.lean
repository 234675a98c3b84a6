import AtomTransport.Lowering
import AtomTransport.Pass
import AtomTransport.Placement.Strategy

/-!
# The compiler

A gate program is placed, its changes of placement become move layers, gates and moves are lowered to
a movement program, and the passes clean, check and analyse it.
-/

namespace AtomTransport

inductive HeuristicKind where
  | zero
  | busReuse
  deriving DecidableEq

namespace HeuristicKind

def name : HeuristicKind → String
  | zero => "zero"
  | busReuse => "bus_reuse"

def all : List HeuristicKind := [zero, busReuse]

def heuristic : HeuristicKind → Heuristic
  | zero => .zero
  | busReuse => .busReuse

end HeuristicKind

/-- Names may be written with hyphens instead of underscores. -/
def plainName (s : String) : String := s.map fun c => if c = '-' then '_' else c

def HeuristicKind.ofName (s : String) : Except CompileError HeuristicKind :=
  match HeuristicKind.all.find? (·.name = plainName s) with
  | some k => .ok k
  | none => .error (.unknownHeuristic s)

def Strategy.ofName (s : String) : Except CompileError Strategy :=
  match Strategy.all.find? (·.name = plainName s) with
  | some k => .ok k
  | none => .error (.unknownStrategy s)

structure Config where
  strategy : Strategy := .logical
  heuristic : HeuristicKind := .busReuse
  validate : Bool := true
  maxVisits : Nat := Analysis.defaultVisits
  deriving DecidableEq

/-- The heuristics of the gate layers, for their placement and again for the synthesis of their moves. -/
structure LayerHeuristics where
  placing : Nat → Heuristic
  moving : Nat → Heuristic

instance coeLayerHeuristics : Coe Heuristic LayerHeuristics := ⟨fun h => ⟨h, h⟩⟩

structure Compiler where
  graph : LaneGraph
  config : Config := {}
  heuristics : LayerHeuristics := config.heuristic.heuristic

structure Compiled where
  program : Program
  placements : List LayerPlacement
  moves : List (List MoveLayer)
  analysis : Analysis
  readout : Readout

namespace Compiled

def numMoveLayers (c : Compiled) : Nat := (c.moves.map (·.length)).foldl (· + ·) 0

def numMoves (c : Compiled) : Nat := (c.moves.flatten.map (·.length)).foldl (· + ·) 0

end Compiled

namespace Compiler

variable (c : Compiler)

def layerMoves (l : LayerPlacement) : Except CompileError (List MoveLayer) :=
  match l.before.known?, l.after.known? with
  | some before, some after => MoveLayer.along c.graph (c.heuristics.moving l.index) l.paths before after
  | _, _ => .error (.imprecisePlacement l.index)

def runPasses (p : Program) : Except CompileError (Program × Analysis) :=
  let facts : ProgramFacts := { graph := some c.graph, maxVisits := c.config.maxVisits }
  match Pass.runAll (Pass.standard c.config.validate) p facts with
  | (some e, _, _) => .error e
  | (none, p, facts) =>
    match facts.take .analysis with
    | (some a, _) => .ok (p, a)
    | (none, _) => .error .missingAnalysis

def compile (p : GateProgram) (initial : InitialLayout) : Except CompileError Compiled := do
  p.check.mapError .program
  let start ← initial.place c.graph.device p.numQubits
  let placements ← p.place c.graph c.heuristics.placing c.config.strategy initial
  let moves ← placements.mapM c.layerMoves
  let lowered ← p.lower c.graph.device start placements moves
  let (program, analysis) ← c.runPasses lowered
  let readout ← analysis.readout.mapError .readout
  .ok ⟨program, placements, moves, analysis, readout⟩

end Compiler

end AtomTransport
