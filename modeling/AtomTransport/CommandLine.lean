import AtomTransport.CommandLine.Arguments
import AtomTransport.CommandLine.FileTree
import AtomTransport.Device.Grid
import AtomTransport.Format.Device
import AtomTransport.Format.Placement
import AtomTransport.Format.Program
import AtomTransport.Json.Parser
import AtomTransport.Json.Printer
import AtomTransport.Text.Lines
import AtomTransport.Text.Unsigned

/-!
# The command line

The commands as functions of the arguments and of the files that they read. A run gives the text of
both output channels, the exit code, and at most one file to write.
-/

namespace AtomTransport.CommandLine

structure Files where
  entry : String → Entry
  writeFault? : String → Option String := fun _ => none

def FileTree.view (t : FileTree) : Files :=
  ⟨t.entry, fun path => (t.writeFault? path).map (·.message)⟩

/-- The visible result of a run: its exit code, the texts of both output channels, and the file that
it writes. Arguments that no command accepts give no text here. -/
inductive Outcome where
  | usage
  | finished (exit : Nat) (stdout stderr : String) (written : Option (String × String))

/-- A failure is a chain of texts, the outermost first. -/
abbrev Chain := List String

def Chain.text (c : Chain) : String := "Error: " ++ ": ".intercalate c

def analysisChain (e : AnalysisError) : Chain :=
  e.message :: match e with
    | .program cause => [cause.message]
    | .visitLimit _ => []
    | .atStatement _ _ cause => cause.message :: match cause with
      | .address a => [a.message]
      | _ => []

def compileChain (e : CompileError) : Chain :=
  e.message :: match e with
    | .blueprint cause => cause.message :: match cause with
      | .encoding inner => [inner.message]
      | _ => []
    | .address cause => [cause.message]
    | .program cause => [cause.message]
    | .analysis cause => analysisChain cause
    | .readout cause => [cause.message]
    | .invalidLane _ cause => [cause.message]
    | _ => []

def extension (path : String) : String :=
  let name := ((FileTree.parts path).filter (· ≠ ".")).getLast?.getD ""
  match name.splitOn "." with
  | [] => ""
  | [_] => ""
  | first :: rest =>
    if first = "" && rest.length = 1 then "" else ((rest.getLast?.getD "").map Char.toLower)

def invalidDocument (path : String) : String :=
  if extension path = "yaml" || extension path = "yml" then "Invalid YAML in " ++ path
  else "Invalid JSON in " ++ path

def readFile (fs : Files) (path : String) : Except Chain String :=
  match fs.entry path with
  | .missing => .error ["File not found: " ++ path]
  | .directory => .error ["Failed to read file: " ++ path, PathFault.isDirectory.message]
  | .file text => .ok text

/-- Reads a document and decodes it. Parts that the decoder does not look at may be unread. A
document that is decoded may still be rejected with a reason; this happens before anything after the
document is looked at. -/
def readDocument {α β : Type} (fs : Files) (path : String) (decoder : Json.Decoder α)
    (build : α → Except String β) : Except Chain β := do
  let text ← readFile fs path
  match Json.readFront .tolerant text with
  | none => .error [invalidDocument path]
  | some (v, rest) =>
    match decoder v with
    | none => .error [invalidDocument path]
    | some a =>
      match build a with
      | .error reason => .error [invalidDocument path, reason]
      | .ok b =>
        if (Json.skipBlanks rest).isEmpty then .ok b else .error [invalidDocument path]

def loadDevice (fs : Files) (name : String) : Except Chain Device :=
  match Device.preset? name with
  | some (.ok device) => .ok device
  | some (.error e) =>
    .error (("Failed to build preset '" ++ name ++ "'") :: (compileChain (.blueprint e)).tail)
  | none =>
    match fs.entry name with
    | .missing =>
      .error ["Unknown architecture '" ++ name ++ "'. Available presets: " ++
        ", ".intercalate (Device.presets.map (·.1)) ++ ", or a YAML/JSON file"]
    | _ => readDocument fs name Blueprint.decoder fun b =>
      (Device.ofBlueprint b).mapError (·.message)

def parseLocation (text : String) : Except Chain Location := do
  let cs := text.toList
  match cs.dropWhile (· ≠ ',') with
  | [] => .error ["Expected WORD,SITE but got '" ++ text ++ "'"]
  | _ :: site =>
    let read (what : String) (part : List Char) : Except Chain Nat :=
      (Text.readUnsigned (Nat.pow 2 32) (Text.strip (String.ofList part))).mapError fun e =>
        ["Invalid " ++ what ++ " id in '" ++ text ++ "'", e.message]
    let word ← read "word" (cs.takeWhile (· ≠ ','))
    let site ← read "site" site
    .ok ⟨word, site⟩

def describe (name : String) (d : Device) : List String :=
  ["→ Architecture " ++ name,
   "  Words:       " ++ toString d.words.length,
   "  Sites:       " ++ toString ((d.words.map (·.size)).foldl (· + ·) 0),
   "  Zones:       " ++ toString d.zones.length,
   "  Site buses:  " ++ toString (d.buses .site).length,
   "  Word buses:  " ++ toString (d.buses .word).length,
   "  Encoding:    " ++ d.encoding.text,
   "  Word-bus sites: " ++ ", ".intercalate (d.blueprint.wordBusSites.map toString)]
  ++ d.zones.zipIdx.map fun (words, i) =>
    "  Zone " ++ toString i ++ ": words " ++ ", ".intercalate (words.map toString)

def failed (stdout stderr : List String) (c : Chain) : Outcome :=
  .finished 1 (Text.unlines stdout) (Text.unlines (stderr ++ [c.text])) none

def runDescribe (fs : Files) (name : String) (json : Bool) : Outcome :=
  match loadDevice fs name with
  | .error c => failed [] [] c
  | .ok device =>
    let lines := if json then [device.blueprint.toJson.pretty] else describe name device
    .finished 0 (Text.unlines lines) "" none

structure RouteQuery where
  graph : LaneGraph
  src : Location
  dst : Location
  avoid : List Location
  heuristic : HeuristicKind

def RouteQuery.ofRequest (fs : Files) (r : RouteRequest) : Except Chain RouteQuery := do
  let device ← loadDevice fs r.device
  let src ← parseLocation r.src
  let dst ← parseLocation r.dst
  let avoid ← r.avoid.mapM parseLocation
  let heuristic ← match r.heuristic with
    | some name => (HeuristicKind.ofName name).mapError compileChain
    | none => .ok .zero
  (device.checkLocation src).mapError fun e => [e.message]
  (device.checkLocation dst).mapError fun e => [e.message]
  .ok ⟨LaneGraph.ofDevice device, src, dst, avoid, heuristic⟩

def segmentLine (e : Encoding) (s : Segment) : Except Chain String :=
  match s.lane.encode e with
  | .ok address =>
    .ok ("  " ++ s.lane.text ++ " " ++ s.src.text ++ " -> " ++ s.dst.text ++ "  " ++ hexText address)
  | .error err => .error [err.message]

def runRoute (fs : Files) (r : RouteRequest) : Outcome :=
  match RouteQuery.ofRequest fs r with
  | .error c => failed [] [] c
  | .ok q =>
    let header := "→ Routing " ++ q.src.text ++ " to " ++ q.dst.text ++ " over " ++
      toString q.graph.edges.length ++ " lanes (" ++ q.heuristic.name ++ " heuristic)"
    match q.graph.findPath? q.heuristic.heuristic [] q.src q.dst q.avoid.contains with
    | none => failed [header] [] ["No path from " ++ q.src.text ++ " to " ++ q.dst.text]
    | some path =>
      if path.isEmpty then .finished 0 (Text.unlines [header, "✓ Already there"]) "" none
      else
        match path.segments.mapM (segmentLine q.graph.device.encoding) with
        | .error c => failed [header] [] c
        | .ok lines =>
          let count := "✓ " ++ toString path.length ++ " lanes"
          .finished 0 (Text.unlines (header :: lines ++ [count])) "" none

structure CompileJob where
  device : Device
  program : GateProgram
  initial : InitialLayout
  config : Config

def CompileJob.ofRequest (fs : Files) (r : CompileRequest) : Except Chain CompileJob := do
  let device ← loadDevice fs r.device
  let program ← readDocument fs r.input GateProgram.decoder .ok
  let initial ← readDocument fs r.layout InitialLayout.decoder .ok
  let config ← match r.config with
    | some path => readDocument fs path Config.decoder .ok
    | none => .ok {}
  let strategy ← match r.strategy with
    | some name => (Strategy.ofName name).mapError compileChain
    | none => .ok config.strategy
  let heuristic ← match r.heuristic with
    | some name => (HeuristicKind.ofName name).mapError compileChain
    | none => .ok config.heuristic
  .ok ⟨device, program, initial,
    { config with
      strategy := strategy
      heuristic := heuristic
      validate := config.validate && r.validate }⟩

def compiledDocument (c : Compiled) : Json :=
  .obj [("program", c.program.toJson),
    ("placements", .ofList LayerPlacement.toJson c.placements),
    ("move_layers", .ofList (.ofList MoveLayer.toJson) c.moves),
    ("min_bits", .ofNat c.readout.minBits),
    ("num_detectors", .ofNat c.readout.detectors.length),
    ("num_observables", .ofNat c.readout.observables.length)]

def runCompile (fs : Files) (r : CompileRequest) : Outcome :=
  let started := ["→ Compiling " ++ r.input ++ " for " ++ r.device]
  match CompileJob.ofRequest fs r with
  | .error c => failed [] started c
  | .ok job =>
    let loaded := started ++ ["  Loaded: " ++ toString job.program.numQubits ++ " qubits, " ++
      toString job.program.layers.length ++ " gate layers, strategy " ++ job.config.strategy.name ++
      ", heuristic " ++ job.config.heuristic.name]
    let compiler : Compiler := { graph := LaneGraph.ofDevice job.device, config := job.config }
    match compiler.compile job.program job.initial with
    | .error e => failed [] loaded (compileChain e)
    | .ok c =>
      let done := loaded ++ ["✓ Compilation complete",
        "  Result: " ++ toString c.numMoveLayers ++ " move layers, " ++ toString c.numMoves ++
          " lane moves, " ++ toString c.program.numStatements ++ " statements"]
      let document := (compiledDocument c).pretty
      match r.output with
      | none => .finished 0 (Text.unlines [document]) (Text.unlines done) none
      | some path =>
        match fs.writeFault? path with
        | some reason => failed [] done ["Failed to write file: " ++ path, reason]
        | none =>
          .finished 0 "" (Text.unlines (done ++ ["  Output: " ++ path])) (some (path, document))

def versionLines : List String :=
  ["Lanes v0.1.0 - move compilation for neutral-atom devices",
   "",
   "Components:",
   "  lanes-arch      Architecture model, addressing and path finding",
   "  lanes-ir        Movement programs and gate layers",
   "  lanes-analysis  Atom-state interpretation and post-processing",
   "  lanes-compile   Placement, move synthesis and pass pipeline",
   "  lanes-cli       Command-line interface",
   "",
   "License: Apache-2.0"]

def run (fs : Files) (args : List String) : Outcome :=
  match Command.parse? args with
  | none => .usage
  | some (.describe name json) => runDescribe fs name json
  | some (.route r) => runRoute fs r
  | some (.compile r) => runCompile fs r
  | some .version => .finished 0 (Text.unlines versionLines) "" none
  | some .versionNumber => .finished 0 (Text.unlines ["lanes 0.1.0"]) "" none

end AtomTransport.CommandLine
