import AtomTransport.Value

/-!
# Analysis of movement programs

The analysis follows the atoms through all paths of a program. Blocks wait in a queue; a visit
evaluates the statements of a block in order, passes arguments along the edges that can be taken, and
puts blocks back into the queue whose inputs have changed. It ends when the queue is empty, or fails
when a cap on the number of visits is exceeded.
-/

namespace AtomTransport

inductive AnalysisError where
  | program (cause : ProgramError)
  | visitLimit (visits : Nat)
  | atStatement (point : Point) (op : String) (cause : AtomError)
  deriving DecidableEq

def AnalysisError.message : AnalysisError → String
  | program cause => "Invalid program: " ++ cause.message
  | visitLimit visits =>
    "Interpretation did not converge within " ++ toString visits ++ " block visits"
  | atStatement point op cause => "At " ++ point.text ++ " (" ++ op ++ "): " ++ cause.message

structure Detector where
  measurements : Value
  coordinates : List Binary64

structure Observable where
  measurements : Value
  index : Nat

/-- What is known after an analysis: a value for every number, the state after every statement that
yields one, the join of all returned values, and the declarations, all by place in the program. -/
structure Analysis where
  values : List Value
  states : List (Point × Value) := []
  returned : Value := .bottom
  detectors : List (Point × Detector) := []
  observables : List (Point × Observable) := []

namespace Analysis

def value (a : Analysis) (v : Var) : Value := a.values.getD v .bottom

def stateAt? (a : Analysis) (point : Point) : Option Value := Ascending.get? point a.states

def hasUnknownState (a : Analysis) : Bool := a.states.any (·.2.isUnknown)

end Analysis

namespace Op

def checkAddresses (d : Device) (op : Op) : Except AtomError Unit :=
  (do op.locations.forM d.checkLocation; op.zones.forM d.checkZone).mapError .address

def evalAtoms (g : LaneGraph) (a : Atoms) (op : Op) : Except AtomError Value := do
  op.checkAddresses g.device
  match op with
  | fill _ locations => .ok (.atoms (← a.fill locations))
  | move _ lanes => .ok (.atoms (← a.move g lanes))
  | endMeasure _ _ => .ok (.measured a)
  | _ => .ok (.atoms a)

/-- The results of a measured zone: one bit for every occupied site, and nothing for the others. -/
def zoneResults (d : Device) (a : Atoms) (zone : Zone) : Value :=
  .list (((d.zoneLocations? zone).getD []).map fun l =>
    match a.qubitAt? l with
    | some q => .result q
    | none => .bottom)

def item : Value → Value → Value
  | .bottom, _ => .bottom
  | _, .bottom => .bottom
  | .list items, .scalar (.int i) => if i < 0 then .bottom else items.getD i.toNat .bottom
  | .unknown, _ => .unknown
  | _, .unknown => .unknown
  | _, _ => .bottom

/-- The value of an operation when its operands have the given values. An operation on atoms whose
operand is no atom state has no value. -/
def eval (g : LaneGraph) (env : Var → Value) (op : Op) : Except AtomError Value :=
  match op.stateInput? with
  | some s =>
    match (env s).atoms? with
    | some a => op.evalAtoms g a
    | none => .ok .bottom
  | none =>
    match op with
    | load => .ok (.atoms {})
    | getFutureResult future zone =>
      match env future with
      | .measured a => do
        (g.device.checkZone zone).mapError .address
        .ok (zoneResults g.device a zone)
      | .unknown => .ok .unknown
      | _ => .ok .bottom
    | getZoneIndex zone location => do
      (g.device.checkZone zone).mapError .address
      (g.device.checkLocation location).mapError .address
      match g.device.zoneIndex? zone location with
      | some i => .ok (.scalar (.int i))
      | none => .ok .bottom
    | constant value => .ok (.scalar value)
    | newList items => .ok (.list (items.map env))
    | getItem list index => .ok (item (env list) (env index))
    | setDetector measurements _ => .ok (env measurements)
    | setObservable measurements _ => .ok (env measurements)
    | _ => .ok .bottom

end Op

namespace Terminator

/-- The edges that can be taken: a branch on a known bit takes one of them, and a branch on nothing
takes none. -/
def takenEdges (env : Var → Value) : Terminator → List (Label × List Var)
  | jump target args => [(target, args)]
  | ret _ => []
  | branch cond thenTarget thenArgs elseTarget elseArgs =>
    match env cond with
    | .scalar (.bool true) => [(thenTarget, thenArgs)]
    | .scalar (.bool false) => [(elseTarget, elseArgs)]
    | .bottom => []
    | _ => [(thenTarget, thenArgs), (elseTarget, elseArgs)]

end Terminator

namespace Program

def users (p : Program) (v : Var) : List Label :=
  (p.blocks.zipIdx.filter fun (b, _) =>
    (b.statements.any fun s => s.op.operands.contains v) || b.terminator.operands.contains v).map
      (·.2)

end Program

namespace Analysis

structure Work where
  known : Analysis
  queue : List Label
  visited : List Label := []

namespace Work

def enqueue (w : Work) (b : Label) : Work :=
  if w.queue.contains b then w else { w with queue := w.queue ++ [b] }

def enqueueAll (w : Work) (bs : List Label) : Work := bs.foldl enqueue w

def setValue (w : Work) (v : Var) (x : Value) : Work :=
  { w with known := { w.known with values := w.known.values.set v x } }

def record (w : Work) (point : Point) (op : Op) (x : Value) : Work :=
  let known := w.known
  let known := if op.producesState then
    { known with states := Ascending.put point x known.states } else known
  match op with
  | .setDetector _ coordinates =>
    { w with known := { known with
      detectors := Ascending.put point ⟨x, coordinates⟩ known.detectors } }
  | .setObservable _ index =>
    { w with known := { known with
      observables := Ascending.put point ⟨x, index⟩ known.observables } }
  | _ => { w with known := known }

/-- Evaluates one statement. A new value sends the other visited blocks that read it back into the
queue. -/
def runStatement (g : LaneGraph) (p : Program) (w : Work) (point : Point) (s : Statement) :
    Except AnalysisError Work := do
  let x ← (s.op.eval g w.known.value).mapError (.atStatement point s.op.name)
  let w := w.record point s.op x
  if (w.known.value s.result).same x then .ok w
  else
    .ok ((w.setValue s.result x).enqueueAll
      ((p.users s.result).filter fun b => b ≠ point.block && w.visited.contains b))

/-- Joins an argument into a parameter. The flag tells whether the parameter has changed. -/
def bindParam (p : Program) (step : Work × Bool) (binding : Var × Var) : Work × Bool :=
  let (w, changed) := step
  let (param, arg) := binding
  let joined := (w.known.value param).join (w.known.value arg)
  if joined.same (w.known.value param) then (w, changed)
  else
    ((w.setValue param joined).enqueueAll ((p.users param).filter w.visited.contains), true)

/-- Passes the arguments of an edge. The target is visited again if a parameter has changed, and in
any case once. -/
def followEdge (p : Program) (w : Work) (edge : Label × List Var) : Work :=
  match p.block? edge.1 with
  | none => w
  | some target =>
    let (w, changed) :=
      (target.params.zip edge.2).foldl (bindParam p) (w, !w.visited.contains edge.1)
    if changed then w.enqueue edge.1 else w

def leave (w : Work) : Terminator → Work
  | .ret v => { w with known := { w.known with returned := w.known.returned.join (w.known.value v) } }
  | _ => w

def visit (g : LaneGraph) (p : Program) (w : Work) (b : Label) : Except AnalysisError Work :=
  let w := { w with visited := if w.visited.contains b then w.visited else w.visited ++ [b] }
  match p.block? b with
  | none => .ok w
  | some block => do
    let w ← block.statements.zipIdx.foldlM
      (fun w (s, i) => w.runStatement g p ⟨b, i⟩ s) w
    let w := (block.terminator.takenEdges w.known.value).foldl (followEdge p) w
    .ok (w.leave block.terminator)

/-- Visits waiting blocks until none is left, but at most as often as the remaining cap allows. -/
def run (g : LaneGraph) (p : Program) (cap : Nat) : Nat → Work → Except AnalysisError Work
  | 0, w => if w.queue.isEmpty then .ok w else .error (.visitLimit cap)
  | remaining + 1, w =>
    match w.queue with
    | [] => .ok w
    | b :: rest => do run g p cap remaining (← visit g p { w with queue := rest } b)

/-- Before the first visit nothing is known but that the entry can be called with anything. -/
def initial (p : Program) : Work :=
  let values := List.replicate p.numValues Value.bottom
  let params := ((p.block? 0).map (·.params)).getD []
  { known := { values := params.foldl (fun vs v => vs.set v .unknown) values }
    queue := [0] }

end Work

def defaultVisits : Nat := 10000

/-- Analyses a program on a device with a cap on the number of block visits. -/
def run (g : LaneGraph) (p : Program) (cap : Nat) : Except AnalysisError Analysis := do
  p.check.mapError .program
  let w ← Work.run g p cap cap (Work.initial p)
  .ok w.known

end Analysis

end AtomTransport
