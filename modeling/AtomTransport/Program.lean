import AtomTransport.Address
import AtomTransport.Binary64.Decimal

/-!
# Movement programs

A program is a list of basic blocks over numbered values. Every statement defines one value by an
operation on earlier ones; operations on atoms take the current atom state as an operand and give the
next one. A block ends in a jump with arguments, a branch, or a return.
-/

namespace AtomTransport

inductive Scalar where
  | bool (b : Bool)
  | int (n : Int)
  | float (x : Binary64)
  deriving DecidableEq

namespace Scalar

/-- Equality of constants of the same kind; floating-point numbers compare numerically. -/
def same : Scalar → Scalar → Bool
  | bool a, bool b => a = b
  | int a, int b => a = b
  | float a, float b => a.eq b
  | _, _ => false

def text : Scalar → String
  | bool b => if b then "true" else "false"
  | int n => toString n
  | float x => x.text

end Scalar

abbrev Var := Nat

def Var.text (v : Var) : String := "%" ++ toString v

/-- The number of a block. Execution starts at block `0`. -/
abbrev Label := Nat

def Label.text (b : Label) : String := "^" ++ toString b

structure Point where
  block : Label
  index : Nat
  deriving DecidableEq

namespace Point

instance : LT Point where
  lt a b := a.block < b.block ∨ a.block = b.block ∧ a.index < b.index

instance : DecidableLT Point := fun a b =>
  inferInstanceAs (Decidable (a.block < b.block ∨ a.block = b.block ∧ a.index < b.index))

def text (p : Point) : String := p.block.text ++ ":" ++ toString p.index

end Point

inductive Op where
  | load
  | fill (state : Var) (locations : List Location)
  | move (state : Var) (lanes : List Lane)
  | cz (state : Var) (zone : Zone)
  | localR (state : Var) (axis rotation : Binary64) (locations : List Location)
  | globalR (state : Var) (axis rotation : Binary64)
  | localRz (state : Var) (rotation : Binary64) (locations : List Location)
  | globalRz (state : Var) (rotation : Binary64)
  /-- Measures the atoms of some zones; the results are read later. -/
  | endMeasure (state : Var) (zones : List Zone)
  /-- The list of results of a measured zone, site by site. -/
  | getFutureResult (future : Var) (zone : Zone)
  | getZoneIndex (zone : Zone) (location : Location)
  | constant (value : Scalar)
  | newList (items : List Var)
  | getItem (list index : Var)
  | setDetector (measurements : Var) (coordinates : List Binary64)
  | setObservable (measurements : Var) (index : Nat)
  deriving DecidableEq

namespace Op

def name : Op → String
  | load => "load"
  | fill .. => "fill"
  | move .. => "move"
  | cz .. => "cz"
  | localR .. => "local_r"
  | globalR .. => "global_r"
  | localRz .. => "local_rz"
  | globalRz .. => "global_rz"
  | endMeasure .. => "end_measure"
  | getFutureResult .. => "get_future_result"
  | getZoneIndex .. => "get_zone_index"
  | constant .. => "constant"
  | newList .. => "new_list"
  | getItem .. => "get_item"
  | setDetector .. => "set_detector"
  | setObservable .. => "set_observable"

def stateInput? : Op → Option Var
  | fill s _ => some s
  | move s _ => some s
  | cz s _ => some s
  | localR s _ _ _ => some s
  | globalR s _ _ => some s
  | localRz s _ _ => some s
  | globalRz s _ => some s
  | endMeasure s _ => some s
  | _ => none

def operands : Op → List Var
  | getFutureResult future _ => [future]
  | newList items => items
  | getItem list index => [list, index]
  | setDetector measurements _ => [measurements]
  | setObservable measurements _ => [measurements]
  | op => op.stateInput?.toList

/-- The operation with its operands renamed. -/
def rename (f : Var → Var) : Op → Op
  | load => load
  | fill s locations => fill (f s) locations
  | move s lanes => move (f s) lanes
  | cz s zone => cz (f s) zone
  | localR s axis rotation locations => localR (f s) axis rotation locations
  | globalR s axis rotation => globalR (f s) axis rotation
  | localRz s rotation locations => localRz (f s) rotation locations
  | globalRz s rotation => globalRz (f s) rotation
  | endMeasure s zones => endMeasure (f s) zones
  | getFutureResult future zone => getFutureResult (f future) zone
  | getZoneIndex zone location => getZoneIndex zone location
  | constant value => constant value
  | newList items => newList (items.map f)
  | getItem list index => getItem (f list) (f index)
  | setDetector measurements coordinates => setDetector (f measurements) coordinates
  | setObservable measurements index => setObservable (f measurements) index

def locations : Op → List Location
  | fill _ locations => locations
  | localR _ _ _ locations => locations
  | localRz _ _ locations => locations
  | getZoneIndex _ location => [location]
  | _ => []

def lanes : Op → List Lane
  | move _ lanes => lanes
  | _ => []

def zones : Op → List Zone
  | cz _ zone => [zone]
  | getFutureResult _ zone => [zone]
  | getZoneIndex zone _ => [zone]
  | endMeasure _ zones => zones
  | _ => []

/-- Whether the operation yields an atom state that an analysis records. -/
def producesState (op : Op) : Bool := op = load || op.stateInput?.isSome

end Op

structure Statement where
  result : Var
  op : Op
  deriving DecidableEq

inductive Terminator where
  | jump (target : Label) (args : List Var)
  | branch (cond : Var) (thenTarget : Label) (thenArgs : List Var)
      (elseTarget : Label) (elseArgs : List Var)
  | ret (value : Var)
  deriving DecidableEq

namespace Terminator

def successors : Terminator → List (Label × List Var)
  | jump target args => [(target, args)]
  | branch _ thenTarget thenArgs elseTarget elseArgs =>
    [(thenTarget, thenArgs), (elseTarget, elseArgs)]
  | ret _ => []

def operands : Terminator → List Var
  | jump _ args => args
  | branch cond _ thenArgs _ elseArgs => cond :: thenArgs ++ elseArgs
  | ret value => [value]

def rename (f : Var → Var) : Terminator → Terminator
  | jump target args => jump target (args.map f)
  | branch cond thenTarget thenArgs elseTarget elseArgs =>
    branch (f cond) thenTarget (thenArgs.map f) elseTarget (elseArgs.map f)
  | ret value => ret (f value)

def text : Terminator → String
  | jump target _ => "jump " ++ target.text
  | branch cond thenTarget _ elseTarget _ =>
    "branch " ++ cond.text ++ " ? " ++ thenTarget.text ++ " : " ++ elseTarget.text
  | ret value => "return " ++ value.text

end Terminator

structure Block where
  params : List Var
  statements : List Statement
  terminator : Terminator
  deriving DecidableEq

structure Program where
  blocks : List Block
  numValues : Nat
  deriving DecidableEq

inductive ProgramError where
  | missingTerminator (block : Label)
  | duplicateTerminator (block : Label)
  | unknownBlock (block : Label)
  | unknownValue (value : Var)
  | argumentMismatch (target : Label) (expected got : Nat)
  | qubitOutOfRange (qubit : Qubit) (numQubits : Nat)
  deriving DecidableEq

def ProgramError.message : ProgramError → String
  | missingTerminator block => "Block " ++ block.text ++ " has no terminator"
  | duplicateTerminator block => "Block " ++ block.text ++ " already has a terminator"
  | unknownBlock block => "Unknown block " ++ block.text
  | unknownValue value => "Unknown value " ++ value.text
  | argumentMismatch target expected got =>
    "Block " ++ target.text ++ " takes " ++ toString expected ++ " arguments, got " ++ toString got
  | qubitOutOfRange qubit numQubits =>
    "Qubit " ++ qubit.text ++ " out of range for a " ++ toString numQubits ++ "-qubit program"

def Block.mentions (b : Block) : List Var :=
  b.params ++ (b.statements.flatMap fun s => s.result :: s.op.operands) ++ b.terminator.operands

namespace Program

variable (p : Program)

def block? (b : Label) : Option Block := p.blocks[b]?

def numStatements : Nat := (p.blocks.map fun b => b.statements.length).foldl (· + ·) 0

def statements : List (Point × Statement) :=
  p.blocks.zipIdx.flatMap fun (block, b) =>
    block.statements.zipIdx.map fun (s, i) => (⟨b, i⟩, s)

def statement? (point : Point) : Option Statement :=
  (p.block? point.block).bind fun b => b.statements[point.index]?

/-- The program with every operand renamed; results and parameters keep their numbers. -/
def rename (f : Var → Var) : Program :=
  { p with
    blocks := p.blocks.map fun b =>
      { b with
        statements := b.statements.map fun s => { s with op := s.op.rename f }
        terminator := b.terminator.rename f } }

def replaceUses (old new : Var) : Program := p.rename fun v => if v = old then new else v

def edgeFault? (edge : Label × List Var) : Option ProgramError :=
  match p.block? edge.1 with
  | none => some (.unknownBlock edge.1)
  | some target =>
    if target.params.length ≠ edge.2.length then
      some (.argumentMismatch edge.1 target.params.length edge.2.length)
    else none

def blockFault? (b : Block) : Option ProgramError :=
  (b.mentions.find? fun v => p.numValues ≤ v).map .unknownValue
    <|> b.terminator.successors.findSome? p.edgeFault?

def check : Except ProgramError Unit :=
  if p.blocks.isEmpty then .error (.unknownBlock 0)
  else
    match p.blocks.findSome? p.blockFault? with
    | some fault => .error fault
    | none => .ok ()

def ofBlocks (blocks : List Block) (numValues : Nat) : Except ProgramError Program :=
  let p : Program := ⟨blocks, numValues⟩
  p.check.map fun _ => p

def text : String :=
  String.join (p.blocks.zipIdx.map fun (block, b) =>
    Label.text b ++ "(" ++ ", ".intercalate (block.params.map Var.text) ++ "):\n" ++
      String.join (block.statements.map fun s =>
        "  " ++ s.result.text ++ " = " ++ s.op.name ++ "(" ++
          ", ".intercalate (s.op.operands.map Var.text) ++ ")\n") ++
      "  " ++ block.terminator.text ++ "\n")

end Program

end AtomTransport
