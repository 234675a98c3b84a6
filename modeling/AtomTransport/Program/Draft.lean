import AtomTransport.Program

/-!
# Drafts of programs

A draft grows statement by statement. Blocks may be open side by side; new statements go to the
current block, and every new value gets the next free number. A call that can fail returns the draft
beside its outcome.
-/

namespace AtomTransport

structure DraftBlock where
  params : List Var := []
  statements : List Statement := []
  terminator : Option Terminator := none
  deriving DecidableEq

structure Draft where
  blocks : List DraftBlock := [{}]
  current : Label := 0
  nextValue : Nat := 0
  deriving DecidableEq

namespace Draft

def push (d : Draft) (op : Op) : Var × Draft :=
  (d.nextValue,
    { d with
      blocks := d.blocks.modify d.current fun b =>
        { b with statements := b.statements ++ [⟨d.nextValue, op⟩] }
      nextValue := d.nextValue + 1 })

/-- Opens a block with the given number of parameters. The current block stays the same. -/
def newBlock (d : Draft) (numParams : Nat) : (Label × List Var) × Draft :=
  let params := List.range' d.nextValue numParams
  ((d.blocks.length, params),
    { d with
      blocks := d.blocks ++ [{ params := params }]
      nextValue := d.nextValue + numParams })

def select (d : Draft) (b : Label) : Except ProgramError Unit × Draft :=
  if b < d.blocks.length then (.ok (), { d with current := b }) else (.error (.unknownBlock b), d)

def close (d : Draft) (t : Terminator) : Except ProgramError Unit × Draft :=
  match d.blocks[d.current]? with
  | none => (.error (.unknownBlock d.current), d)
  | some b =>
    if b.terminator.isSome then (.error (.duplicateTerminator d.current), d)
    else (.ok (), { d with
      blocks := d.blocks.modify d.current fun b => { b with terminator := some t } })

def switchTo (d : Draft) (b : Label) : Except ProgramError Draft :=
  (d.select b).1.map fun _ => (d.select b).2

def terminate (d : Draft) (t : Terminator) : Except ProgramError Draft :=
  (d.close t).1.map fun _ => (d.close t).2

def sealBlocks (blocks : List DraftBlock) : Except ProgramError (List Block) :=
  blocks.zipIdx.mapM fun (b, i) =>
    match b.terminator with
    | some t => .ok ⟨b.params, b.statements, t⟩
    | none => .error (.missingTerminator i)

def finish (d : Draft) : Except ProgramError Program := do
  Program.ofBlocks (← sealBlocks d.blocks) d.nextValue

/-- The draft whose only block is open and defines value `i` by the `i`-th operation. -/
def straight (ops : List Op) : Draft where
  blocks := [{ statements := ops.zipIdx.map fun (op, i) => ⟨i, op⟩ }]
  nextValue := ops.length

theorem push_straight (ops : List Op) (op : Op) :
    (straight ops).push op = (ops.length, straight (ops ++ [op])) := by
  simp [push, straight, List.zipIdx_append]

end Draft

end AtomTransport
