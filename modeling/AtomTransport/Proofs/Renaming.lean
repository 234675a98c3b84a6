import AtomTransport.Pass
import AtomTransport.Proofs.SingleAssignment

/-!
# Renaming of operands

A renaming acts on the operands of operations and terminators and on nothing beside them. What is beside the
operands is the frame; an operation is determined by its frame and its operands, so that renamings compose.
An operation with renamed operands is evaluated like the operation itself where every value is looked up under
its new name.
-/

namespace AtomTransport

namespace Op

variable {f g : Var → Var}

/-- The operation with `0` in place of every operand. -/
def frame : Op → Op
  | load => load
  | fill _ locations => fill 0 locations
  | move _ lanes => move 0 lanes
  | cz _ zone => cz 0 zone
  | localR _ axis rotation locations => localR 0 axis rotation locations
  | globalR _ axis rotation => globalR 0 axis rotation
  | localRz _ rotation locations => localRz 0 rotation locations
  | globalRz _ rotation => globalRz 0 rotation
  | endMeasure _ zones => endMeasure 0 zones
  | getFutureResult _ zone => getFutureResult 0 zone
  | getZoneIndex zone location => getZoneIndex zone location
  | constant value => constant value
  | newList items => newList (List.replicate items.length 0)
  | getItem _ _ => getItem 0 0
  | setDetector _ coordinates => setDetector 0 coordinates
  | setObservable _ index => setObservable 0 index

theorem eq_of_frame_eq {a b : Op} (hframe : a.frame = b.frame) (hoperands : a.operands = b.operands) :
    a = b := by
  cases a with
  | newList items =>
    cases b with
    | newList others => exact congrArg newList hoperands
    | _ => cases hframe
  | _ =>
    cases b with
    | newList items => cases hframe
    | _ => cases hframe <;> cases hoperands <;> rfl

@[simp] theorem operands_rename (op : Op) : (op.rename f).operands = op.operands.map f := by
  cases op <;> rfl

@[simp] theorem stateInput?_rename (op : Op) : (op.rename f).stateInput? = op.stateInput?.map f := by
  cases op <;> rfl

@[simp] theorem frame_rename (op : Op) : (op.rename f).frame = op.frame := by
  cases op <;> simp [rename, frame]

@[simp] theorem isEmptyMove_rename (op : Op) : (op.rename f).isEmptyMove = op.isEmptyMove := by
  cases op <;> rfl

@[simp] theorem rename_rename (op : Op) : (op.rename f).rename g = op.rename (g ∘ f) :=
  eq_of_frame_eq (by simp) (by simp)

@[simp] theorem rename_id (op : Op) : op.rename (fun v => v) = op :=
  eq_of_frame_eq (by simp) (by simp)

theorem eval_rename (d : LaneGraph) (env : Var → Value) (op : Op) :
    (op.rename f).eval d env = op.eval d (env ∘ f) := by
  cases op with
  | newList items => simp [rename, eval, stateInput?]
  | _ => rfl

end Op

namespace Terminator

variable {f g : Var → Var}

/-- The terminator with `0` in place of every operand. -/
def frame : Terminator → Terminator
  | jump target args => jump target (List.replicate args.length 0)
  | branch _ thenTarget thenArgs elseTarget elseArgs =>
    branch 0 thenTarget (List.replicate thenArgs.length 0) elseTarget (List.replicate elseArgs.length 0)
  | ret _ => ret 0

@[simp] theorem operands_rename (t : Terminator) : (t.rename f).operands = t.operands.map f := by
  cases t <;> simp [rename, operands]

@[simp] theorem successors_rename (t : Terminator) :
    (t.rename f).successors = t.successors.map fun edge => (edge.1, edge.2.map f) := by
  cases t <;> rfl

/-- The edges tell the two argument lists of a branch apart, which stand behind each other in its operands. -/
theorem eq_of_successors_eq {s t : Terminator} (hoperands : s.operands = t.operands)
    (hsuccessors : s.successors = t.successors) : s = t := by
  cases s <;> cases t <;> simp_all [operands, successors]

@[simp] theorem frame_rename (t : Terminator) : (t.rename f).frame = t.frame := by
  cases t <;> simp [rename, frame]

theorem exists_edge_of_frame_eq {s t : Terminator} (h : t.frame = s.frame) {edge : Label × List Var}
    (hedge : edge ∈ t.successors) :
    ∃ edge' ∈ s.successors, edge'.1 = edge.1 ∧ edge'.2.length = edge.2.length := by
  have hframe : ∀ t : Terminator,
      t.frame.successors.map (fun e => (e.1, e.2.length)) = t.successors.map fun e => (e.1, e.2.length) := by
    intro t
    cases t <;> simp [frame, successors]
  have hmem := List.mem_map_of_mem (f := fun e => (e.1, e.2.length)) hedge
  rw [← hframe t, h, hframe s] at hmem
  simpa using hmem

@[simp] theorem rename_rename (t : Terminator) : (t.rename f).rename g = t.rename (g ∘ f) := by
  cases t <;> simp [rename]

@[simp] theorem rename_id (t : Terminator) : t.rename (fun v => v) = t := by
  cases t <;> simp [rename]

end Terminator

namespace Program

variable {p : Program} {f g : Var → Var}

@[simp] theorem rename_rename : (p.rename f).rename g = p.rename (g ∘ f) := by
  simp [rename]

@[simp] theorem rename_id : p.rename (fun v => v) = p := by
  simp [rename]

/-- Blocks can be rewritten as long as they keep their parameters and the frames of their terminators and
mention no new values. -/
theorem WellFormed.map (h : p.WellFormed) {F : Block → Block}
    (hparams : ∀ b ∈ p.blocks, (F b).params = b.params)
    (hframe : ∀ b ∈ p.blocks, (F b).terminator.frame = b.terminator.frame)
    (hscope : ∀ b ∈ p.blocks, ∀ v ∈ (F b).mentions, v < p.numValues) :
    WellFormed { p with blocks := p.blocks.map F } := by
  have hblock? : ∀ {l : Label} {b : Block}, p.block? l = some b →
      block? { p with blocks := p.blocks.map F } l = some (F b) := by
    intro l b hb
    rw [block?] at hb ⊢
    rw [List.getElem?_map, hb]
    rfl
  refine ⟨?_, List.forall_mem_map.mpr hscope, List.forall_mem_map.mpr fun b hb edge hedge => ?_⟩
  · obtain ⟨block, hblock⟩ := h.entry
    exact ⟨F block, hblock? hblock⟩
  · obtain ⟨edge', hedge', htarget, hlength⟩ := Terminator.exists_edge_of_frame_eq (hframe b hb) hedge
    obtain ⟨target, hb', hparams'⟩ := h.edges b hb edge' hedge'
    refine ⟨F target, htarget ▸ hblock? hb', ?_⟩
    rw [hparams target (mem_blocks hb'), hparams', hlength]

end Program

end AtomTransport
