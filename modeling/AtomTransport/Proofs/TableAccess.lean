import AtomTransport.Proofs.PostFixpoint

/-!
# Access to the table of values

The analysis keeps one value for every number below the number of values of the program, and looks values up
as if the table had no end. `guardedRun` is the same analysis with a check before every access: what a
statement reads and writes, what a terminator reads, and both sides of every argument that is passed. The
check of the program is all that these checks need, so the two analyses never differ.
-/

namespace AtomTransport

variable {g : LaneGraph} {p : Program} {b : Label} {block : Block}

/-- The values that a terminator reads itself, beside the arguments that it passes on. -/
def Terminator.reads : Terminator → List Var
  | jump _ _ => []
  | branch cond _ _ _ _ => [cond]
  | ret value => [value]

theorem Terminator.reads_subset_operands (t : Terminator) : t.reads ⊆ t.operands := by
  cases t <;> simp [reads, operands]

namespace Analysis

namespace Work

def guard (w : Work) (vs : List Var) : Except AnalysisError Unit :=
  match vs.find? fun v => w.known.values.length ≤ v with
  | some v => .error (.program (.unknownValue v))
  | none => .ok ()

theorem guard_eq_ok {w : Work} {vs : List Var} (h : ∀ v ∈ vs, v < w.known.values.length) :
    w.guard vs = .ok () := by
  have hfind : vs.find? (fun v => w.known.values.length ≤ v) = none := by
    simpa using h
  rw [guard, hfind]

def Sized (p : Program) (w : Work) : Prop := w.known.values.length = p.numValues

namespace Sized

variable {w w' : Work} {s : Statement} {point : Point}

theorem of_known (h : w.Sized p) (hvalues : w'.known.values = w.known.values) : w'.Sized p := by
  rwa [Sized, hvalues]

theorem write (h : w.Sized p) (x : Value) (v : Var) (bs : List Label) :
    ((w.setValue v x).enqueueAll bs).Sized p := by
  have hset : (w.setValue v x).Sized p := List.length_set.trans h
  apply hset.of_known
  rw [(enqueueAll_fields _ _).1]

theorem runStatement (h : w.Sized p) (hrun : w.runStatement g p point s = .ok w') : w'.Sized p := by
  obtain ⟨x, _, hw'⟩ := runStatement_eq_ok hrun
  have hrecord : (w.record point s.op x).Sized p := h.of_known (record_fields point s.op x).1
  obtain ⟨-, rfl⟩ | rfl := hw'
  · exact hrecord
  · exact hrecord.write _ _ _

theorem runStatements (h : w.Sized p) {statements : List (Statement × Nat)}
    (hrun : statements.foldlM (fun w (s, i) => w.runStatement g p ⟨b, i⟩ s) w = .ok w') : w'.Sized p :=
  foldlM_preserves (fun _ _ _ hw hrun => hw.runStatement hrun) h hrun

theorem bindParam {step : Work × Bool} (h : step.1.Sized p) (binding : Var × Var) :
    (bindParam p step binding).1.Sized p := by
  obtain ⟨w, changed⟩ := step
  obtain ⟨param, arg⟩ := binding
  obtain ⟨⟨w', changed'⟩, hbind⟩ : ∃ step, Work.bindParam p (w, changed) (param, arg) = step := ⟨_, rfl⟩
  rw [hbind]
  rcases bindParam_eq hbind with ⟨-, rfl, -⟩ | ⟨rfl, -⟩
  · exact h
  · exact h.write _ _ _

theorem bindParams {step : Work × Bool} (h : step.1.Sized p) (bindings : List (Var × Var)) :
    (bindings.foldl (Work.bindParam p) step).1.Sized p :=
  List.foldlRecOn bindings _ (motive := fun step : Work × Bool => step.1.Sized p) h
    fun _ hstep binding _ => hstep.bindParam binding

theorem followEdge (h : w.Sized p) (edge : Label × List Var) : (w.followEdge p edge).Sized p := by
  cases htarget : p.block? edge.1 with
  | none => simpa only [Work.followEdge, htarget] using h
  | some target =>
    obtain ⟨mid, flag, hfold, hfollow⟩ := followEdge_eq (w := w) htarget
    have hmid : mid.Sized p := by
      have hbound : Sized p ((target.params.zip edge.2).foldl (Work.bindParam p)
          (w, !w.visited.contains edge.1)).1 := bindParams h _
      rwa [hfold] at hbound
    rw [hfollow]
    split_ifs
    · exact hmid.of_known (congrArg _ (enqueue_fields mid edge.1).1)
    · exact hmid

theorem leave (h : w.Sized p) (t : Terminator) : (w.leave t).Sized p := by
  cases t <;> exact h.of_known rfl

theorem visit (h : w.Sized p) (hvisit : Work.visit g p w b = .ok w') : w'.Sized p := by
  cases hblock : p.block? b with
  | none =>
    simp only [Work.visit, hblock] at hvisit
    cases hvisit
    exact h.of_known rfl
  | some block =>
    obtain ⟨mid, hfold, rfl⟩ := visit_eq_ok hblock hvisit
    have hmark : (w.mark b).Sized p := h.of_known rfl
    have hmid := hmark.runStatements hfold
    apply Sized.leave
    exact List.foldlRecOn _ _ (motive := Sized p) hmid fun _ hw edge _ => hw.followEdge edge

theorem initial (p : Program) : (initial p).Sized p :=
  (length_foldl_set _ _).trans List.length_replicate

end Sized

end Work

namespace Guarded

def runStatement (g : LaneGraph) (p : Program) (w : Work) (point : Point) (s : Statement) :
    Except AnalysisError Work := do
  w.guard (s.op.operands ++ [s.result])
  w.runStatement g p point s

def bindParam (p : Program) (step : Work × Bool) (binding : Var × Var) :
    Except AnalysisError (Work × Bool) := do
  step.1.guard [binding.2, binding.1]
  .ok (Work.bindParam p step binding)

def followEdge (p : Program) (w : Work) (edge : Label × List Var) : Except AnalysisError Work :=
  match p.block? edge.1 with
  | none => .ok w
  | some target => do
    let (w, changed) ←
      (target.params.zip edge.2).foldlM (bindParam p) (w, !w.visited.contains edge.1)
    .ok (if changed then w.enqueue edge.1 else w)

def visit (g : LaneGraph) (p : Program) (w : Work) (b : Label) : Except AnalysisError Work :=
  match p.block? b with
  | none => .ok (w.mark b)
  | some block => do
    let w ← block.statements.zipIdx.foldlM (fun w (s, i) => runStatement g p w ⟨b, i⟩ s) (w.mark b)
    w.guard block.terminator.reads
    let w ← (block.terminator.takenEdges w.known.value).foldlM (followEdge p) w
    .ok (w.leave block.terminator)

def run (g : LaneGraph) (p : Program) (cap : Nat) : Nat → Work → Except AnalysisError Work
  | 0, w => if w.queue.isEmpty then .ok w else .error (.visitLimit cap)
  | remaining + 1, w =>
    match w.queue with
    | [] => .ok w
    | b :: rest => do run g p cap remaining (← visit g p { w with queue := rest } b)

variable {w : Work}

section

variable (hwf : p.WellFormed)
include hwf

theorem runStatement_eq {s : Statement} (hw : w.Sized p) (hblock : block ∈ p.blocks)
    (hs : s ∈ block.statements) (point : Point) :
    runStatement g p w point s = w.runStatement g p point s := by
  have hguard : w.guard (s.op.operands ++ [s.result]) = .ok () := by
    apply Work.guard_eq_ok
    rw [hw, List.forall_mem_append, List.forall_mem_singleton]
    exact ⟨fun v hv => hwf.operand_lt hblock hs hv, hwf.result_lt hblock hs⟩
  rw [runStatement, hguard, ok_bind]

theorem followEdge_eq {edge : Label × List Var} (hw : w.Sized p) (hblock : block ∈ p.blocks)
    (hedge : edge ∈ block.terminator.successors) : followEdge p w edge = .ok (w.followEdge p edge) := by
  obtain ⟨target, htarget, _⟩ := hwf.edges block hblock edge hedge
  have hbind : ∀ binding ∈ target.params.zip edge.2, ∀ step : Work × Bool, step.1.Sized p →
      bindParam p step binding = .ok (Work.bindParam p step binding) := by
    intro binding hbinding step hstep
    obtain ⟨hparam, harg⟩ := List.of_mem_zip hbinding
    have hguard : step.1.guard [binding.2, binding.1] = .ok () := by
      apply Work.guard_eq_ok
      rw [hstep, List.forall_mem_cons, List.forall_mem_singleton]
      exact ⟨hwf.terminator_lt hblock (Terminator.mem_operands_of_mem_successors hedge harg),
        hwf.param_lt (Program.mem_blocks htarget) hparam⟩
    rw [bindParam, hguard, ok_bind]
  have hfold : (target.params.zip edge.2).foldlM (bindParam p) (w, !w.visited.contains edge.1) =
      .ok ((target.params.zip edge.2).foldl (Work.bindParam p) (w, !w.visited.contains edge.1)) := by
    refine (foldlM_congr_of_preserves hbind ?_ hw).trans List.foldlM_pure
    intro step binding step' hstep heq
    cases heq
    exact hstep.bindParam binding
  simp only [followEdge, Work.followEdge, htarget, hfold, ok_bind]

theorem visit_eq (hw : w.Sized p) (b : Label) : visit g p w b = w.visit g p b := by
  cases hblock : p.block? b with
  | none =>
    simp only [visit, Work.visit, hblock]
    rfl
  | some block =>
    have hmem := Program.mem_blocks hblock
    have hmark : (w.mark b).Sized p := hw.of_known rfl
    have hstatements : block.statements.zipIdx.foldlM
        (fun w (s, i) => runStatement g p w ⟨b, i⟩ s) (w.mark b) =
        block.statements.zipIdx.foldlM (fun w (s, i) => w.runStatement g p ⟨b, i⟩ s) (w.mark b) := by
      refine foldlM_congr_of_preserves ?_ (fun _ _ _ hw hrun => hw.runStatement hrun) hmark
      intro e he w hw
      exact runStatement_eq hwf hw hmem (List.fst_mem_of_mem_zipIdx he) _
    rw [Work.visit_of_block hblock]
    simp only [visit, hblock, hstatements]
    cases hmid : block.statements.zipIdx.foldlM (fun w (s, i) => w.runStatement g p ⟨b, i⟩ s) (w.mark b) with
    | error e => rfl
    | ok mid =>
      have hsized := hmark.runStatements hmid
      have hguard : mid.guard block.terminator.reads = .ok () := by
        apply Work.guard_eq_ok
        intro v hv
        rw [hsized]
        exact hwf.terminator_lt hmem (block.terminator.reads_subset_operands hv)
      have hedges : (block.terminator.takenEdges mid.known.value).foldlM (followEdge p) mid =
          .ok ((block.terminator.takenEdges mid.known.value).foldl (Work.followEdge p) mid) := by
        refine (foldlM_congr_of_preserves ?_ ?_ hsized).trans List.foldlM_pure
        · intro edge hedge w hw
          exact followEdge_eq hwf hw hmem (Terminator.mem_takenEdges_iff.mp hedge).mem_successors
        · intro w edge w' hw heq
          cases heq
          exact hw.followEdge edge
      simp only [ok_bind, hguard, hedges]

theorem run_eq (hw : w.Sized p) (cap remaining : Nat) :
    run g p cap remaining w = Work.run g p cap remaining w := by
  induction remaining generalizing w with
  | zero => rfl
  | succ remaining ih =>
    cases hqueue : w.queue with
    | nil => simp only [run, Work.run, hqueue]
    | cons b rest =>
      have hrest : Work.Sized p { w with queue := rest } := hw.of_known rfl
      simp only [run, Work.run, hqueue, visit_eq hwf hrest]
      cases hvisit : Work.visit g p { w with queue := rest } b with
      | error e => rfl
      | ok next => exact ih (hrest.visit hvisit)

end

end Guarded

/-- The analysis with a check before every access to the table. -/
def guardedRun (g : LaneGraph) (p : Program) (cap : Nat) : Except AnalysisError Analysis := do
  p.check.mapError .program
  (Work.initial p).guard (((p.block? 0).map (·.params)).getD [])
  let w ← Guarded.run g p cap cap (Work.initial p)
  .ok w.known

/-- No check of the guarded analysis ever fails. -/
theorem guardedRun_eq (g : LaneGraph) (p : Program) (cap : Nat) : guardedRun g p cap = run g p cap := by
  cases hcheck : p.check with
  | error e =>
    simp only [guardedRun, run, hcheck, Except.mapError, error_bind]
  | ok =>
    have hwf := Program.wellFormed_of_check hcheck
    have hw := Work.Sized.initial p
    obtain ⟨entry, hentry⟩ := hwf.entry
    have hguard : (Work.initial p).guard entry.params = .ok () := by
      apply Work.guard_eq_ok
      rw [hw]
      exact fun v hv => hwf.param_lt (Program.mem_blocks hentry) hv
    simp only [guardedRun, run, hcheck, Except.mapError, hentry, Option.map_some, Option.getD_some, hguard,
      ok_bind, Guarded.run_eq hwf hw]

end Analysis

end AtomTransport
