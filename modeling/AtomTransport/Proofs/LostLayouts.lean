import AtomTransport.Proofs.PostFixpoint

/-!
# Lost layouts

Where executions with different layouts meet, the parameter that they pass becomes `unknown`. An operation on
atoms that is given no layout has no value, so `bottom` is recorded for it and nothing is ever recorded as
`unknown`: the search for an unknown state among the records comes back empty after every analysis. What does
tell of a lost layout is the record of the statement that it is passed to, which is `bottom` exactly if the
operand is no layout at the end.
-/

namespace AtomTransport

namespace Op

variable {g : LaneGraph} {env : Var → Value} {op : Op} {x : Value}

/-- An operation on atoms yields nothing exactly if it is given no layout. -/
theorem eval_eq_bottom_iff {v : Var} (hinput : op.stateInput? = some v) (h : op.eval g env = .ok x) :
    x = .bottom ↔ (env v).atoms? = none := by
  rw [eval_of_stateInput? hinput] at h
  split at h
  next a ha => obtain ⟨b, rfl | rfl⟩ := evalAtoms_eq_ok h <;> simp [ha]
  next hnone =>
    cases h
    simp [hnone]

theorem isUnknown_of_eval (hop : op.producesState = true) (h : op.eval g env = .ok x) :
    x.isUnknown = false := by
  cases hinput : op.stateInput? with
  | none =>
    obtain rfl : op = .load := by simpa [producesState, hinput] using hop
    cases h
    rfl
  | some v =>
    rw [eval_of_stateInput? hinput] at h
    split at h
    · obtain ⟨b, rfl | rfl⟩ := evalAtoms_eq_ok h <;> rfl
    · cases h
      rfl

end Op

namespace Analysis

variable {g : LaneGraph} {p : Program} {a : Analysis} {b : Label}

theorem hasUnknownState_eq_false_iff :
    a.hasUnknownState = false ↔ ∀ e ∈ a.states, e.2.isUnknown = false := by
  simp [hasUnknownState]

theorem Records.stateAt? {point : Point} {x : Value} {op : Op} {v : Var} (h : a.Records point x op)
    (hinput : op.stateInput? = some v) : a.stateAt? point = some x := by
  cases op <;> simp_all [Records, Op.stateInput?, Op.producesState]

namespace Work

variable {w w' : Work}

section States

theorem states_write (v : Var) (x : Value) (bs : List Label) :
    ((w.setValue v x).enqueueAll bs).known.states = w.known.states := by
  rw [(enqueueAll_fields _ _).1]
  rfl

theorem states_bindParam (step : Work × Bool) (binding : Var × Var) :
    (bindParam p step binding).1.known.states = step.1.known.states := by
  rw [bindParam]
  split_ifs
  · rfl
  · exact states_write _ _ _

theorem states_bindParams (bindings : List (Var × Var)) (step : Work × Bool) :
    (bindings.foldl (bindParam p) step).1.known.states = step.1.known.states :=
  List.foldlRecOn bindings _ (motive := fun s : Work × Bool => s.1.known.states = step.1.known.states) rfl
    fun _ hs binding _ => (states_bindParam _ binding).trans hs

theorem states_followEdge (w : Work) (edge : Label × List Var) :
    (w.followEdge p edge).known.states = w.known.states := by
  cases htarget : p.block? edge.1 with
  | none => simp only [followEdge, htarget]
  | some target =>
    obtain ⟨mid, flag, hfold, hfollow⟩ := followEdge_eq (w := w) htarget
    have hmid : mid.known.states = w.known.states := by
      rw [← states_bindParams (target.params.zip edge.2) (w, !w.visited.contains edge.1), hfold]
    rw [hfollow]
    split_ifs
    · rw [(enqueue_fields mid edge.1).1]
      exact hmid
    · exact hmid

theorem states_leave (w : Work) (t : Terminator) : (w.leave t).known.states = w.known.states := by
  cases t <;> rfl

end States

theorem runStatement_hasUnknownState {point : Point} {s : Statement} (hw : w.known.hasUnknownState = false)
    (h : w.runStatement g p point s = .ok w') : w'.known.hasUnknownState = false := by
  obtain ⟨x, heval, hw'⟩ := runStatement_eq_ok h
  have hstates : w'.known.states = (w.record point s.op x).known.states := by
    obtain ⟨-, rfl⟩ | rfl := hw'
    · rfl
    · exact states_write _ _ _
  rw [hasUnknownState_eq_false_iff] at hw ⊢
  rw [hstates, states_record]
  split_ifs with hop
  · intro e he
    rcases Ascending.mem_of_mem_put he with rfl | he
    · exact Op.isUnknown_of_eval hop heval
    · exact hw e he
  · exact hw

theorem visit_hasUnknownState (hw : w.known.hasUnknownState = false) (h : visit g p w b = .ok w') :
    w'.known.hasUnknownState = false := by
  cases hblock : p.block? b with
  | none =>
    simp only [visit, hblock] at h
    cases h
    exact hw
  | some block =>
    obtain ⟨mid, hfold, rfl⟩ := visit_eq_ok hblock h
    have hmark : (w.mark b).known.hasUnknownState = false := hw
    have hmid : mid.known.hasUnknownState = false :=
      foldlM_preserves (P := fun w : Work => w.known.hasUnknownState = false)
        (fun _ _ _ hw hrun => runStatement_hasUnknownState hw hrun) hmark hfold
    have hedges := List.foldlRecOn (block.terminator.takenEdges mid.known.value) (followEdge p)
      (motive := fun w : Work => w.known.states = mid.known.states) rfl
      fun w hw edge _ => (states_followEdge w edge).trans hw
    rw [hasUnknownState, states_leave, hedges]
    exact hmid

end Work

/-- No analysis records an unknown state. For programs in single assignment form, the state that is recorded
for a visited statement on atoms is the value of the statement, and it is `bottom` exactly if the operand is
no layout, as when it is unknown. -/
theorem run_states {cap : Nat} (h : Analysis.run g p cap = .ok a) :
    a.hasUnknownState = false ∧
      (p.SingleAssignment → p.NoNaN → ∃ w, Work.run g p cap cap (Work.initial p) = .ok w ∧ w.known = a ∧
        ∀ b ∈ w.visited, ∀ block, p.block? b = some block → ∀ i s, block.statements[i]? = some s →
          ∀ v, s.op.stateInput? = some v → ∃ x, a.stateAt? ⟨b, i⟩ = some x ∧
            (a.value s.result).same x = true ∧ (x = .bottom ↔ (a.value v).atoms? = none)) := by
  constructor
  · obtain ⟨-, w, hw, rfl⟩ := run_eq_ok h
    exact (Work.run_induction (P := fun w => w.known.hasUnknownState = false)
      (fun w _ rest _ hw _ hvisit => Work.visit_hasUnknownState (w := { w with queue := rest }) hw hvisit)
      rfl hw).1
  · intro hp hnan
    obtain ⟨hwf, w, hw, rfl⟩ := run_eq_ok h
    refine ⟨w, hw, rfl, ?_⟩
    intro b hb block hblock i s hs v hinput
    have hsettled := (Work.run_postFixpoint hp hnan hwf hw).settled b block hblock hb
    obtain ⟨x, heval, hsame, hrecords⟩ := hsettled.statements i s hs
    exact ⟨x, hrecords.stateAt? hinput, hsame, Op.eval_eq_bottom_iff hinput heval⟩

theorem exists_run_unevenMerge : ∃ w, Analysis.run oneWord unevenMerge 4 = .ok w.known ∧
    Work.run oneWord unevenMerge 4 4 (Work.initial unevenMerge) = .ok w ∧ 2 ∈ w.visited ∧
    w.known.value 4 = .unknown ∧ w.known.hasUnknownState = false := by
  have hrun : ((Work.run oneWord unevenMerge 4 4 (Work.initial unevenMerge)).toOption.any fun w =>
      w.visited.contains 2 && (w.known.value 4).isUnknown && !w.known.hasUnknownState) = true := by
    decide +kernel
  obtain ⟨w, hw, hlost⟩ := exists_ok_of_any hrun
  simp only [Bool.and_eq_true, List.contains_iff_mem, Bool.not_eq_true'] at hlost
  obtain ⟨⟨hvisited, hunknown⟩, hstate⟩ := hlost
  have hvalue : w.known.value 4 = .unknown := by
    revert hunknown
    cases w.known.value 4 <;> simp [Value.isUnknown]
  have hcheck : unevenMerge.check = .ok () := by decide
  refine ⟨w, ?_, hw, hvisited, hvalue, hstate⟩
  simp only [Analysis.run, hcheck, Except.mapError, ok_bind, hw]

/-- What is recorded where the last block rotates atoms whose layout is lost. -/
theorem run_states_unevenMerge : ∃ a, Analysis.run oneWord unevenMerge 4 = .ok a ∧
    a.hasUnknownState = false ∧ (a.value 4).atoms? = none ∧ a.stateAt? ⟨2, 0⟩ = some .bottom := by
  obtain ⟨w, hrun, hw, hvisited, hvalue, -⟩ := exists_run_unevenMerge
  obtain ⟨hnone, hstates⟩ := run_states hrun
  obtain ⟨w', hw', -, hrecords⟩ := hstates unevenMerge_singleAssignment unevenMerge_noNaN
  cases hw.symm.trans hw'
  obtain ⟨x, hx, -, hbottom⟩ := hrecords 2 hvisited _ rfl 0 _ rfl 4 rfl
  have hlost : (w.known.value 4).atoms? = none := by
    rw [hvalue]
    rfl
  rw [hbottom.mpr hlost] at hx
  exact ⟨w.known, hrun, hnone, hlost, hx⟩

/-- The last block rotates atoms whose layout is unknown, and no unknown state is found. -/
theorem lost_layout_unreported : unevenMerge.check = .ok () ∧
    (unevenMerge.statement? ⟨2, 0⟩).bind (·.op.stateInput?) = some 4 ∧
    ∃ w, Analysis.run oneWord unevenMerge 4 = .ok w.known ∧
      Work.run oneWord unevenMerge 4 4 (Work.initial unevenMerge) = .ok w ∧ 2 ∈ w.visited ∧
      w.known.value 4 = .unknown ∧ w.known.hasUnknownState = false :=
  ⟨by decide, by decide, exists_run_unevenMerge⟩

end Analysis

end AtomTransport
