import AtomTransport.Compiler
import AtomTransport.Proofs.Ascending
import AtomTransport.Proofs.Failure

/-!
# Programs of one block

In a block whose statement `i` defines value `i`, each statement reads earlier values only. `Executes`
follows such a block statement by statement. The analysis visits it once, finds the same values and
the same declared trees in program order, and the passes around the analysis change nothing.
-/

namespace AtomTransport

structure Trace where
  values : List Value := []
  detectors : List Value := []
  observables : List Value := []

namespace Trace

variable (t : Trace)

def value (v : Var) : Value := t.values.getD v .bottom

def push (op : Op) (x : Value) : Trace :=
  match op with
  | .setDetector _ _ => ⟨t.values ++ [x], t.detectors ++ [x], t.observables⟩
  | .setObservable _ _ => ⟨t.values ++ [x], t.detectors, t.observables ++ [x]⟩
  | _ => { t with values := t.values ++ [x] }

def extend (xs : List Value) : Trace := { t with values := t.values ++ xs }

variable {t}

@[simp] theorem values_push (op : Op) (x : Value) : (t.push op x).values = t.values ++ [x] := by
  cases op <;> rfl

@[simp] theorem extend_nil : t.extend [] = t := by
  simp [extend]

theorem extend_extend (xs ys : List Value) : (t.extend xs).extend ys = t.extend (xs ++ ys) := by
  simp [extend]

theorem value_eq {v : Var} {x : Value} (h : t.values[v]? = some x) : t.value v = x := by
  rw [value, List.getD_eq_getElem?_getD, h]
  rfl

theorem getElem?_extend {v : Var} {x : Value} (h : t.values[v]? = some x) (xs : List Value) :
    (t.extend xs).values[v]? = some x := by
  have hlt := (List.getElem?_eq_some_iff.mp h).1
  exact (List.getElem?_append_left hlt).trans h

def Yields (ops : List Op) (t : Trace) (point : Point) (x : Value) : Prop :=
  ∃ i op, point = ⟨0, i⟩ ∧ ops[i]? = some op ∧ op.producesState = true ∧ t.values[i]? = some x

theorem not_yields_length {ops : List Op} {x : Value} : ¬ t.Yields ops ⟨0, ops.length⟩ x := by
  rintro ⟨i, op, hpoint, hi, _⟩
  cases hpoint
  simp at hi

theorem yields_push {ops : List Op} (hlength : t.values.length = ops.length) {op : Op} {x y : Value}
    {point : Point} : (t.push op x).Yields (ops ++ [op]) point y ↔
      if point = ⟨0, ops.length⟩ then op.producesState = true ∧ y = x else t.Yields ops point y := by
  have hlast : (t.values ++ [x])[ops.length]? = some x := hlength ▸ List.getElem?_concat_length
  by_cases hpoint : point = ⟨0, ops.length⟩
  · rw [if_pos hpoint, Yields, values_push]
    constructor
    · rintro ⟨i, op', heq, hi, hop, hv⟩
      cases hpoint.symm.trans heq
      rw [List.getElem?_concat_length] at hi
      cases hi
      cases hlast.symm.trans hv
      exact ⟨hop, rfl⟩
    · rintro ⟨hop, rfl⟩
      exact ⟨ops.length, op, hpoint, List.getElem?_concat_length, hop, hlast⟩
  · rw [if_neg hpoint, Yields, Yields, values_push]
    constructor
    · rintro ⟨i, op', rfl, hi, hop, hv⟩
      have hlt : i < ops.length := by
        have hle := (List.getElem?_eq_some_iff.mp hi).1
        rw [List.length_append, List.length_singleton] at hle
        have hne : i ≠ ops.length := fun heq => hpoint (by rw [heq])
        omega
      rw [List.getElem?_append_left hlt] at hi
      rw [List.getElem?_append_left (hlength ▸ hlt)] at hv
      exact ⟨i, op', rfl, hi, hop, hv⟩
    · rintro ⟨i, op', rfl, hi, hop, hv⟩
      have hlt := (List.getElem?_eq_some_iff.mp hi).1
      refine ⟨i, op', rfl, ?_, hop, ?_⟩
      · rw [List.getElem?_append_left hlt, hi]
      · rw [List.getElem?_append_left (hlength ▸ hlt), hv]

end Trace

/-- The statements can be executed one after another with the given trace: all operands are defined,
an operation on atoms has atoms to act on, all addresses exist, and no move is empty. -/
inductive Executes (g : LaneGraph) : List Op → Trace → Prop where
  | nil : Executes g [] {}
  | snoc {ops : List Op} {t : Trace} {x : Value} (h : Executes g ops t) (op : Op)
      (scope : ∀ v ∈ op.operands, v < ops.length) (moves : op.isEmptyMove = false)
      (addresses : Program.addressFaults g.device op = [])
      (acts : ∀ v, op.stateInput? = some v → ∃ a, (t.value v).atoms? = some a)
      (eval : op.eval g t.value = .ok x) :
      Executes g (ops ++ [op]) (t.push op x)

def Program.straightLine (ops : List Op) (value : Var) : Program :=
  ⟨[⟨[], ops.zipIdx.map fun (op, i) => ⟨i, op⟩, .ret value⟩], ops.length⟩

theorem Draft.finish_straight (ops : List Op) (value : Var) :
    ((straight ops).terminate (.ret value) >>= finish) =
      Program.ofBlocks (Program.straightLine ops value).blocks ops.length := rfl

namespace Executes

variable {g : LaneGraph} {ops : List Op} {t : Trace}

theorem length_values (h : Executes g ops t) : t.values.length = ops.length := by
  induction h with
  | nil => rfl
  | snoc _ _ _ _ _ _ _ ih => simp [ih]

theorem scope (h : Executes g ops t) : ∀ op ∈ ops, ∀ v ∈ op.operands, v < ops.length := by
  induction h with
  | nil => simp
  | snoc _ _ hscope _ _ _ _ ih =>
    intro op hop v hv
    rw [List.length_append]
    rcases List.mem_append.mp hop with hop | hop
    · exact Nat.lt_of_lt_of_le (ih op hop v hv) (Nat.le_add_right _ _)
    · rw [List.mem_singleton.mp hop] at hv
      exact Nat.lt_of_lt_of_le (hscope v hv) (Nat.le_add_right _ _)

theorem addresses (h : Executes g ops t) :
    ∀ op ∈ ops, op.isEmptyMove = false ∧ Program.addressFaults g.device op = [] := by
  induction h with
  | nil => simp
  | snoc _ _ _ hmoves haddresses _ _ ih =>
    intro op hop
    rcases List.mem_append.mp hop with hop | hop
    · exact ih op hop
    · rw [List.mem_singleton.mp hop]
      exact ⟨hmoves, haddresses⟩

end Executes

namespace Analysis.Work

structure At (n : Nat) (ops : List Op) (t : Trace) (w : Work) : Prop where
  values : w.known.values = t.values ++ List.replicate (n - ops.length) .bottom
  returned : w.known.returned = .bottom
  detectors : w.known.detectors.map (·.2.measurements) = t.detectors
  observables : w.known.observables.map (·.2.measurements) = t.observables
  detectors_lt : ∀ e ∈ w.known.detectors, e.1 < ⟨0, ops.length⟩
  observables_lt : ∀ e ∈ w.known.observables, e.1 < ⟨0, ops.length⟩
  states : ∀ point x, w.known.stateAt? point = some x ↔ t.Yields ops point x
  queue : w.queue = []
  visited : w.visited = [0]

variable {g : LaneGraph} {n : Nat} {ops : List Op} {t : Trace} {w : Work}

theorem At.value_eq (h : At n ops t w) : w.known.value = t.value := by
  funext v
  rw [Analysis.value, h.values, Trace.value, List.getD_eq_getElem?_getD, List.getD_eq_getElem?_getD]
  by_cases hv : v < t.values.length
  · rw [List.getElem?_append_left hv]
  · have hle := Nat.le_of_not_lt hv
    rw [List.getElem?_append_right hle, List.getElem?_eq_none hle, List.getElem?_replicate]
    split_ifs <;> rfl

theorem record_fields (point : Point) (op : Op) (x : Value) :
    (w.record point op x).known.values = w.known.values ∧
      (w.record point op x).known.returned = w.known.returned ∧
      (w.record point op x).queue = w.queue ∧ (w.record point op x).visited = w.visited := by
  cases op <;> exact ⟨rfl, rfl, rfl, rfl⟩

theorem states_record (point : Point) (op : Op) (x : Value) : (w.record point op x).known.states =
    if op.producesState = true then Ascending.put point x w.known.states else w.known.states := by
  cases op <;> rfl

theorem stateAt?_record (point point' : Point) (op : Op) (x : Value) :
    (w.record point op x).known.stateAt? point' =
      if point' = point ∧ op.producesState = true then some x else w.known.stateAt? point' := by
  rw [Analysis.stateAt?, Analysis.stateAt?, states_record]
  by_cases hop : op.producesState = true <;> by_cases hpoint : point' = point
  · simp [hop, hpoint]
  · simp [hop, hpoint, Ascending.get?_put_of_ne hpoint]
  · simp [hop]
  · simp [hop]

theorem lt_next {e : Point} {k : Nat} (h : e < ⟨0, k⟩) : e < ⟨0, k + 1⟩ := by
  rcases h with hblock | ⟨hblock, hindex⟩
  · exact absurd hblock (Nat.not_lt_zero _)
  · exact Or.inr ⟨hblock, Nat.lt_succ_of_lt hindex⟩

theorem point_lt (k : Nat) : (⟨0, k⟩ : Point) < ⟨0, k + 1⟩ := Or.inr ⟨rfl, Nat.lt_succ_self k⟩

theorem At.record (h : At n ops t w) (op : Op) (x : Value) :
    (w.record ⟨0, ops.length⟩ op x).known.detectors.map (·.2.measurements) =
        (t.push op x).detectors ∧
      (w.record ⟨0, ops.length⟩ op x).known.observables.map (·.2.measurements) =
        (t.push op x).observables ∧
      (∀ e ∈ (w.record ⟨0, ops.length⟩ op x).known.detectors, e.1 < ⟨0, ops.length + 1⟩) ∧
      ∀ e ∈ (w.record ⟨0, ops.length⟩ op x).known.observables, e.1 < ⟨0, ops.length + 1⟩ := by
  have hdetectors := fun e he => lt_next (h.detectors_lt e he)
  have hobservables := fun e he => lt_next (h.observables_lt e he)
  by_cases hd : ∃ v coordinates, op = .setDetector v coordinates
  · obtain ⟨v, coordinates, rfl⟩ := hd
    have hput := Ascending.put_eq_append h.detectors_lt (⟨x, coordinates⟩ : Detector)
    refine ⟨?_, h.observables, ?_, hobservables⟩
    · change (Ascending.put _ _ w.known.detectors).map _ = t.detectors ++ [x]
      rw [hput, List.map_append, h.detectors]
      rfl
    · change ∀ e ∈ Ascending.put _ _ w.known.detectors, _
      rw [hput]
      intro e he
      rcases List.mem_append.mp he with he | he
      · exact hdetectors e he
      · rw [List.mem_singleton.mp he]
        exact point_lt _
  · by_cases ho : ∃ v index, op = .setObservable v index
    · obtain ⟨v, index, rfl⟩ := ho
      have hput := Ascending.put_eq_append h.observables_lt (⟨x, index⟩ : Observable)
      refine ⟨h.detectors, ?_, hdetectors, ?_⟩
      · change (Ascending.put _ _ w.known.observables).map _ = t.observables ++ [x]
        rw [hput, List.map_append, h.observables]
        rfl
      · change ∀ e ∈ Ascending.put _ _ w.known.observables, _
        rw [hput]
        intro e he
        rcases List.mem_append.mp he with he | he
        · exact hobservables e he
        · rw [List.mem_singleton.mp he]
          exact point_lt _
    · cases op with
      | setDetector v coordinates => exact absurd ⟨v, coordinates, rfl⟩ hd
      | setObservable v index => exact absurd ⟨v, index, rfl⟩ ho
      | _ => exact ⟨h.detectors, h.observables, hdetectors, hobservables⟩

theorem At.stateAt?_record (h : At n ops t w) (hlength : t.values.length = ops.length) (op : Op)
    (x : Value) (point : Point) (y : Value) :
    (w.record ⟨0, ops.length⟩ op x).known.stateAt? point = some y ↔
      (t.push op x).Yields (ops ++ [op]) point y := by
  rw [Trace.yields_push hlength, ← h.states, Work.stateAt?_record]
  by_cases hpoint : point = ⟨0, ops.length⟩
  · have hnone := mt (h.states point y).mp (hpoint ▸ Trace.not_yields_length)
    by_cases hop : op.producesState = true
    · simp [hpoint, hop, eq_comm]
    · simp only [hpoint, hop, and_false, false_and, if_false, if_true, Bool.false_eq_true]
      exact iff_of_false (hpoint ▸ hnone) not_false
  · simp only [hpoint, false_and, if_false]

/-- The value of a statement is new or was nothing before; in both cases it is written down, and no
block is sent back into the queue. -/
theorem At.runStatement (h : At n ops t w) (hn : ops.length < n) (hlength : t.values.length = ops.length)
    {op : Op} {x : Value} (heval : op.eval g t.value = .ok x) (p : Program) :
    ∃ w', w.runStatement g p ⟨0, ops.length⟩ ⟨ops.length, op⟩ = .ok w' ∧
      At n (ops ++ [op]) (t.push op x) w' := by
  obtain ⟨hvalues, hreturned, hqueue, hvisited⟩ := record_fields (w := w) ⟨0, ops.length⟩ op x
  obtain ⟨hdet, hobs, hdetlt, hobslt⟩ := h.record op x
  have hset : (t.values ++ List.replicate (n - ops.length) Value.bottom).set ops.length x =
      (t.push op x).values ++ List.replicate (n - (ops ++ [op]).length) .bottom := by
    obtain ⟨m, hm⟩ : ∃ m, n - ops.length = m + 1 := ⟨n - ops.length - 1, by omega⟩
    have hm' : n - (ops ++ [op]).length = m := by
      rw [List.length_append, List.length_singleton]
      omega
    rw [hm, hm', Trace.values_push, List.replicate_succ, ← hlength,
      List.set_append_right _ _ (Nat.le_refl _)]
    simp
  have hdone : ∀ w' : Work,
      w'.known.values = (w.record ⟨0, ops.length⟩ op x).known.values.set ops.length x →
      w'.known.returned = (w.record ⟨0, ops.length⟩ op x).known.returned →
      w'.known.detectors = (w.record ⟨0, ops.length⟩ op x).known.detectors →
      w'.known.observables = (w.record ⟨0, ops.length⟩ op x).known.observables →
      w'.known.states = (w.record ⟨0, ops.length⟩ op x).known.states →
      w'.queue = (w.record ⟨0, ops.length⟩ op x).queue →
      w'.visited = (w.record ⟨0, ops.length⟩ op x).visited → At n (ops ++ [op]) (t.push op x) w' := by
    intro w' h₁ h₂ h₃ h₄ hstates h₅ h₆
    refine ⟨?_, ?_, ?_, ?_, ?_, ?_, ?_, ?_, ?_⟩
    · rw [h₁, hvalues, h.values, hset]
    · rw [h₂, hreturned, h.returned]
    · rw [h₃, hdet]
    · rw [h₄, hobs]
    · rw [h₃, List.length_append, List.length_singleton]
      exact hdetlt
    · rw [h₄, List.length_append, List.length_singleton]
      exact hobslt
    · intro point y
      rw [Analysis.stateAt?, hstates]
      exact h.stateAt?_record hlength op x point y
    · rw [h₅, hqueue, h.queue]
    · rw [h₆, hvisited, h.visited]
  unfold Work.runStatement
  simp only [h.value_eq, heval, Except.mapError, ok_bind]
  split_ifs with hsame
  · refine ⟨_, rfl, hdone _ ?_ rfl rfl rfl rfl rfl rfl⟩
    have hbottom : (w.record ⟨0, ops.length⟩ op x).known.value ops.length = .bottom := by
      rw [Analysis.value, hvalues, h.values, List.getD_eq_getElem?_getD,
        List.getElem?_append_right (Nat.le_of_eq hlength), List.getElem?_replicate]
      split_ifs <;> rfl
    rw [hbottom] at hsame
    have hx : x = .bottom := by
      cases x <;> simp [Value.same] at hsame ⊢
    rw [hvalues, h.values, hlength.symm, hx, List.set_append_right _ _ (Nat.le_refl _)]
    simp
  · have hnone : (p.users ops.length).filter (fun b => b ≠ 0 &&
        (w.record ⟨0, ops.length⟩ op x).visited.contains b) = [] := by
      refine List.filter_eq_nil_iff.mpr ?_
      intro b _
      rw [hvisited, h.visited]
      simp
    rw [hnone]
    exact ⟨_, rfl, hdone _ rfl rfl rfl rfl rfl rfl rfl⟩

theorem foldlM_runStatement (h : Executes g ops t) (hn : ops.length ≤ n) (p : Program)
    (hw : At n [] {} w) :
    ∃ w', (ops.zipIdx.map fun (op, i) => (⟨i, op⟩ : Statement)).zipIdx.foldlM
        (fun w (s, i) => w.runStatement g p ⟨0, i⟩ s) w = .ok w' ∧ At n ops t w' := by
  induction h with
  | nil => exact ⟨w, rfl, hw⟩
  | @snoc ops t x hexec op _ _ _ _ heval ih =>
    rw [List.length_append, List.length_singleton] at hn
    obtain ⟨mid, hfold, hmid⟩ := ih (Nat.le_of_succ_le hn)
    obtain ⟨w', hrun, hw'⟩ := hmid.runStatement hn hexec.length_values heval p
    refine ⟨w', ?_, hw'⟩
    simp only [List.zipIdx_append, List.map_append, List.foldlM_append, hfold, ok_bind,
      List.zipIdx_cons, List.zipIdx_nil, List.map_cons, List.map_nil, List.length_map,
      List.length_zipIdx, Nat.zero_add, List.foldlM_cons, hrun, List.foldlM_nil]
    rfl

end Analysis.Work

theorem Program.mem_statements_straightLine {ops : List Op} {value : Var} {e : Point × Statement} :
    e ∈ (straightLine ops value).statements ↔
      ∃ i op, ops[i]? = some op ∧ e = (⟨0, i⟩, ⟨i, op⟩) := by
  have hstatements : (straightLine ops value).statements =
      (ops.zipIdx.map fun (op, i) => (⟨i, op⟩ : Statement)).zipIdx.map fun (s, i) => (⟨0, i⟩, s) := by
    simp [statements, straightLine]
  rw [hstatements, List.mem_map]
  constructor
  · rintro ⟨⟨s, i⟩, hmem, rfl⟩
    rw [List.mem_zipIdx_iff_getElem?, List.getElem?_map, List.getElem?_zipIdx] at hmem
    simp only [Option.map_map, Option.map_eq_some_iff, Function.comp_apply, Nat.zero_add] at hmem
    obtain ⟨op, hop, rfl⟩ := hmem
    exact ⟨i, op, hop, rfl⟩
  · rintro ⟨i, op, hop, rfl⟩
    refine ⟨(⟨i, op⟩, i), ?_, rfl⟩
    rw [List.mem_zipIdx_iff_getElem?, List.getElem?_map, List.getElem?_zipIdx, hop]
    simp

theorem Analysis.one_le_of_run {g : LaneGraph} {p : Program} {a : Analysis} {cap : Nat}
    (h : Analysis.run g p cap = .ok a) : 1 ≤ cap := by
  cases cap with
  | zero =>
    obtain ⟨_, _, h⟩ := bind_eq_ok.mp h
    obtain ⟨_, h, _⟩ := bind_eq_ok.mp h
    cases h
  | succ cap => omega

namespace Executes

variable {g : LaneGraph} {ops : List Op} {t : Trace} {value : Var}

theorem check_straightLine (h : Executes g ops t) (hv : value < ops.length) :
    (Program.straightLine ops value).check = .ok () := by
  have hmentions : ∀ v ∈ (⟨[], ops.zipIdx.map fun (op, i) => ⟨i, op⟩, .ret value⟩ : Block).mentions,
      v < ops.length := by
    intro v hmem
    simp only [Block.mentions, List.nil_append, List.mem_append, List.mem_flatMap, List.mem_map,
      Terminator.operands, List.mem_singleton] at hmem
    rcases hmem with ⟨_, ⟨⟨op, i⟩, hop, rfl⟩, hmem⟩ | rfl
    · rw [List.mem_zipIdx_iff_getElem?] at hop
      rcases List.mem_cons.mp hmem with rfl | hmem
      · exact (List.getElem?_eq_some_iff.mp hop).1
      · exact h.scope op (List.mem_of_getElem? hop) v hmem
    · exact hv
  have hfind : (⟨[], ops.zipIdx.map fun (op, i) => ⟨i, op⟩, .ret value⟩ : Block).mentions.find?
      (fun v => ops.length ≤ v) = none := by
    rw [List.find?_eq_none]
    intro v hmem
    simpa using hmentions v hmem
  simp only [Program.check, Program.straightLine, List.isEmpty_cons, Bool.false_eq_true, if_false,
    List.findSome?_cons, List.findSome?_nil, Program.blockFault?, hfind, Option.map_none,
    Terminator.successors]
  rfl

/-- The analysis of a block finds the values of its trace, what it returns, its declarations, and the
states that its statements yield. -/
theorem analysis_run (h : Executes g ops t) (hv : value < ops.length) {cap : Nat} (hcap : 1 ≤ cap) :
    ∃ a, Analysis.run g (Program.straightLine ops value) cap = .ok a ∧ a.values = t.values ∧
      a.returned = t.value value ∧ a.detectors.map (·.2.measurements) = t.detectors ∧
      a.observables.map (·.2.measurements) = t.observables ∧
      ∀ point x, a.stateAt? point = some x ↔ t.Yields ops point x := by
  obtain ⟨cap, rfl⟩ : ∃ m, cap = m + 1 := ⟨cap - 1, by omega⟩
  have hstart : Analysis.Work.At ops.length [] {}
      ⟨⟨List.replicate ops.length .bottom, [], .bottom, [], []⟩, [], [0]⟩ :=
    ⟨rfl, rfl, rfl, rfl, by simp, by simp, by simp [Trace.Yields, Analysis.stateAt?, Ascending.get?],
      rfl, rfl⟩
  obtain ⟨w, hfold, hw⟩ := Analysis.Work.foldlM_runStatement h (Nat.le_refl _)
    (Program.straightLine ops value) hstart
  have hvisit : Analysis.Work.visit g (Program.straightLine ops value)
      ⟨⟨List.replicate ops.length .bottom, [], .bottom, [], []⟩, [], []⟩ 0 =
      .ok (w.leave (.ret value)) := by
    simp only [Analysis.Work.visit, Program.block?, Program.straightLine, List.getElem?_cons_zero]
    exact bind_eq_ok.mpr ⟨w, hfold, rfl⟩
  refine ⟨(w.leave (.ret value)).known, ?_, ?_, ?_, hw.detectors, hw.observables, hw.states⟩
  · have hinitial : Analysis.Work.initial (Program.straightLine ops value) =
        ⟨⟨List.replicate ops.length .bottom, [], .bottom, [], []⟩, [0], []⟩ := rfl
    have hempty : (w.leave (.ret value)).queue = [] := hw.queue
    rw [Analysis.run, h.check_straightLine hv, hinitial]
    simp only [Except.mapError, ok_bind, Analysis.Work.run, hvisit]
    cases cap with
    | zero => simp only [Analysis.Work.run, hempty]; rfl
    | succ cap => simp only [Analysis.Work.run, hempty]; rfl
  · change w.known.values = _
    rw [hw.values, Nat.sub_self, List.replicate_zero, List.append_nil]
  · change w.known.returned.join (w.known.value value) = _
    rw [hw.returned, hw.value_eq, Value.join]

/-- Around the analysis no pass changes or refuses the block. -/
theorem runPasses_straightLine {c : Compiler} (h : Executes c.graph ops t) :
    c.runPasses (Program.straightLine ops value) =
      ((Analysis.run c.graph (Program.straightLine ops value) c.config.maxVisits).mapError
        .analysis).map fun a => (Program.straightLine ops value, a) := by
  have hdrop : Pass.dropEmptyMoves.applies (Program.straightLine ops value) = false := by
    rw [Pass.dropEmptyMoves, List.any_eq_false]
    intro e he
    obtain ⟨i, op, hop, rfl⟩ := Program.mem_statements_straightLine.mp he
    simp [(h.addresses op (List.mem_of_getElem? hop)).1]
  have hdiagnostics : (Program.straightLine ops value).diagnostics c.graph.device = [] := by
    rw [Program.diagnostics, List.flatMap_eq_nil_iff]
    intro e he
    obtain ⟨i, op, hop, rfl⟩ := Program.mem_statements_straightLine.mp he
    simp [(h.addresses op (List.mem_of_getElem? hop)).2]
  unfold Compiler.runPasses Pass.standard
  cases hrun : Analysis.run c.graph (Program.straightLine ops value) c.config.maxVisits <;>
    cases c.config.validate <;>
    simp [Pass.runAll, hdrop, Pass.addressValidation, Pass.atomAnalysis, Facts.requireGraph,
      Facts.insert, Facts.take, hdiagnostics, hrun, Except.mapError, Except.map]

end Executes

end AtomTransport
