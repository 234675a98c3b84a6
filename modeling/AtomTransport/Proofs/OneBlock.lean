import AtomTransport.Proofs.PostFixpoint

/-!
# The analysis of a single block

A block that returns at its end is visited once, and if every statement defines a value of its own and reads
only what was defined before, the visit writes every value once. So the analysis of a program of one such
block is the solution of its equations, one for each statement: the analysis gives a result exactly if there
is a solution, and then all its values are those of the solution.
-/

namespace AtomTransport

theorem Value.eq_bottom_of_same {x : Value} (h : bottom.same x = true) : x = bottom := by
  cases x <;> first | rfl | cases h

namespace Op

def detector? (x : Value) : Op → Option Detector
  | setDetector _ coordinates => some ⟨x, coordinates⟩
  | _ => none

def observable? (x : Value) : Op → Option Observable
  | setObservable _ index => some ⟨x, index⟩
  | _ => none

end Op

namespace Block

def detectors (b : Block) (env : Var → Value) : List Detector :=
  b.statements.filterMap fun s => s.op.detector? (env s.result)

def observables (b : Block) (env : Var → Value) : List Observable :=
  b.statements.filterMap fun s => s.op.observable? (env s.result)

/-- The equations of a block that is entered with anything: each statement gives its result, and no other
value is known. -/
structure Solves (g : LaneGraph) (b : Block) (env : Var → Value) : Prop where
  params : ∀ v ∈ b.params, env v = .unknown
  results : ∀ s ∈ b.statements, s.op.eval g env = .ok (env s.result)
  others : ∀ v, v ∉ b.params → v ∉ b.statements.map (·.result) → env v = .bottom

end Block

/-- Every statement defines a value of its own and reads none that itself or a later one defines. -/
def InOrder : List Statement → Prop
  | [] => True
  | s :: rest => s.result ∉ rest.map (·.result) ∧
      (∀ v ∈ s.op.operands, v ∉ (s :: rest).map (·.result)) ∧ InOrder rest

theorem inOrder_of_pairwise {statements : List Statement} (hnodup : (statements.map (·.result)).Nodup)
    (hown : ∀ s ∈ statements, s.result ∉ s.op.operands)
    (hlater : statements.Pairwise fun s t => t.result ∉ s.op.operands) : InOrder statements := by
  induction statements with
  | nil => trivial
  | cons s rest ih =>
    obtain ⟨hs, hnodup⟩ := List.nodup_cons.mp hnodup
    obtain ⟨hsown, hown⟩ := List.forall_mem_cons.mp hown
    obtain ⟨hslater, hlater⟩ := List.pairwise_cons.mp hlater
    refine ⟨hs, fun v hv hmem => ?_, ih hnodup hown hlater⟩
    rcases List.mem_cons.mp hmem with rfl | hmem
    · exact hsown hv
    · obtain ⟨t, ht, rfl⟩ := List.mem_map.mp hmem
      exact hslater t ht hv

theorem Program.block?_zero {p : Program} {b : Block} (h : p.blocks = [b]) : p.block? 0 = some b := by
  rw [block?, h]
  rfl

/-- What a visit of a block relies on: its statements are in order and leave the parameters alone. -/
structure Block.Sequential (b : Block) : Prop where
  inOrder : InOrder b.statements
  params : ∀ s ∈ b.statements, s.result ∉ b.params

theorem Program.SingleAssignment.sequential {p : Program} {b : Block} (hp : p.SingleAssignment)
    (hb : b ∈ p.blocks) : b.Sequential where
  inOrder := inOrder_of_pairwise (List.nodup_append.mp (hp.nodup hb)).2.1 (hp.ordered b hb).own
    (hp.ordered b hb).later
  params _ hs hparam := hp.result_ne_param hb hb hs hparam rfl

namespace Analysis.Work

variable {g : LaneGraph} {p : Program} {w w' : Work} {s : Statement} {rest : List Statement} {k : Nat}

section Declarations

variable {α : Type} {records : List (Point × α)}

def declare (point : Point) (o : Option α) (records : List (Point × α)) : List (Point × α) :=
  match o with
  | some d => Ascending.put point d records
  | none => records

theorem declare_eq_append (h : ∀ e ∈ records, e.1 < ⟨0, k⟩) (o : Option α) :
    declare ⟨0, k⟩ o records = records ++ o.toList.map fun d => (⟨0, k⟩, d) := by
  cases o with
  | none => exact (List.append_nil _).symm
  | some d => exact Ascending.put_eq_append h d

theorem map_snd_declare (h : ∀ e ∈ records, e.1 < ⟨0, k⟩) (o : Option α) :
    (declare ⟨0, k⟩ o records).map (·.2) = records.map (·.2) ++ o.toList := by
  rw [declare_eq_append h, List.map_append, List.map_map]
  exact congrArg _ (List.map_id _)

theorem declare_lt (h : ∀ e ∈ records, e.1 < ⟨0, k⟩) (o : Option α) :
    ∀ e ∈ declare ⟨0, k⟩ o records, e.1 < ⟨0, k + 1⟩ := by
  rw [declare_eq_append h, List.forall_mem_append]
  refine ⟨fun e he => lt_next (h e he), fun e he => ?_⟩
  obtain ⟨d, -, rfl⟩ := List.mem_map.mp he
  exact point_lt k

end Declarations

theorem record_declarations (w : Work) (point : Point) (op : Op) (x : Value) :
    (w.record point op x).known.detectors = declare point (op.detector? x) w.known.detectors ∧
      (w.record point op x).known.observables = declare point (op.observable? x) w.known.observables := by
  cases op <;> exact ⟨rfl, rfl⟩

/-- The visit of the entry before the statements from the `k`-th one on, which have no values yet. -/
structure Ready (rest : List Statement) (k : Nat) (w : Work) : Prop where
  queue : w.queue = []
  visited : w.visited = [0]
  returned : w.known.returned = .bottom
  scope : ∀ s ∈ rest, s.result < w.known.values.length
  unwritten : ∀ s ∈ rest, w.known.value s.result = .bottom
  detectors_lt : ∀ e ∈ w.known.detectors, e.1 < ⟨0, k⟩
  observables_lt : ∀ e ∈ w.known.observables, e.1 < ⟨0, k⟩

structure Performs (g : LaneGraph) (statements : List Statement) (w w' : Work) : Prop where
  frame : ∀ v, v ∉ statements.map (·.result) → w'.known.value v = w.known.value v
  results : ∀ s ∈ statements, s.op.eval g w'.known.value = .ok (w'.known.value s.result)
  detectors : w'.known.detectors.map (·.2) = w.known.detectors.map (·.2) ++
    statements.filterMap fun s => s.op.detector? (w'.known.value s.result)
  observables : w'.known.observables.map (·.2) = w.known.observables.map (·.2) ++
    statements.filterMap fun s => s.op.observable? (w'.known.value s.result)

theorem exists_runStatement {x : Value} (h : s.op.eval g w.known.value = .ok x) (point : Point) :
    ∃ w', w.runStatement g p point s = .ok w' := by
  simp only [runStatement, h, Except.mapError, ok_bind]
  split_ifs
  · exact ⟨_, rfl⟩
  · exact ⟨_, rfl⟩

/-- In the visit of the entry a statement writes its value, unless it has it already, and sends no block back
into the queue. -/
theorem runStatement_of_visited (hvisited : w.visited = [0]) (h : w.runStatement g p ⟨0, k⟩ s = .ok w') :
    ∃ x, s.op.eval g w.known.value = .ok x ∧
      ((w.known.value s.result).same x = true ∧ w' = w.record ⟨0, k⟩ s.op x ∨
        w' = (w.record ⟨0, k⟩ s.op x).setValue s.result x) := by
  obtain ⟨x, heval, hw'⟩ := runStatement_eq_ok h
  have hnone : ((p.users s.result).filter fun c => c ≠ 0 && w.visited.contains c) = [] := by
    rw [hvisited, List.filter_eq_nil_iff]
    simp
  rw [hnone] at hw'
  exact ⟨x, heval, hw'⟩

theorem Ready.runStatement (h : Ready (s :: rest) k w) (horder : InOrder (s :: rest))
    (hrun : w.runStatement g p ⟨0, k⟩ s = .ok w') :
    Ready rest (k + 1) w' ∧ s.op.eval g w.known.value = .ok (w'.known.value s.result) ∧
      w'.known.detectors.map (·.2) =
        w.known.detectors.map (·.2) ++ (s.op.detector? (w'.known.value s.result)).toList ∧
      w'.known.observables.map (·.2) =
        w.known.observables.map (·.2) ++ (s.op.observable? (w'.known.value s.result)).toList := by
  obtain ⟨hlt, hscope⟩ := List.forall_mem_cons.mp h.scope
  obtain ⟨hbottom, hunwritten⟩ := List.forall_mem_cons.mp h.unwritten
  obtain ⟨x, heval, hw'⟩ := runStatement_of_visited h.visited hrun
  obtain ⟨hvalues, hreturned, hqueue, hvisited⟩ := record_fields (w := w) ⟨0, k⟩ s.op x
  obtain ⟨hdetectors, hobservables⟩ := record_declarations w ⟨0, k⟩ s.op x
  have hother : ∀ t ∈ rest, w'.known.value t.result = .bottom := by
    intro t ht
    have hne : t.result ≠ s.result := fun heq => horder.1 (heq ▸ List.mem_map_of_mem ht)
    rw [runStatement_value_of_ne hne hrun, hunwritten t ht]
  have hresult : w'.known.value s.result = x := by
    rcases hw' with ⟨hsame, rfl⟩ | rfl
    · rw [value_record, hbottom]
      rw [hbottom] at hsame
      exact (Value.eq_bottom_of_same hsame).symm
    · exact value_setValue_self (hvalues ▸ hlt)
  have hfields : w'.queue = w.queue ∧ w'.visited = w.visited ∧ w'.known.returned = w.known.returned ∧
      w'.known.values.length = w.known.values.length ∧
      w'.known.detectors = declare ⟨0, k⟩ (s.op.detector? x) w.known.detectors ∧
      w'.known.observables = declare ⟨0, k⟩ (s.op.observable? x) w.known.observables := by
    rcases hw' with ⟨-, rfl⟩ | rfl
    · exact ⟨hqueue, hvisited, hreturned, congrArg _ hvalues, hdetectors, hobservables⟩
    · exact ⟨hqueue, hvisited, hreturned, by simp [setValue, hvalues], hdetectors, hobservables⟩
  obtain ⟨hqueue, hvisited, hreturned, hlength, hdetectors, hobservables⟩ := hfields
  rw [hresult, hdetectors, hobservables]
  refine ⟨⟨hqueue.trans h.queue, hvisited.trans h.visited, hreturned.trans h.returned, hlength ▸ hscope,
    hother, hdetectors ▸ declare_lt h.detectors_lt _, hobservables ▸ declare_lt h.observables_lt _⟩, heval,
    map_snd_declare h.detectors_lt _, map_snd_declare h.observables_lt _⟩

/-- The statements of the block are evaluated in order. Since no statement reads what a later one defines, the
value that it finds is still right at the end. -/
theorem Ready.runStatements (h : Ready rest k w) (horder : InOrder rest)
    (hrun : (rest.zipIdx k).foldlM (fun w (s, i) => w.runStatement g p ⟨0, i⟩ s) w = .ok w') :
    Ready [] (k + rest.length) w' ∧ Performs g rest w w' := by
  induction rest generalizing k w with
  | nil =>
    cases hrun
    exact ⟨h, fun _ _ => rfl, fun _ hs => absurd hs List.not_mem_nil, (List.append_nil _).symm,
      (List.append_nil _).symm⟩
  | cons s rest ih =>
    rw [List.zipIdx_cons, List.foldlM_cons] at hrun
    obtain ⟨mid, hmid, hrun⟩ := bind_eq_ok.mp hrun
    obtain ⟨hready, heval, hdetectors, hobservables⟩ := h.runStatement horder hmid
    obtain ⟨hend, hrest⟩ := ih hready horder.2.2 hrun
    have hframe : ∀ v, v ∉ (s :: rest).map (·.result) → w'.known.value v = w.known.value v := by
      intro v hv
      rw [List.map_cons, List.mem_cons, not_or] at hv
      rw [hrest.frame v hv.2, runStatement_value_of_ne hv.1 hmid]
    have hresult := hrest.frame s.result horder.1
    refine ⟨by rwa [List.length_cons, Nat.add_comm rest.length, ← Nat.add_assoc], hframe, ?_, ?_, ?_⟩
    -- No operand is written by this or a later statement: the final values are those that were read.
    · refine List.forall_mem_cons.mpr ⟨?_, hrest.results⟩
      rw [Op.eval_congr fun v hv => hframe v (horder.2.1 v hv), heval, hresult]
    · rw [hrest.detectors, hdetectors, ← hresult, List.append_assoc, List.filterMap_cons]
      cases s.op.detector? (w'.known.value s.result) <;> rfl
    · rw [hrest.observables, hobservables, ← hresult, List.append_assoc, List.filterMap_cons]
      cases s.op.observable? (w'.known.value s.result) <;> rfl

/-- If the equations of the statements have a solution, then all statements can be evaluated, and the solution
is what they give. -/
theorem Ready.exists_runStatements (h : Ready rest k w) (horder : InOrder rest) {env : Var → Value}
    (hframe : ∀ v, v ∉ rest.map (·.result) → env v = w.known.value v)
    (hresults : ∀ s ∈ rest, s.op.eval g env = .ok (env s.result)) :
    ∃ w', (rest.zipIdx k).foldlM (fun w (s, i) => w.runStatement g p ⟨0, i⟩ s) w = .ok w' ∧
      w'.known.value = env := by
  induction rest generalizing k w with
  | nil => exact ⟨w, rfl, funext fun v => (hframe v List.not_mem_nil).symm⟩
  | cons s rest ih =>
    obtain ⟨hs, hrest⟩ := List.forall_mem_cons.mp hresults
    rw [Op.eval_congr fun v hv => hframe v (horder.2.1 v hv)] at hs
    obtain ⟨mid, hmid⟩ := exists_runStatement (p := p) hs ⟨0, k⟩
    obtain ⟨hready, heval, -⟩ := h.runStatement horder hmid
    have hvalue : env s.result = mid.known.value s.result := Except.ok.inj (hs.symm.trans heval)
    have hmidframe : ∀ v, v ∉ rest.map (·.result) → env v = mid.known.value v := by
      intro v hv
      by_cases heq : v = s.result
      · rw [heq, hvalue]
      · rw [hframe v (by simp [heq, hv]), runStatement_value_of_ne heq hmid]
    obtain ⟨w', hw', henv⟩ := ih hready horder.2.2 hmidframe hrest
    refine ⟨w', ?_, henv⟩
    rw [List.zipIdx_cons, List.foldlM_cons]
    exact bind_eq_ok.mpr ⟨mid, hmid, hw'⟩

theorem Ready.initial {b : Block} (hwf : p.WellFormed) (hblocks : p.blocks = [b]) (hb : b.Sequential) :
    Ready b.statements 0 (mark { initial p with queue := [] } 0) := by
  have hentry := Program.block?_zero hblocks
  have hmem := Program.mem_blocks hentry
  have hlength : (Work.initial p).known.values.length = p.numValues :=
    (length_foldl_set _ _).trans List.length_replicate
  refine ⟨rfl, rfl, rfl, fun s hs => ?_, fun s hs => ?_, by rintro _ ⟨⟩, by rintro _ ⟨⟩⟩
  · exact hlength ▸ hwf.result_lt hmem hs
  · refine (initial_value hentry s.result).trans (if_neg ?_)
    exact fun hparam => hb.params s hs hparam.1

theorem visit_of_ret {b : Block} {v : Var} (hblocks : p.blocks = [b]) (hret : b.terminator = .ret v) :
    visit g p w 0 = b.statements.zipIdx.foldlM (fun w (s, i) => w.runStatement g p ⟨0, i⟩ s) (w.mark 0) >>=
      fun mid => .ok (mid.leave (.ret v)) := by
  have hentry := Program.block?_zero hblocks
  rw [visit_of_block hentry, hret]
  rfl

end Analysis.Work

namespace Analysis

variable {g : LaneGraph} {p : Program} {b : Block} {v : Var} {cap : Nat}

section

variable (hblocks : p.blocks = [b]) (hb : b.Sequential) (hret : b.terminator = .ret v)
include hblocks hb hret

/-- An analysis of a block solves its equations, and returns and declares what the solution says. -/
theorem solves_of_run {a : Analysis} (h : Analysis.run g p cap = .ok a) : b.Solves g a.value ∧
    a.returned = a.value v ∧ a.detectors.map (·.2) = b.detectors a.value ∧
    a.observables.map (·.2) = b.observables a.value := by
  obtain ⟨hwf, w, hw, rfl⟩ := run_eq_ok h
  have hentry := Program.block?_zero hblocks
  have hready := Work.Ready.initial hwf hblocks hb
  obtain ⟨cap, rfl⟩ := Nat.exists_eq_add_of_le' (one_le_of_run h)
  obtain ⟨w', hvisit, hw⟩ := bind_eq_ok.mp hw
  rw [Work.visit_of_ret hblocks hret] at hvisit
  obtain ⟨mid, hmid, hvisit⟩ := bind_eq_ok.mp hvisit
  cases hvisit
  obtain ⟨hend, hperforms⟩ := hready.runStatements hb.inOrder hmid
  rw [Work.run_of_queue_eq_nil (w := mid.leave (.ret v)) hend.queue] at hw
  cases hw
  refine ⟨⟨fun u hu => ?_, hperforms.results, fun u hu hresult => ?_⟩, ?_, hperforms.detectors,
    hperforms.observables⟩
  · have hne : u ∉ b.statements.map (·.result) := by
      intro hmem
      obtain ⟨s, hs, rfl⟩ := List.mem_map.mp hmem
      exact hb.params s hs hu
    refine (hperforms.frame u hne).trans ((Work.initial_value hentry u).trans (if_pos ?_))
    exact ⟨hu, hwf.param_lt (Program.mem_blocks hentry) hu⟩
  · refine (hperforms.frame u hresult).trans ((Work.initial_value hentry u).trans (if_neg ?_))
    exact fun hparam => hu hparam.1
  · change mid.known.returned.join (mid.known.value v) = mid.known.value v
    rw [hend.returned, Value.join]

/-- Every solution of the equations of a block is found. -/
theorem exists_run_of_solves (hcheck : p.check = .ok ()) (hcap : 1 ≤ cap) {env : Var → Value}
    (henv : b.Solves g env) : ∃ a, Analysis.run g p cap = .ok a ∧ a.value = env := by
  have hwf := Program.wellFormed_of_check hcheck
  have hentry := Program.block?_zero hblocks
  have hready := Work.Ready.initial hwf hblocks hb
  have hframe : ∀ u, u ∉ b.statements.map (·.result) →
      env u = (Work.mark { Work.initial p with queue := [] } 0).known.value u := by
    intro u hu
    refine Eq.trans ?_ (Work.initial_value hentry u).symm
    by_cases hparam : u ∈ b.params
    · rw [if_pos ⟨hparam, hwf.param_lt (Program.mem_blocks hentry) hparam⟩, henv.params u hparam]
    · rw [if_neg fun h => hparam h.1, henv.others u hparam hu]
  obtain ⟨mid, hmid, rfl⟩ := hready.exists_runStatements (p := p) hb.inOrder hframe henv.results
  obtain ⟨hend, -⟩ := hready.runStatements hb.inOrder hmid
  obtain ⟨cap, rfl⟩ := Nat.exists_eq_add_of_le' hcap
  refine ⟨(mid.leave (.ret v)).known, ?_, Work.value_leave mid _⟩
  have hvisit : Work.visit g p { Work.initial p with queue := [] } 0 = .ok (mid.leave (.ret v)) := by
    rw [Work.visit_of_ret hblocks hret]
    exact bind_eq_ok.mpr ⟨mid, hmid, rfl⟩
  have hrun : Work.run g p (cap + 1) (cap + 1) (Work.initial p) = .ok (mid.leave (.ret v)) :=
    bind_eq_ok.mpr ⟨_, hvisit, Work.run_of_queue_eq_nil (w := mid.leave (.ret v)) hend.queue _ _⟩
  simp only [Analysis.run, hcheck, Except.mapError, ok_bind, hrun]

end

end Analysis

end AtomTransport
