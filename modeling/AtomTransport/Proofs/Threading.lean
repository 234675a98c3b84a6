import AtomTransport.Proofs.Compilation
import AtomTransport.Proofs.SingleAssignment

/-!
# Lowering threads one atom state

Whatever placements and move layers it is given, lowering builds one block in which a statement reads only the
values of earlier statements. One chain of atom states goes through the block: it starts with the state without
atoms, and an operation on atoms takes the last state that there is. The moves are the move layers with lanes, and
every detector and observable of the gate program is declared once, in order.
-/

namespace AtomTransport

namespace Op

theorem producesState_eq_false_iff {op : Op} : op.producesState = false ↔ op ≠ .load ∧ op.stateInput? = none := by
  simp [producesState]

def filled? : Op → Option (List Location)
  | fill _ locations => some locations
  | _ => none

def moved? : Op → Option MoveLayer
  | move _ lanes => some ⟨lanes⟩
  | _ => none

end Op

inductive Declaration where
  | detector (coordinates : List Binary64)
  | observable (index : Nat)
  deriving DecidableEq

def Op.declaration? : Op → Option Declaration
  | setDetector _ coordinates => some (.detector coordinates)
  | setObservable _ index => some (.observable index)
  | _ => none

namespace GateLayer

/-- The declarations of some layers in order. The observables are numbered one after another from `n` on. -/
def declarations (n : Nat) : List GateLayer → List Declaration
  | [] => []
  | detector _ coordinates :: rest => .detector coordinates :: declarations n rest
  | observable _ :: rest => .observable n :: declarations (n + 1) rest
  | _ :: rest => declarations n rest

theorem declarations_append (n : Nat) (xs ys : List GateLayer) : declarations n (xs ++ ys) =
    declarations n xs ++ declarations (n + (xs.filterMap observable?).length) ys := by
  induction xs generalizing n with
  | nil => rfl
  | cons layer xs ih =>
    cases layer with
    | observable qubits =>
      simp only [List.cons_append, declarations, ih, observable?, List.filterMap_cons, List.length_cons]
      rw [Nat.add_assoc, Nat.add_comm 1]
    | _ => simp only [List.cons_append, declarations, ih, observable?, List.filterMap_cons]

end GateLayer

/-- Among the first `n` statements, the value is defined by the last one that yields a state. -/
structure LastState (ops : List Op) (n : Nat) (v : Var) : Prop where
  lt : v < n
  yields : ∃ op, ops[v]? = some op ∧ op.producesState = true
  last : ∀ (i : Nat) (op : Op), v < i → i < n → ops[i]? = some op → op.producesState = false

/-- The first statement and no other one starts with the state without atoms, and every operation on atoms takes
the last state before it. -/
structure SingleChain (ops : List Op) : Prop where
  start : ∀ i : Nat, ops[i]? = some .load ↔ i = 0
  takes : ∀ (i : Nat) (op : Op) (v : Var), ops[i]? = some op → op.stateInput? = some v → LastState ops i v

/-- The statements read earlier values only, and those that yield a state form a chain that ends in a value. -/
inductive Threaded : List Op → Var → Prop where
  | load : Threaded [.load] 0
  | act {ops : List Op} {state : Var} {op : Op} (h : Threaded ops state) (hinput : op.stateInput? = some state) :
      Threaded (ops ++ [op]) ops.length
  | read {ops : List Op} {state : Var} {op : Op} (h : Threaded ops state) (hyields : op.producesState = false)
      (hscope : ∀ v ∈ op.operands, v < ops.length) : Threaded (ops ++ [op]) state

theorem getElem?_snoc_eq_some {α : Type} {xs : List α} {x y : α} {i : Nat} :
    (xs ++ [x])[i]? = some y ↔ xs[i]? = some y ∨ i = xs.length ∧ x = y := by
  rcases Nat.lt_trichotomy i xs.length with hlt | rfl | hlt
  · rw [List.getElem?_append_left hlt]
    exact ⟨Or.inl, fun h => h.resolve_right fun h => absurd h.1 (Nat.ne_of_lt hlt)⟩
  · simp
  · have hout : xs[i]? = none := List.getElem?_eq_none (Nat.le_of_lt hlt)
    have hout' : (xs ++ [x])[i]? = none := List.getElem?_eq_none (by simpa [Nat.succ_le_iff] using hlt)
    simp [hout, hout', Nat.ne_of_gt hlt]

theorem LastState.snoc {ops : List Op} {n : Nat} {v : Var} (h : LastState ops n v) (hn : n ≤ ops.length)
    (op : Op) : LastState (ops ++ [op]) n v := by
  obtain ⟨op', hop', hyields⟩ := h.yields
  refine ⟨h.lt, ⟨op', getElem?_snoc_eq_some.mpr (Or.inl hop'), hyields⟩, ?_⟩
  intro i op'' hv hi hop''
  rcases getElem?_snoc_eq_some.mp hop'' with hop'' | ⟨rfl, _⟩
  · exact h.last i op'' hv hi hop''
  · exact absurd hi (Nat.not_lt_of_le hn)

/-- A chain goes on with a statement that takes the last state, if it takes one. -/
theorem SingleChain.snoc {ops : List Op} (h : SingleChain ops) {op : Op} (hop : op ≠ .load)
    (htakes : ∀ v, op.stateInput? = some v → LastState ops ops.length v) : SingleChain (ops ++ [op]) := by
  refine ⟨?_, ?_⟩
  · intro i
    rw [getElem?_snoc_eq_some, h.start]
    exact or_iff_left fun hlast => hop hlast.2
  · intro i op' v hop' hinput
    rcases getElem?_snoc_eq_some.mp hop' with hop' | ⟨rfl, rfl⟩
    · exact (h.takes i op' v hop' hinput).snoc (Nat.le_of_lt (List.getElem?_eq_some_iff.mp hop').1) op
    · exact (htakes v hinput).snoc (Nat.le_refl _) op

namespace Threaded

variable {ops : List Op} {state : Var}

theorem lastState (h : Threaded ops state) : LastState ops ops.length state := by
  induction h with
  | load =>
    refine ⟨Nat.one_pos, ⟨.load, rfl, rfl⟩, ?_⟩
    intro i op hv hi _
    exact absurd hi (Nat.not_lt_of_le hv)
  | @act ops state op h hinput ih =>
    refine ⟨by simp, ⟨op, List.getElem?_concat_length, by simp [Op.producesState, hinput]⟩, ?_⟩
    intro i op' hv hi _
    rw [List.length_append, List.length_singleton] at hi
    exact absurd hi (Nat.not_lt_of_le hv)
  | @read ops state op h hyields hscope ih =>
    refine ⟨?_, (ih.snoc (Nat.le_refl _) op).yields, ?_⟩
    · rw [List.length_append]
      exact Nat.lt_add_right _ ih.lt
    · intro i op' hv _ hop'
      rcases getElem?_snoc_eq_some.mp hop' with hop' | ⟨_, rfl⟩
      · exact ih.last i op' hv (List.getElem?_eq_some_iff.mp hop').1 hop'
      · exact hyields

theorem scope (h : Threaded ops state) : ∀ (i : Nat) (op : Op), ops[i]? = some op → ∀ v ∈ op.operands, v < i := by
  induction h with
  | load =>
    intro i op hop
    cases List.mem_singleton.mp (List.mem_of_getElem? hop)
    simp [Op.operands, Op.stateInput?]
  | @act ops state op h hinput ih =>
    intro i op' hop'
    rcases getElem?_snoc_eq_some.mp hop' with hop' | ⟨rfl, rfl⟩
    · exact ih i op' hop'
    · rw [Op.operands_of_stateInput? hinput]
      exact List.forall_mem_singleton.mpr h.lastState.lt
  | @read ops state op h hyields hscope ih =>
    intro i op' hop'
    rcases getElem?_snoc_eq_some.mp hop' with hop' | ⟨rfl, rfl⟩
    · exact ih i op' hop'
    · exact hscope

theorem singleChain (h : Threaded ops state) : SingleChain ops := by
  induction h with
  | load =>
    refine ⟨?_, ?_⟩
    · intro i
      cases i <;> simp
    · intro i op v hop hinput
      cases List.mem_singleton.mp (List.mem_of_getElem? hop)
      cases hinput
  | @act ops state op h hinput ih =>
    refine ih.snoc ?_ ?_
    · rintro rfl
      cases hinput
    · intro v hv
      cases hinput.symm.trans hv
      exact h.lastState
  | @read ops state op h hyields hscope ih =>
    obtain ⟨hop, hinput⟩ := Op.producesState_eq_false_iff.mp hyields
    refine ih.snoc hop ?_
    intro v hv
    cases hinput.symm.trans hv

end Threaded

namespace Lowering

/-- A block after some move layers and gate layers. Its statements thread a state to the given value, the kept
results are values of the block, the atoms are put on their first sites once, and the moves and declarations are
the ones of the layers. -/
structure Reflects (s : Lowering) (start : Placement) (moved : List MoveLayer) (done : List GateLayer)
    (state : Var) : Prop where
  threaded : Threaded s.ops state
  results : ∀ e ∈ s.results, e.2 < s.ops.length
  fills : s.ops.filterMap Op.filled? = [start.layout]
  moves : s.ops.filterMap Op.moved? = moved
  declared : s.ops.filterMap Op.declaration? = GateLayer.declarations 0 done
  observables : s.observables = (done.filterMap GateLayer.observable?).length

variable {d : Device} {s s' : Lowering} {start : Placement} {moved : List MoveLayer} {done : List GateLayer}
  {state state' : Var} {layer : GateLayer}

theorem lt_length_emit (s : Lowering) (op : Op) : s.ops.length < (s.emit op).2.ops.length := by
  simp [ops_emit]

theorem emit_fst_lt (s : Lowering) (op : Op) : (s.emit op).1 < (s.emit op).2.ops.length := by
  rw [emit_fst]
  exact lt_length_emit s op

theorem filterMap_emit {α : Type} (f : Op → Option α) (s : Lowering) (op : Op) :
    (s.emit op).2.ops.filterMap f = s.ops.filterMap f ++ (f op).toList := by
  rw [ops_emit, List.filterMap_append]
  cases hop : f op <;> simp [hop]

namespace Reflects

theorem state_lt (h : s.Reflects start moved done state) : state < s.ops.length := h.threaded.lastState.lt

theorem results_emit (h : s.Reflects start moved done state) (op : Op) :
    ∀ e ∈ s.results, e.2 < (s.emit op).2.ops.length :=
  fun e he => Nat.lt_trans (h.results e he) (lt_length_emit s op)

theorem act (h : s.Reflects start moved done state) (op : Op) (hinput : op.stateInput? = some state)
    (hfilled : op.filled? = none) :
    (s.emit op).2.Reflects start (moved ++ op.moved?.toList) done (s.emit op).1 where
  threaded := by
    rw [ops_emit, emit_fst]
    exact h.threaded.act hinput
  results := h.results_emit op
  fills := by rw [filterMap_emit, h.fills, hfilled, Option.toList_none, List.append_nil]
  moves := by rw [filterMap_emit, h.moves]
  declared := by
    have hnone : op.declaration? = none := by cases op <;> cases hinput <;> rfl
    rw [filterMap_emit, h.declared, hnone, Option.toList_none, List.append_nil]
  observables := h.observables

theorem still (h : s.Reflects start moved done state) (op : Op) (hinput : op.stateInput? = some state)
    (hfilled : op.filled? = none) (hmoved : op.moved? = none) :
    (s.emit op).2.Reflects start moved done (s.emit op).1 := by
  have hact := h.act op hinput hfilled
  rwa [hmoved, Option.toList_none, List.append_nil] at hact

theorem declare (h : s.Reflects start moved done state) (op : Op) (layers : List GateLayer)
    (hyields : op.producesState = false) (hscope : ∀ v ∈ op.operands, v < s.ops.length)
    (hdeclared : op.declaration?.toList = GateLayer.declarations s.observables layers) :
    ({ (s.emit op).2 with
        observables := s.observables + (layers.filterMap GateLayer.observable?).length } : Lowering).Reflects
      start moved (done ++ layers) state where
  threaded := by
    change Threaded (s.emit op).2.ops state
    rw [ops_emit]
    exact h.threaded.read hyields hscope
  results := h.results_emit op
  fills := by
    have hnone : op.filled? = none := by cases op <;> first | rfl | cases hyields
    change (s.emit op).2.ops.filterMap _ = _
    rw [filterMap_emit, h.fills, hnone, Option.toList_none, List.append_nil]
  moves := by
    have hnone : op.moved? = none := by cases op <;> first | rfl | cases hyields
    change (s.emit op).2.ops.filterMap _ = _
    rw [filterMap_emit, h.moves, hnone, Option.toList_none, List.append_nil]
  declared := by
    change (s.emit op).2.ops.filterMap _ = _
    rw [filterMap_emit, h.declared, hdeclared, GateLayer.declarations_append, h.observables, Nat.zero_add]
  observables := by
    rw [List.filterMap_append, List.length_append, ← h.observables]

theorem read (h : s.Reflects start moved done state) (op : Op) (hyields : op.producesState = false)
    (hscope : ∀ v ∈ op.operands, v < s.ops.length) (hdeclared : op.declaration? = none) :
    (s.emit op).2.Reflects start moved done state := by
  have hread := h.declare op [] hyields hscope (by rw [hdeclared]; rfl)
  rwa [List.append_nil] at hread

theorem skip (h : s.Reflects start moved done state) (layer : GateLayer)
    (hnone : ∀ n, GateLayer.declarations n [layer] = []) (hobservable : layer.observable? = none) :
    s.Reflects start moved (done ++ [layer]) state where
  threaded := h.threaded
  results := h.results
  fills := h.fills
  moves := h.moves
  declared := by rw [GateLayer.declarations_append, hnone, List.append_nil, h.declared]
  observables := by
    rw [List.filterMap_append, List.filterMap_cons_none hobservable, List.filterMap_nil, List.append_nil,
      h.observables]

theorem emitCz (h : s.Reflects start moved done state) (zones : List Zone) :
    (s.emitCz state zones).2.Reflects start moved done (s.emitCz state zones).1 := by
  induction zones generalizing s state with
  | nil => exact h
  | cons z zones ih => exact ih (h.still (.cz state z) rfl rfl rfl)

theorem emitMoves (h : s.Reflects start moved done state) (moves : List MoveLayer) :
    (s.emitMoves state moves).2.Reflects start (moved ++ moves.filter fun layer => !layer.isEmpty) done
      (s.emitMoves state moves).1 := by
  induction moves generalizing s moved state with
  | nil => simpa [Lowering.emitMoves] using h
  | cons layer moves ih =>
    unfold Lowering.emitMoves
    split_ifs with hempty
    · rw [List.filter_cons_of_neg (by simpa using hempty)]
      exact ih h
    · rw [List.filter_cons_of_pos (by simpa using hempty), List.append_cons]
      exact ih (h.act (.move state layer.lanes) rfl rfl)

theorem emitResults (h : s.Reflects start moved done state) {future : Var} (hfuture : future < s.ops.length)
    (zones : List Zone) :
    (s.emitResults future zones).2.Reflects start moved done state ∧
      s.ops.length ≤ (s.emitResults future zones).2.ops.length ∧
      ∀ e ∈ (s.emitResults future zones).1, e.2 < (s.emitResults future zones).2.ops.length := by
  induction zones generalizing s with
  | nil => exact ⟨h, Nat.le_refl _, by simp [Lowering.emitResults]⟩
  | cons z zones ih =>
    have hz := h.read (.getFutureResult future z) rfl (List.forall_mem_singleton.mpr hfuture) rfl
    have hlength := lt_length_emit s (.getFutureResult future z)
    obtain ⟨hrest, hle, hresults⟩ := ih hz (Nat.lt_trans hfuture hlength)
    have hlt := Nat.lt_of_lt_of_le (emit_fst_lt s (.getFutureResult future z)) hle
    exact ⟨hrest, Nat.le_of_lt (Nat.lt_of_lt_of_le hlength hle), List.forall_mem_cons.mpr ⟨hlt, hresults⟩⟩

theorem emitItem (h : s.Reflects start moved done state) {q : Qubit} {v : Var}
    (hitem : s.emitItem d q = .ok (v, s')) :
    s'.Reflects start moved done state ∧ s.ops.length ≤ s'.ops.length ∧ v < s'.ops.length := by
  unfold Lowering.emitItem at hitem
  split at hitem
  · cases hitem
  next l hl =>
    obtain ⟨z, _, hitem⟩ := bind_eq_ok.mp hitem
    split at hitem
    · cases hitem
    next results hresults =>
      cases hitem
      have hbound : results < s.ops.length := h.results _ (Ascending.mem_of_get? hresults)
      have hindex := h.read (.getZoneIndex z l) rfl (by simp [Op.operands, Op.stateInput?]) rfl
      have hlt := lt_length_emit s (.getZoneIndex z l)
      have hlt' := lt_length_emit (s.emit (.getZoneIndex z l)).2
        (.getItem results (s.emit (.getZoneIndex z l)).1)
      have hscope : ∀ w ∈ [results, (s.emit (.getZoneIndex z l)).1],
          w < (s.emit (.getZoneIndex z l)).2.ops.length := by
        rw [List.forall_mem_cons, List.forall_mem_singleton]
        exact ⟨Nat.lt_trans hbound hlt, emit_fst_lt s (.getZoneIndex z l)⟩
      have hitem' := emit_fst_lt (s.emit (.getZoneIndex z l)).2
        (.getItem results (s.emit (.getZoneIndex z l)).1)
      exact ⟨hindex.read _ rfl hscope rfl, Nat.le_of_lt (Nat.lt_trans hlt hlt'), hitem'⟩

theorem emitItems (h : s.Reflects start moved done state) {qubits : List Qubit} {vs : List Var}
    (hitems : Lowering.emitItems d s qubits = .ok (vs, s')) :
    s'.Reflects start moved done state ∧ s.ops.length ≤ s'.ops.length ∧ ∀ v ∈ vs, v < s'.ops.length := by
  induction qubits generalizing s vs with
  | nil =>
    cases hitems
    exact ⟨h, Nat.le_refl _, by simp⟩
  | cons q qubits ih =>
    obtain ⟨⟨v, mid⟩, hitem, hitems⟩ := bind_eq_ok.mp hitems
    obtain ⟨⟨vs', last⟩, hrest, hitems⟩ := bind_eq_ok.mp hitems
    cases hitems
    obtain ⟨hmid, hle, hv⟩ := h.emitItem hitem
    obtain ⟨hlast, hle', hvs⟩ := ih hmid hrest
    exact ⟨hlast, Nat.le_trans hle hle', List.forall_mem_cons.mpr ⟨Nat.lt_of_lt_of_le hv hle', hvs⟩⟩

theorem emitMeasurements (h : s.Reflects start moved done state) {qubits : List Qubit} {v : Var}
    (hlist : s.emitMeasurements d qubits = .ok (v, s')) :
    s'.Reflects start moved done state ∧ v < s'.ops.length := by
  obtain ⟨⟨items, mid⟩, hitems, hlist⟩ := bind_eq_ok.mp hlist
  cases hlist
  obtain ⟨hmid, _, hvs⟩ := h.emitItems hitems
  exact ⟨hmid.read (.newList items) rfl hvs rfl, emit_fst_lt mid (.newList items)⟩

theorem gate (h : s.Reflects start moved done state) (hgate : s.gate d state layer = .ok (state', s')) :
    s'.Reflects start moved (done ++ [layer]) state' := by
  cases layer with
  | cz controls targets =>
    obtain ⟨zones, _, hgate⟩ := bind_eq_ok.mp hgate
    have hcz := h.emitCz zones
    rw [Except.ok.inj hgate] at hcz
    exact hcz.skip _ (fun _ => rfl) rfl
  | localR qubits axis rotation =>
    obtain ⟨locations, _, hgate⟩ := bind_eq_ok.mp hgate
    cases hgate
    exact (h.still _ rfl rfl rfl).skip _ (fun _ => rfl) rfl
  | globalR axis rotation =>
    cases hgate
    exact (h.still _ rfl rfl rfl).skip _ (fun _ => rfl) rfl
  | localRz qubits rotation =>
    obtain ⟨locations, _, hgate⟩ := bind_eq_ok.mp hgate
    cases hgate
    exact (h.still _ rfl rfl rfl).skip _ (fun _ => rfl) rfl
  | globalRz rotation =>
    cases hgate
    exact (h.still _ rfl rfl rfl).skip _ (fun _ => rfl) rfl
  | measure =>
    obtain ⟨zones, _, hgate⟩ := bind_eq_ok.mp hgate
    cases hgate
    have hmeasure := (h.still (.endMeasure state zones) rfl rfl rfl).skip .measure (fun _ => rfl) rfl
    obtain ⟨hresults, _, hbound⟩ := hmeasure.emitResults hmeasure.state_lt zones
    exact ⟨hresults.threaded, hbound, hresults.fills, hresults.moves, hresults.declared, hresults.observables⟩
  | detector qubits coordinates =>
    obtain ⟨⟨v, mid⟩, hlist, hgate⟩ := bind_eq_ok.mp hgate
    cases hgate
    obtain ⟨hmid, hv⟩ := h.emitMeasurements hlist
    exact hmid.declare (.setDetector v coordinates) [.detector qubits coordinates] rfl
      (List.forall_mem_singleton.mpr hv) rfl
  | observable qubits =>
    obtain ⟨⟨v, mid⟩, hlist, hgate⟩ := bind_eq_ok.mp hgate
    cases hgate
    obtain ⟨hmid, hv⟩ := h.emitMeasurements hlist
    exact hmid.declare (.setObservable v mid.observables) [.observable qubits] rfl
      (List.forall_mem_singleton.mpr hv) rfl

theorem layers {stages : List (GateLayer × LayerPlacement × List MoveLayer)}
    (h : s.Reflects start moved done state) (hlayers : Lowering.layers d s state stages = .ok (state', s')) :
    s'.Reflects start (moved ++ (stages.flatMap (·.2.2)).filter fun layer => !layer.isEmpty)
      (done ++ stages.map (·.1)) state' := by
  induction stages generalizing s moved done state with
  | nil =>
    cases hlayers
    simpa using h
  | cons stage stages ih =>
    obtain ⟨layer, placement, moves⟩ := stage
    simp only [Lowering.layers] at hlayers
    split at hlayers
    · cases hlayers
    next after hafter =>
      obtain ⟨⟨v, mid⟩, hgate, hlayers⟩ := bind_eq_ok.mp hlayers
      obtain ⟨hthreaded, hresults, hfills, hmoves, hdeclared, hobservables⟩ := h.emitMoves moves
      have hentered : ({ (s.emitMoves state moves).2 with layout := after.layout } : Lowering).Reflects
          start (moved ++ moves.filter fun layer => !layer.isEmpty) done (s.emitMoves state moves).1 :=
        ⟨hthreaded, hresults, hfills, hmoves, hdeclared, hobservables⟩
      have hrest := ih (hentered.gate hgate) hlayers
      simpa using hrest

theorem result (h : s.Reflects start moved done state) :
    (s.result state).2.Reflects start moved done state ∧ (s.result state).1 < (s.result state).2.ops.length := by
  unfold Lowering.result
  split
  · exact ⟨h, h.state_lt⟩
  next z v hresults =>
    exact ⟨h, h.results (z, v) (by rw [hresults]; exact List.mem_singleton_self _)⟩
  · have hscope : ∀ v ∈ (Op.newList (s.results.map (·.2))).operands, v < s.ops.length :=
      List.forall_mem_map.mpr h.results
    exact ⟨h.read _ rfl hscope rfl, emit_fst_lt s _⟩

end Reflects

variable {layers : List GateLayer} {placements : List LayerPlacement} {moves : List (List MoveLayer)}

theorem flatMap_stages (hplacements : placements.length = layers.length) (hmoves : moves.length = layers.length) :
    (layers.zip (placements.zip moves)).flatMap (·.2.2) = moves.flatten := by
  have hstages : (layers.zip (placements.zip moves)).map (·.2) = placements.zip moves :=
    List.map_snd_zip (by simp [hplacements, hmoves])
  calc (layers.zip (placements.zip moves)).flatMap (·.2.2)
      = ((layers.zip (placements.zip moves)).map (·.2)).flatMap (·.2) := by rw [List.flatMap_map]
    _ = (placements.zip moves).flatMap (·.2) := by rw [hstages]
    _ = moves.flatten := by rw [List.flatMap_def, List.map_snd_zip (by simp [hplacements, hmoves])]

/-- The block of all layers, with a placement and moves for each. -/
theorem reflects_layers (hplacements : placements.length = layers.length) (hmoves : moves.length = layers.length)
    (hlayers : Lowering.layers d (.filled start) 1 (layers.zip (placements.zip moves)) = .ok (state, s)) :
    s.Reflects start (moves.flatten.filter fun layer => !layer.isEmpty) layers state := by
  have hfilled : (filled start).Reflects start [] [] 1 :=
    ⟨Threaded.load.act rfl, by simp [filled, Lowering.start, withOps], rfl, rfl, rfl, rfl⟩
  have hfst : (layers.zip (placements.zip moves)).map (·.1) = layers :=
    List.map_fst_zip (by simp [hplacements, hmoves])
  have hend := hfilled.layers hlayers
  rwa [flatMap_stages hplacements hmoves, hfst, List.nil_append, List.nil_append] at hend

end Lowering

namespace GateProgram

variable {d : Device} {p : GateProgram} {initial : Placement} {placements : List LayerPlacement}
  {moves : List (List MoveLayer)} {q : Program}

/-- A lowered program is one block without parameters whose statement `i` defines value `i` and reads values below
`i`, and it returns one of its values. A single chain of atom states goes through the block. Its moves are the move
layers with lanes, and its declarations are the ones of the gate layers, with the observables numbered from `0`. -/
theorem lower_threads (h : p.lower d initial placements moves = .ok q) :
    ∃ ops value, q = .straightLine ops value ∧ value < ops.length ∧
      (∀ (i : Nat) (op : Op), ops[i]? = some op → ∀ v ∈ op.operands, v < i) ∧ SingleChain ops ∧
      ops.filterMap Op.moved? = moves.flatten.filter (fun layer => !layer.isEmpty) ∧
      ops.filterMap Op.declaration? = GateLayer.declarations 0 p.layers := by
  unfold lower at h
  split_ifs at h with hlengths
  obtain ⟨hplacements, hmoves⟩ : placements.length = p.layers.length ∧ moves.length = p.layers.length := by
    simpa using hlengths
  obtain ⟨⟨state, s⟩, hlayers, h⟩ := bind_eq_ok.mp h
  obtain ⟨hend, hvalue⟩ := (Lowering.reflects_layers hplacements hmoves hlayers).result
  have hfinish := mapError_eq_ok.mp h
  rw [Lowering.draft_eq, Draft.finish_straight] at hfinish
  obtain ⟨rfl, _⟩ := Program.ofBlocks_eq_ok_iff.mp hfinish
  exact ⟨_, _, rfl, hvalue, hend.threaded.scope, hend.threaded.singleChain, hend.moves, hend.declared⟩

def remeasured : GateProgram :=
  ⟨2, [.measure, .detector [0] [], .observable [1], .cz [0] [1], .measure, .detector [1, 0] [.zero],
    .observable [0]]⟩

def restingPlacements (p : GateProgram) (layout : List Location) : List LayerPlacement :=
  (List.range p.layers.length).map fun k => ⟨k, .anything, .known (.ofLayout layout []), []⟩

/-- The moves need not lead to the placements. -/
theorem lower_threads_remeasured :
    ∃ q, remeasured.lower ⟨(Blueprint.grid 2 2).normalize, .bits32⟩ (.ofLayout [⟨0, 0⟩, ⟨0, 2⟩] [])
        (restingPlacements remeasured [⟨0, 0⟩, ⟨0, 1⟩])
        [[], [], [], [⟨[]⟩, ⟨[⟨.site, 0, 2, 0, .forward⟩]⟩, ⟨[]⟩], [], [⟨[⟨.word, 0, 0, 0, .forward⟩]⟩],
          [⟨[]⟩]] = .ok q ∧
      ∃ ops value, q = .straightLine ops value ∧ value < ops.length ∧
        (∀ (i : Nat) (op : Op), ops[i]? = some op → ∀ v ∈ op.operands, v < i) ∧ SingleChain ops ∧
        ops.filterMap Op.moved? = [⟨[⟨.site, 0, 2, 0, .forward⟩]⟩, ⟨[⟨.word, 0, 0, 0, .forward⟩]⟩] ∧
        ops.filterMap Op.declaration? = [.detector [], .observable 0, .detector [.zero], .observable 1] := by
  refine (exists_ok_of_any (P := fun _ => true) ?_).imp fun q hq => ⟨hq.1, lower_threads hq.1⟩
  decide +kernel

end GateProgram

end AtomTransport
