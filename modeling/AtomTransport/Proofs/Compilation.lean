import AtomTransport.Device.Grid
import AtomTransport.Proofs.Readout

/-!
# What compilation returns

A compilation is refused for a few reasons, all of them found while the gates are placed and lowered.
Otherwise the lowered block is executed without a fault, and all that is returned can be read off its
trace: the values of the analysis, the placements and moves, and the readout.
-/

namespace AtomTransport

namespace Lowering

variable {d : Device} {s : Lowering} {state : Var}

def filled (start : Placement) : Lowering :=
  (Lowering.start start.layout).withOps [.load, .fill 0 start.layout]

theorem tracks_filled {g : LaneGraph} {start : Placement} (hsound : start.Sound g.device)
    (hmoves : start.moves = List.replicate start.layout.length 0) :
    ∃ t, Tracks g [] none (filled start) 1 start t := by
  obtain ⟨a, hfill, ha⟩ := Atoms.realizes_fill hsound.nodup start.occupied
  have hload : Executes g [.load] ⟨[.atoms {}], [], []⟩ :=
    Executes.nil.snoc .load (by simp [Op.operands, Op.stateInput?]) rfl rfl nofun rfl
  have haddressed : (Op.fill 0 start.layout).Addressed g.device :=
    ⟨hsound.exist, by simp [Op.zones], by simp [Op.lanes], List.Pairwise.nil⟩
  have hfilled : Executes g [.load, .fill 0 start.layout] ⟨[.atoms {}, .atoms a], [], []⟩ := by
    refine hload.stateOp rfl rfl rfl rfl haddressed ?_
    simp only [Op.evalAtoms, haddressed.check, ok_bind, hfill]
  exact ⟨_, hfilled, ⟨.atoms a, a, rfl, rfl, ha.qubits, ha.locations, ha.travelled.trans hmoves.symm⟩,
    rfl, rfl, rfl, rfl⟩

theorem location_eq_error {q : Qubit} {e : CompileError} (h : s.location q = .error e) :
    ∃ cause, e = .invalidProgram cause := by
  unfold location at h
  split at h
  · cases h
  · cases h
    exact ⟨_, rfl⟩

theorem zoneOf_eq_error {l : Location} {e : CompileError} (h : zoneOf d l = .error e) :
    ∃ cause, e = .invalidProgram cause := by
  unfold zoneOf at h
  split at h
  · cases h
  · cases h
    exact ⟨_, rfl⟩

theorem zones_eq_error {qubits : List Qubit} {e : CompileError}
    (h : s.zones d qubits = .error e) : ∃ cause, e = .invalidProgram cause := by
  rcases bind_eq_error.mp h with hmap | ⟨_, _, h⟩
  · obtain ⟨q, _, hq⟩ := mapM_eq_error hmap
    rcases bind_eq_error.mp hq with hlocation | ⟨l, _, hzone⟩
    · exact location_eq_error hlocation
    · exact zoneOf_eq_error hzone
  · cases h

theorem emitItem_eq_error {q : Qubit} {e : CompileError} (h : s.emitItem d q = .error e) :
    ∃ cause, e = .invalidProgram cause := by
  unfold emitItem at h
  split at h
  · cases h
    exact ⟨_, rfl⟩
  · rcases bind_eq_error.mp h with hzone | ⟨z, _, h⟩
    · exact zoneOf_eq_error hzone
    · split at h
      · cases h
        exact ⟨_, rfl⟩
      · cases h

theorem emitMeasurements_eq_error {qubits : List Qubit} {e : CompileError}
    (h : s.emitMeasurements d qubits = .error e) : ∃ cause, e = .invalidProgram cause := by
  have hitems : ∀ (qubits : List Qubit) (s : Lowering), emitItems d s qubits = .error e →
      ∃ cause, e = .invalidProgram cause := by
    intro qubits
    induction qubits with
    | nil =>
      intro s h
      cases h
    | cons q qubits ih =>
      intro s h
      rcases bind_eq_error.mp h with hitem | ⟨⟨v, s₁⟩, _, h⟩
      · exact emitItem_eq_error hitem
      · rcases bind_eq_error.mp h with hrest | ⟨_, _, h⟩
        · exact ih s₁ hrest
        · cases h
  rcases bind_eq_error.mp h with h | ⟨_, _, h⟩
  · exact hitems qubits s h
  · cases h

theorem gate_eq_error {layer : GateLayer} {e : CompileError} (h : s.gate d state layer = .error e) :
    ∃ cause, e = .invalidProgram cause := by
  have hmap : ∀ {qubits : List Qubit}, qubits.mapM s.location = .error e →
      ∃ cause, e = .invalidProgram cause := by
    intro qubits hmap
    obtain ⟨q, _, hq⟩ := mapM_eq_error hmap
    exact location_eq_error hq
  cases layer with
  | cz controls targets =>
    rcases bind_eq_error.mp h with hzones | ⟨_, _, h⟩
    · exact zones_eq_error hzones
    · cases h
  | localR qubits axis rotation =>
    rcases bind_eq_error.mp h with hlocations | ⟨_, _, h⟩
    · exact hmap hlocations
    · cases h
  | globalR axis rotation => cases h
  | localRz qubits rotation =>
    rcases bind_eq_error.mp h with hlocations | ⟨_, _, h⟩
    · exact hmap hlocations
    · cases h
  | globalRz rotation => cases h
  | measure =>
    rcases bind_eq_error.mp h with hzones | ⟨_, _, h⟩
    · exact zones_eq_error hzones
    · cases h
  | detector qubits coordinates =>
    rcases bind_eq_error.mp h with hlist | ⟨_, _, h⟩
    · exact emitMeasurements_eq_error hlist
    · cases h
  | observable qubits =>
    rcases bind_eq_error.mp h with hlist | ⟨_, _, h⟩
    · exact emitMeasurements_eq_error hlist
    · cases h

theorem layers_eq_error {g : LaneGraph} {p last : Placement} {e : CompileError}
    {stages : List (GateLayer × LayerPlacement × List MoveLayer)} (hstaged : Staged g p stages last)
    (h : layers d s state stages = .error e) : ∃ cause, e = .invalidProgram cause := by
  induction stages generalizing s state p with
  | nil => cases h
  | cons x stages ih =>
    obtain ⟨layer, placement, moves⟩ := x
    obtain ⟨after, hafter, _, _, _, hrest⟩ := hstaged
    rw [layers_cons hafter] at h
    rcases bind_eq_error.mp h with hgate | ⟨_, _, h⟩
    · exact gate_eq_error hgate
    · exact ih hrest h

end Lowering

namespace GateProgram

theorem check_eq_error {p : GateProgram} {e : ProgramError} (h : p.check = .error e) :
    ∃ q n, e = .qubitOutOfRange q n := by
  unfold check at h
  split at h
  · cases h
    exact ⟨_, _, rfl⟩
  · cases h

theorem lt_of_check {p : GateProgram} (h : p.check = .ok ()) {layer : GateLayer}
    (hlayer : layer ∈ p.layers) {q : Qubit} (hq : q ∈ layer.qubits) : q < p.numQubits := by
  unfold check at h
  split at h
  · cases h
  next hnone =>
    rw [List.findSome?_eq_none_iff] at hnone
    simpa using List.find?_eq_none.mp (hnone layer hlayer) q hq

end GateProgram

/-- The reasons for which a compilation may be refused. -/
def CompileError.IsRefusal : CompileError → Prop
  | program (.qubitOutOfRange _ _) => True
  | tooFewSites _ _ => True
  | address _ => True
  | duplicateSite _ => True
  | noPlacement _ _ => True
  | imprecisePlacement _ => True
  | invalidProgram _ => True
  | _ => False

namespace Compiler

variable {c : Compiler} {p : GateProgram} {initial : InitialLayout} {b : Blueprint}

def finish (c : Compiler) (placements : List LayerPlacement) (moves : List (List MoveLayer))
    (lowered : Program) : Except CompileError Compiled := do
  let (program, analysis) ← c.runPasses lowered
  let readout ← analysis.readout.mapError .readout
  .ok ⟨program, placements, moves, analysis, readout⟩

structure Placed (c : Compiler) (p : GateProgram) (initial : InitialLayout) (start : Placement)
    (placements : List LayerPlacement) (moves : List (List MoveLayer)) (last : Placement) : Prop where
  checked : p.check = .ok ()
  placed : initial.place c.graph.device p.numQubits = .ok start
  length_placements : placements.length = p.layers.length
  length_moves : moves.length = p.layers.length
  staged : Staged c.graph start (p.layers.zip (placements.zip moves)) last
  compile_eq_lower : c.compile p initial =
    (p.lower c.graph.device start placements moves >>= c.finish placements moves)

/-- A placed gate program that is lowered: `s` is its block, and `state` its last state. -/
structure Lowered (c : Compiler) (p : GateProgram) (initial : InitialLayout) (start : Placement)
    (placements : List LayerPlacement) (moves : List (List MoveLayer)) (last : Placement)
    (state : Var) (s : Lowering) : Prop extends
    Placed c p initial start placements moves last where
  layers : Lowering.layers c.graph.device (.filled start) 1 (p.layers.zip (placements.zip moves)) =
    .ok (state, s)

theorem refused_or_placed (hb : Device.ofBlueprint b = .ok c.graph.device)
    (hs : c.graph.device.SingleSource) (p : GateProgram) (initial : InitialLayout) :
    (∃ e, c.compile p initial = .error e ∧ e.IsRefusal) ∨
      ∃ start placements moves last, c.Placed p initial start placements moves last := by
  cases hcheck : p.check with
  | error e =>
    obtain ⟨q, n, rfl⟩ := GateProgram.check_eq_error hcheck
    refine Or.inl ⟨.program (.qubitOutOfRange q n), ?_, trivial⟩
    rw [compile, hcheck]
    rfl
  | ok _ =>
  cases hstart : initial.place c.graph.device p.numQubits with
  | error e =>
    refine Or.inl ⟨e, ?_, ?_⟩
    · rw [compile, hcheck, hstart]
      rfl
    · rcases InitialLayout.place_eq_error hstart with ⟨_, _, rfl⟩ | ⟨_, rfl⟩ | ⟨_, rfl⟩ <;> trivial
  | ok start =>
  obtain ⟨hsound, _, _⟩ := InitialLayout.sound_of_place hstart
  have hplace : p.place c.graph c.heuristics.placing c.config.strategy initial =
      Placement.placeLayers c.graph c.heuristics.placing c.config.strategy 0 (.known start) p.layers := by
    rw [GateProgram.place, hstart, ok_bind]
  cases hplacements : Placement.placeLayers c.graph c.heuristics.placing c.config.strategy 0 (.known start)
      p.layers with
  | error e =>
    obtain ⟨control, target, rfl⟩ := Placement.placeLayers_eq_error hplacements
    refine Or.inl ⟨.noPlacement control target, ?_, trivial⟩
    rw [compile, hcheck, hstart, hplace, hplacements]
    rfl
  | ok placements =>
  rcases staged_of_placeLayers hb hs hsound hplacements with
    ⟨i, hlost⟩ | ⟨moves, last, hmoves, hlength, hlength', hstaged⟩
  · refine Or.inl ⟨.imprecisePlacement i, ?_, trivial⟩
    rw [compile, hcheck, hstart, hplace, hplacements]
    simp only [Except.mapError, ok_bind, hlost, error_bind]
  · refine Or.inr ⟨start, placements, moves, last, hcheck, hstart, hlength, hlength', hstaged, ?_⟩
    rw [compile, hcheck, hstart, hplace, hplacements]
    simp only [Except.mapError, ok_bind, hmoves]
    rfl

theorem Placed.lower_eq {start last : Placement} {placements : List LayerPlacement}
    {moves : List (List MoveLayer)} (h : c.Placed p initial start placements moves last) :
    p.lower c.graph.device start placements moves =
      (Lowering.layers c.graph.device (.filled start) 1 (p.layers.zip (placements.zip moves)) >>=
        fun r => ((r.2.result r.1).2.draft.terminate (.ret (r.2.result r.1).1) >>=
          Draft.finish).mapError .program) := by
  rw [GateProgram.lower, if_neg (by simp [h.length_placements, h.length_moves])]
  rfl

theorem refused_or_lowered (hb : Device.ofBlueprint b = .ok c.graph.device)
    (hs : c.graph.device.SingleSource) (p : GateProgram) (initial : InitialLayout) :
    (∃ e, c.compile p initial = .error e ∧ e.IsRefusal) ∨
      ∃ start placements moves last state s,
        c.Lowered p initial start placements moves last state s := by
  rcases refused_or_placed hb hs p initial with hrefused | ⟨start, placements, moves, last, h⟩
  · exact Or.inl hrefused
  cases hlayers : Lowering.layers c.graph.device (.filled start) 1
      (p.layers.zip (placements.zip moves)) with
  | error e =>
    obtain ⟨cause, rfl⟩ := Lowering.layers_eq_error h.staged hlayers
    refine Or.inl ⟨.invalidProgram cause, ?_, trivial⟩
    rw [h.compile_eq_lower, h.lower_eq, hlayers, error_bind, error_bind]
  | ok r => exact Or.inr ⟨start, placements, moves, last, r.1, r.2, h, hlayers⟩

structure Returns (d : Device) (p : GateProgram) (measured : Option Placement)
    (placements : List LayerPlacement) (moves : List (List MoveLayer)) (s : Lowering) (t : Trace)
    (r : Compiled) : Prop where
  placements_eq : r.placements = placements
  moves_eq : r.moves = moves
  program : ∃ new value, (∀ op ∈ new, op.stateInput? = none) ∧
    r.program = .straightLine (s.ops ++ new) value
  values : t.values <+: r.analysis.values
  detectors : r.readout.detectors = (p.layers.filterMap GateLayer.detector?).map fun qs => ⟨qs, false⟩
  observables : r.readout.observables =
    (p.layers.filterMap GateLayer.observable?).map fun qs => ⟨qs, false⟩
  exact : r.readout.Exact
  value : (s.results = [] ∧ r.readout.value = .none) ∨ ∃ m a zs, measured = some m ∧ m.Sound d ∧
    a.Realizes m ∧ List.Forall₂ (fun l z => d.zoneOf? l = some z) m.layout zs ∧
    r.readout.value = .zones d a (Ascending.ofList zs)

namespace Lowered

variable {start last : Placement} {placements : List LayerPlacement} {moves : List (List MoveLayer)}
  {state : Var} {s : Lowering} {measured : Option Placement} {t : Trace} {r : Compiled}

theorem map_fst_stages (h : c.Lowered p initial start placements moves last state s) :
    (p.layers.zip (placements.zip moves)).map (·.1) = p.layers :=
  List.map_fst_zip (by simp [h.length_placements, h.length_moves])

theorem getElem?_stages (h : c.Lowered p initial start placements moves last state s) {k : Nat}
    {layer : GateLayer} (hk : p.layers[k]? = some layer) :
    ∃ placement layerMoves, placements[k]? = some placement ∧
      (p.layers.zip (placements.zip moves))[k]? = some (layer, placement, layerMoves) := by
  have hlt := (List.getElem?_eq_some_iff.mp hk).1
  have hplacement := List.getElem?_eq_getElem (h.length_placements ▸ hlt)
  have hmoves := List.getElem?_eq_getElem (h.length_moves ▸ hlt)
  exact ⟨_, _, hplacement,
    List.getElem?_zip_eq_some.mpr ⟨hk, List.getElem?_zip_eq_some.mpr ⟨hplacement, hmoves⟩⟩⟩

theorem tracks (h : c.Lowered p initial start placements moves last state s)
    (hs : c.graph.device.SingleSource) :
    ∃ t, Lowering.Tracks c.graph p.layers
      (Lowering.measuredAfter none (p.layers.zip (placements.zip moves))) s state last t := by
  obtain ⟨hsound, _, hmoves⟩ := InitialLayout.sound_of_place h.placed
  obtain ⟨t₀, h₀⟩ := Lowering.tracks_filled hsound hmoves
  obtain ⟨_, t, _, _, ht⟩ := h₀.layers hs hsound h.staged h.layers
  rw [List.nil_append, h.map_fst_stages] at ht
  exact ⟨t, ht⟩

/-- From the trace of the block on, a compilation depends only on the analysis. -/
theorem compile_eq_analysis (h : c.Lowered p initial start placements moves last state s)
    {new : List Op} {t : Trace} {x : Value} (hnew : (s.result state).2.ops = s.ops ++ new)
    (hexecutes : Executes c.graph (s.ops ++ new) t) (hx : t.values[(s.result state).1]? = some x) :
    (s.result state).1 < (s.ops ++ new).length ∧ c.compile p initial =
      ((Analysis.run c.graph (.straightLine (s.ops ++ new) (s.result state).1)
        c.config.maxVisits).mapError .analysis >>= fun a => a.readout.mapError .readout >>= fun o =>
          .ok ⟨.straightLine (s.ops ++ new) (s.result state).1, placements, moves, a, o⟩) := by
  have hv : (s.result state).1 < (s.ops ++ new).length := hexecutes.lt_length hx
  have hfinish : ((s.result state).2.draft.terminate (.ret (s.result state).1) >>= Draft.finish) =
      .ok (.straightLine (s.ops ++ new) (s.result state).1) := by
    rw [Lowering.draft_eq, hnew, Draft.finish_straight]
    change (Program.straightLine (s.ops ++ new) (s.result state).1).check.map _ = _
    rw [hexecutes.check_straightLine hv]
    rfl
  refine ⟨hv, ?_⟩
  rw [h.compile_eq_lower, h.lower_eq, h.layers, ok_bind, hfinish]
  simp only [Except.mapError, ok_bind, finish, hexecutes.runPasses_straightLine]
  cases Analysis.run c.graph (.straightLine (s.ops ++ new) (s.result state).1) c.config.maxVisits <;>
    rfl

/-- With at least one visit of a block allowed, a lowered program is compiled. -/
theorem returns (h : c.Lowered p initial start placements moves last state s)
    (ht : Lowering.Tracks c.graph p.layers measured s state last t) (hvisits : 1 ≤ c.config.maxVisits) :
    ∃ r, c.compile p initial = .ok r ∧
      Returns c.graph.device p measured placements moves s t r := by
  obtain ⟨new, more, x, hnew, hquiet, hexecutes, hx, hvalue⟩ := ht.result
  obtain ⟨hv, hcompile⟩ := h.compile_eq_analysis hnew hexecutes hx
  obtain ⟨a, hrun, hvalues, hreturned, hdetectors, hobservables, _⟩ := hexecutes.analysis_run hv hvisits
  obtain ⟨e, he, hcases⟩ : ∃ e, Extractor.Compiles x e ∧ ((s.results = [] ∧ e = .none) ∨
      ∃ m a zs, measured = some m ∧ m.Sound c.graph.device ∧ a.Realizes m ∧
        List.Forall₂ (fun l z => c.graph.device.zoneOf? l = some z) m.layout zs ∧
        e = .zones c.graph.device a (Ascending.ofList zs)) := by
    rcases hvalue with ⟨hresults, a, ha⟩ | ⟨m, a, zs, hm, hsound, ha, hzs, rfl⟩
    · refine ⟨.none, ?_, Or.inl ⟨hresults, rfl⟩⟩
      cases x <;> first | exact fun n => rfl | cases ha
    · exact ⟨_, Extractor.compiles_zoneTree _ _ _, Or.inr ⟨m, a, zs, hm, hsound, ha, hzs, rfl⟩⟩
  have hreadout := Readout.ofValues_bitsOf he (p.layers.filterMap GateLayer.detector?)
    (p.layers.filterMap GateLayer.observable?)
  rw [← ht.detectors, ← ht.observables, ← Trace.value_eq hx, ← hreturned] at hreadout
  change Readout.ofValues a.returned (t.extend more).detectors (t.extend more).observables = _
    at hreadout
  rw [← hdetectors, ← hobservables] at hreadout
  refine ⟨⟨.straightLine (s.ops ++ new) (s.result state).1, placements, moves, a, .ofParts e _ _⟩, ?_, rfl,
    rfl, ⟨new, _, hquiet, rfl⟩, ⟨more, hvalues.symm⟩, rfl, rfl, rfl, hcases⟩
  rw [hcompile, hrun]
  simp only [Except.mapError, ok_bind, Analysis.readout, hreadout]

theorem returns_of_compile (h : c.Lowered p initial start placements moves last state s)
    (ht : Lowering.Tracks c.graph p.layers measured s state last t)
    (hok : c.compile p initial = .ok r) :
    Returns c.graph.device p measured placements moves s t r := by
  obtain ⟨new, more, x, hnew, _, hexecutes, hx, _⟩ := ht.result
  obtain ⟨_, hcompile⟩ := h.compile_eq_analysis hnew hexecutes hx
  rw [hok] at hcompile
  obtain ⟨a, hrun, _⟩ := bind_eq_ok.mp hcompile.symm
  have hvisits := Analysis.one_le_of_run (mapError_eq_ok.mp hrun)
  obtain ⟨r', hok', hreturns⟩ := h.returns ht hvisits
  rw [hok] at hok'
  cases hok'
  exact hreturns

end Lowered

theorem lowered_of_compile {r : Compiled} (hb : Device.ofBlueprint b = .ok c.graph.device)
    (hs : c.graph.device.SingleSource) (hok : c.compile p initial = .ok r) :
    ∃ start last state s, c.Lowered p initial start r.placements r.moves last state s := by
  rcases refused_or_lowered hb hs p initial with
    ⟨e, herror, _⟩ | ⟨start, placements, moves, last, state, s, h⟩
  · rw [hok] at herror
    cases herror
  · obtain ⟨t, ht⟩ := h.tracks hs
    have hreturns := h.returns_of_compile ht hok
    exact ⟨start, last, state, s, by rw [hreturns.placements_eq, hreturns.moves_eq]; exact h⟩

/-- A compilation returns, or it is refused: once every pair is placed and every qubit has a site, a
zone and a result where it needs one, moves, passes and readout do not fail. -/
theorem compile_ok_or_refused (hb : Device.ofBlueprint b = .ok c.graph.device)
    (hs : c.graph.device.SingleSource) (hvisits : 1 ≤ c.config.maxVisits) (p : GateProgram)
    (initial : InitialLayout) :
    (∃ r, c.compile p initial = .ok r) ∨ ∃ e, c.compile p initial = .error e ∧ e.IsRefusal := by
  rcases refused_or_lowered hb hs p initial with hrefused | ⟨_, _, _, _, _, _, h⟩
  · exact Or.inr hrefused
  · obtain ⟨t, ht⟩ := h.tracks hs
    obtain ⟨r, hok, _⟩ := h.returns ht hvisits
    exact Or.inl ⟨r, hok⟩

def forSmallGrid : Compiler :=
  { graph := .ofDevice ⟨(Blueprint.grid 2 2).normalize, .bits32⟩ }

theorem ofBlueprint_smallGrid :
    Device.ofBlueprint (.grid 2 2) = .ok forSmallGrid.graph.device := by decide +kernel

theorem singleSource_smallGrid : forSmallGrid.graph.device.SingleSource := by decide +kernel

/-- Qubit 0 meets qubit 1 and, once it is measured, qubit 2. -/
def meetings : GateProgram :=
  ⟨3, [.cz [0] [1], .localR [1, 0] .zero .zero, .measure, .cz [2] [0], .detector [0, 2] [],
    .observable [1]]⟩

def meetingSites : InitialLayout := ⟨[⟨0, 0⟩, ⟨0, 1⟩, ⟨1, 0⟩], []⟩

theorem exists_compile_meetings : ∃ r, forSmallGrid.compile meetings meetingSites = .ok r := by
  have hsome : (forSmallGrid.compile meetings meetingSites).toOption.isSome = true := by
    decide +kernel
  cases hcompile : forSmallGrid.compile meetings meetingSites with
  | error e =>
    rw [hcompile] at hsome
    cases hsome
  | ok r => exact ⟨r, rfl⟩

def earlyDetector : GateProgram := ⟨2, [.cz [0] [1], .detector [0] []]⟩

/-- The meetings are compiled. The early detector is refused, after all its atoms have been placed. -/
theorem compile_ok_or_refused_earlyDetector :
    1 ≤ forSmallGrid.config.maxVisits ∧ (∃ r, forSmallGrid.compile meetings meetingSites = .ok r) ∧
      forSmallGrid.compile earlyDetector ⟨[⟨0, 0⟩, ⟨1, 1⟩], []⟩ = .error (.invalidProgram (.notMeasured 0)) ∧
      (CompileError.invalidProgram (.notMeasured 0)).IsRefusal := by
  have hvisits : 1 ≤ forSmallGrid.config.maxVisits := by decide
  have herror : forSmallGrid.compile earlyDetector ⟨[⟨0, 0⟩, ⟨1, 1⟩], []⟩ =
      .error (.invalidProgram (.notMeasured 0)) := by rfl
  refine ⟨hvisits, exists_compile_meetings, herror, ?_⟩
  rcases compile_ok_or_refused ofBlueprint_smallGrid singleSource_smallGrid hvisits earlyDetector
    ⟨[⟨0, 0⟩, ⟨1, 1⟩], []⟩ with ⟨_, hok⟩ | ⟨e, he, hrefusal⟩
  · cases herror.symm.trans hok
  · cases herror.symm.trans he
    exact hrefusal

end Compiler

end AtomTransport
