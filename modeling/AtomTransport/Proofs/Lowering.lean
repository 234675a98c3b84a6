import AtomTransport.Proofs.Emission
import AtomTransport.Proofs.Staging

/-!
# Lowering keeps track of the atoms

Layer by layer, the block that lowering builds can be executed, the number of the current atom state
stands for atoms that realise the current placement, the results of the last measurement can be read,
and every detector and observable declares the bits of its qubits.
-/

namespace AtomTransport

namespace GateLayer

def detector? : GateLayer → Option (List Qubit)
  | detector qubits _ => some qubits
  | _ => none

def observable? : GateLayer → Option (List Qubit)
  | observable qubits => some qubits
  | _ => none

def rotated? : GateLayer → Option (List Qubit)
  | localR qubits _ _ => some qubits
  | localRz qubits _ => some qubits
  | _ => none

end GateLayer

namespace Op

def rotation? : Op → Option (Var × List Location)
  | localR state _ _ locations => some (state, locations)
  | localRz state _ locations => some (state, locations)
  | _ => none

/-- How a statement carries out a gate layer on a placement, if it acts on sites or entangles. -/
structure Carries (d : Device) (layer : GateLayer) (p : Placement) (state : Var) (t : Trace)
    (op : Op) : Prop where
  rotation : ∀ v locations, op.rotation? = some (v, locations) → v = state ∧
    ∃ qubits, layer.rotated? = some qubits ∧
      List.Forall₂ (fun q l => p.layout[q]? = some l) qubits locations
  entangling : ∀ v z, op = .cz v z → t.Stands v p ∧ ∃ controls targets,
    layer = .cz controls targets ∧ ∃ q ∈ controls, ∃ l, p.layout[q]? = some l ∧ d.zoneOf? l = some z

theorem Carries.mono {d : Device} {layer : GateLayer} {p : Placement} {state : Var} {t t' : Trace}
    {op : Op} (h : op.Carries d layer p state t) (ht : t.values <+: t'.values) :
    op.Carries d layer p state t' := by
  refine ⟨h.rotation, ?_⟩
  intro v z hop
  obtain ⟨hv, hlayer⟩ := h.entangling v z hop
  exact ⟨hv.mono ht, hlayer⟩

theorem Carries.of_inert {d : Device} {layer : GateLayer} {p : Placement} {state : Var} {t : Trace}
    {op : Op} (hrotation : op.rotation? = none) (hcz : ∀ v z, op ≠ .cz v z) :
    op.Carries d layer p state t := by
  refine ⟨?_, ?_⟩
  · intro v locations hop
    rw [hrotation] at hop
    cases hop
  · intro v z hop
    exact absurd hop (hcz v z)

theorem Carries.of_rotation {d : Device} {layer : GateLayer} {p : Placement} {state : Var} {t : Trace}
    {op : Op} {qubits : List Qubit} {locations : List Location}
    (hop : op.rotation? = some (state, locations)) (hlayer : layer.rotated? = some qubits)
    (hsites : List.Forall₂ (fun q l => p.layout[q]? = some l) qubits locations) :
    op.Carries d layer p state t := by
  refine ⟨?_, ?_⟩
  · intro v locations' hop'
    rw [hop] at hop'
    cases hop'
    exact ⟨rfl, qubits, hlayer, hsites⟩
  · rintro v z rfl
    cases hop

theorem Carries.of_stateInput? {d : Device} {layer : GateLayer} {p : Placement} {state : Var}
    {t : Trace} {op : Op} (h : op.stateInput? = none) : op.Carries d layer p state t := by
  refine .of_inert ?_ ?_
  · cases op <;> first | rfl | cases h
  · rintro v z rfl
    cases h

end Op

def bitsOf (qubits : List Qubit) : Value := .list (qubits.map .result)

namespace Lowering

/-- What holds between two gate layers: `done` are the layers so far, and `measured` is the placement
at the last measurement. -/
structure Tracks (g : LaneGraph) (done : List GateLayer) (measured : Option Placement)
    (s : Lowering) (state : Var) (p : Placement) (t : Trace) : Prop where
  executes : Executes g s.ops t
  stands : t.Stands state p
  detectors : t.detectors = (done.filterMap GateLayer.detector?).map bitsOf
  observables : t.observables = (done.filterMap GateLayer.observable?).map bitsOf
  remembers : s.Remembers g.device t measured

variable {g : LaneGraph} {s s' : Lowering} {t : Trace} {state state' : Var} {p : Placement}
  {done : List GateLayer} {measured : Option Placement}

theorem location_eq_ok {q : Qubit} {l : Location} :
    s.location q = .ok l ↔ s.layout[q]? = some l := by
  unfold location
  cases s.layout[q]? <;> simp

theorem zones_eq_ok {d : Device} {qubits : List Qubit} {zones : List Zone}
    (h : s.zones d qubits = .ok zones) :
    ∃ zs, List.Forall₂ (fun q z => ∃ l, s.layout[q]? = some l ∧ d.zoneOf? l = some z) qubits zs ∧
      zones = Ascending.ofList zs := by
  obtain ⟨zs, hmap, h⟩ := bind_eq_ok.mp h
  cases h
  rw [mapM_eq_ok] at hmap
  refine ⟨zs, hmap.imp ?_, rfl⟩
  intro q z hz
  obtain ⟨l, hl, hz⟩ := bind_eq_ok.mp hz
  exact ⟨l, location_eq_ok.mp hl, zoneOf_eq_ok.mp hz⟩

theorem forall₂_of_range {α β : Type} {R : α → β → Prop} {xs : List α} {ys : List β}
    (h : List.Forall₂ (fun i y => ∃ x, xs[i]? = some x ∧ R x y) (List.range xs.length) ys) :
    List.Forall₂ R xs ys := by
  obtain ⟨hlength, hget⟩ := List.forall₂_iff_get.mp h
  refine List.forall₂_iff_get.mpr ⟨by simpa using hlength, ?_⟩
  intro i hi hi'
  obtain ⟨x, hx, hR⟩ := hget i (by simpa using hi) hi'
  have hx : xs.get ⟨i, hi⟩ = x := by simpa [List.getElem?_eq_getElem hi] using hx
  exact hx ▸ hR

theorem checkZone_of_zones {d : Device} {qubits : List Qubit} {zones : List Zone}
    (h : s.zones d qubits = .ok zones) : ∀ z ∈ zones, d.checkZone z = .ok () := by
  obtain ⟨zs, hzs, rfl⟩ := zones_eq_ok h
  intro z hz
  obtain ⟨q, _, l, _, hl⟩ := exists_of_forall₂ hzs.flip (Ascending.mem_ofList.mp hz)
  exact (Device.zoneOf?_eq_some hl).1

theorem Tracks.quiet {layer : GateLayer} (h : Tracks g done measured s state p t) {new : List Op}
    {more : List Value} (hs : s' = s.withOps (s.ops ++ new))
    (hexec : Executes g (s.ops ++ new) (t.extend more)) (hstands : (t.extend more).Stands state' p)
    (hdetector : layer.detector? = none) (hobservable : layer.observable? = none) :
    Tracks g (done ++ [layer]) measured s' state' p (t.extend more) := by
  subst hs
  rw [← ops_withOps s (s.ops ++ new)] at hexec
  refine ⟨hexec, hstands, ?_, ?_, h.remembers.extend _ _⟩
  · rw [List.filterMap_append, List.filterMap_cons, hdetector, List.filterMap_nil, List.append_nil]
    exact h.detectors
  · rw [List.filterMap_append, List.filterMap_cons, hobservable, List.filterMap_nil, List.append_nil]
    exact h.observables

theorem Tracks.single (h : Tracks g done measured s state p t) (hp : p.Sound g.device)
    (layer : GateLayer) (op : Op) (hinput : op.stateInput? = some state)
    (hmoves : op.isEmptyMove = false) (hlocations : ∀ l ∈ op.locations, l ∈ p.layout)
    (hzones : op.zones = []) (hlanes : op.lanes = [])
    (heval : ∀ a, op.checkAddresses g.device = .ok () → op.evalAtoms g a = .ok (.atoms a))
    (hdetector : layer.detector? = none) (hobservable : layer.observable? = none)
    (hcarries : ∀ t', op.Carries g.device layer p state t') :
    ∃ new t', (s.emit op).2.ops = s.ops ++ new ∧ t.values <+: t'.values ∧
      (∀ op ∈ new, op.Carries g.device layer p state t') ∧
      Tracks g (done ++ [layer]) measured (s.emit op).2 (s.emit op).1 p t' := by
  have haddressed : op.Addressed g.device := by
    refine ⟨fun l hl => hp.exist l (hlocations l hl), ?_, ?_, ?_⟩
    · simp [hzones]
    · simp [hlanes]
    · simp [hlanes]
  obtain ⟨x, hexec, hstands⟩ := h.executes.still hinput h.stands haddressed hmoves heval
  rw [emit_eq]
  refine ⟨[op], t.extend [x], ops_withOps _ _, ⟨[x], rfl⟩, ?_,
    h.quiet rfl hexec hstands hdetector hobservable⟩
  intro op' hop
  rw [List.mem_singleton.mp hop]
  exact hcarries _

theorem layout_of_mapM {qubits : List Qubit} {locations : List Location}
    (h : qubits.mapM s.location = .ok locations) :
    List.Forall₂ (fun q l => s.layout[q]? = some l) qubits locations :=
  (mapM_eq_ok.mp h).imp fun _ _ hl => location_eq_ok.mp hl

theorem mem_layout_of_mapM {qubits : List Qubit} {locations : List Location}
    (h : qubits.mapM s.location = .ok locations) : ∀ l ∈ locations, l ∈ s.layout := by
  intro l hl
  obtain ⟨q, _, hq⟩ := exists_of_forall₂ (layout_of_mapM h).flip hl
  exact List.mem_of_getElem? hq

theorem Tracks.measure (h : Tracks g done measured s state p t) (hp : p.Sound g.device)
    (hlayout : s.layout = p.layout) (hgate : s.gate g.device state .measure = .ok (state', s')) :
    ∃ new more, s'.ops = s.ops ++ new ∧
      (∀ op ∈ new, op.Carries g.device .measure p state (t.extend more)) ∧
      Tracks g (done ++ [.measure]) (some p) s' state' p (t.extend more) := by
  obtain ⟨zones, hzones, hgate⟩ := bind_eq_ok.mp hgate
  have hcheck := checkZone_of_zones hzones
  obtain ⟨y, a, hy, ha, hrealizes⟩ := h.stands
  have haddressed : (Op.endMeasure state zones).Addressed g.device :=
    ⟨by simp [Op.locations], hcheck, by simp [Op.lanes], List.Pairwise.nil⟩
  have hmeasure : Executes g (s.ops ++ [.endMeasure state zones]) (t.extend [.measured a]) := by
    refine h.executes.stateOp rfl hy ha rfl haddressed ?_
    simp only [Op.evalAtoms, haddressed.check, ok_bind]
  have hfuture := h.executes.getElem?_last (.measured a)
  rw [← ops_withOps s (s.ops ++ [Op.endMeasure state zones])] at hmeasure
  obtain ⟨new, more, hs, hexec, hnew, hkeys, hvalues⟩ := emitResults_spec hmeasure hfuture hcheck
  simp only [emit_eq, hs, Except.ok.injEq, Prod.mk.injEq] at hgate
  obtain ⟨rfl, hs'⟩ := hgate
  have hops : s'.ops = s.ops ++ Op.endMeasure state zones :: new := by
    rw [← hs']
    refine ops_of_draft (congrArg Draft.straight ?_)
    simp
  subst hs'
  have hfuture' := Trace.getElem?_extend hfuture more
  rw [Trace.extend_extend] at hexec hvalues hfuture'
  refine ⟨.endMeasure state zones :: new, [.measured a] ++ more, hops, ?_, ?_⟩
  · refine List.forall_mem_cons.mpr ⟨.of_inert rfl (by simp), ?_⟩
    exact fun op hop => Op.Carries.of_stateInput? (hnew op hop)
  · rw [ops_withOps, List.append_assoc] at hexec
    refine ⟨hops ▸ hexec, ⟨.measured a, a, hfuture', rfl, hrealizes⟩, ?_, ?_, ?_⟩
    · rw [List.filterMap_append]
      exact h.detectors.trans (by simp [GateLayer.detector?])
    · rw [List.filterMap_append]
      exact h.observables.trans (by simp [GateLayer.observable?])
    · obtain ⟨zs, hzs, rfl⟩ := zones_eq_ok hzones
      exact ⟨hlayout, hp, ⟨zs, hlayout ▸ forall₂_of_range hzs, hkeys⟩, a, hrealizes, hvalues⟩

theorem Tracks.declare {qubits : List Qubit} {v : Var} {s₁ : Lowering}
    (h : Tracks g done measured s state p t)
    (hlist : s.emitMeasurements g.device qubits = .ok (v, s₁)) (layer : GateLayer) (op : Op)
    (hoperands : op.operands = [v]) (hmoves : op.isEmptyMove = false)
    (hfaults : Program.addressFaults g.device op = [])
    (heval : ∀ env, op.eval g env = .ok (env v))
    (hdetectors : ∀ u : Trace, (u.push op (bitsOf qubits)).detectors =
      u.detectors ++ layer.detector?.toList.map bitsOf)
    (hobservables : ∀ u : Trace, (u.push op (bitsOf qubits)).observables =
      u.observables ++ layer.observable?.toList.map bitsOf)
    (hinput : op.stateInput? = none) :
    ∃ new t', (s₁.emit op).2.ops = s.ops ++ new ∧ t.values <+: t'.values ∧
      (∀ op ∈ new, op.Carries g.device layer p state t') ∧
      Tracks g (done ++ [layer]) measured (s₁.emit op).2 state p t' := by
  obtain ⟨new, more, rfl, hexec, hnew, hv⟩ := emitMeasurements_spec h.executes h.remembers hlist
  have hlast : Executes g ((s.ops ++ new) ++ [op]) ((t.extend more).push op (bitsOf qubits)) := by
    refine hexec.snoc op ?_ hmoves hfaults (by simp [hinput]) ?_
    · intro w hw
      rw [hoperands, List.mem_singleton] at hw
      exact hw ▸ hexec.lt_length hv
    · rw [heval, Trace.value_eq hv]
      rfl
  have hvalues : ∀ (w : Var) (x : Value), t.values[w]? = some x →
      ((t.extend more).push op (bitsOf qubits)).values[w]? = some x := by
    intro w x hx
    rw [Trace.values_push]
    exact Trace.getElem?_extend (Trace.getElem?_extend hx more) [_]
  refine ⟨new ++ [op], (t.extend more).push op (bitsOf qubits), by simp [emit_eq], ?_, ?_, ?_⟩
  · rw [Trace.values_push]
    exact ⟨more ++ [bitsOf qubits], by simp [Trace.extend]⟩
  · refine List.forall_mem_append.mpr ⟨fun o ho => Op.Carries.of_stateInput? (hnew o ho), ?_⟩
    intro o ho
    rw [List.mem_singleton.mp ho]
    exact Op.Carries.of_stateInput? hinput
  · refine ⟨by simpa [emit_eq] using hlast, ?_, ?_, ?_, h.remembers.mono rfl rfl hvalues⟩
    · obtain ⟨y, a, hy, ha⟩ := h.stands
      exact ⟨y, a, hvalues _ _ hy, ha⟩
    · rw [hdetectors, List.filterMap_append, List.map_append, ← h.detectors]
      cases hl : layer.detector? <;> simp [hl, Trace.extend]
    · rw [hobservables, List.filterMap_append, List.map_append, ← h.observables]
      cases hl : layer.observable? <;> simp [hl, Trace.extend]

theorem Tracks.entangle {controls targets : List Qubit} (h : Tracks g done measured s state p t)
    (hlayout : s.layout = p.layout)
    (hgate : s.gate g.device state (.cz controls targets) = .ok (state', s')) :
    ∃ new t', s'.ops = s.ops ++ new ∧ t.values <+: t'.values ∧
      (∀ op ∈ new, op.Carries g.device (.cz controls targets) p state t') ∧
      Tracks g (done ++ [.cz controls targets]) measured s' state' p t' := by
  obtain ⟨zones, hzones, hgate⟩ := bind_eq_ok.mp hgate
  obtain ⟨new, more, hs, hexec, hstands, hnew⟩ :=
    emitCz_spec h.executes h.stands (checkZone_of_zones hzones)
  rw [Except.ok.inj hgate] at hs hstands
  refine ⟨new, t.extend more, (congrArg Lowering.ops hs).trans (ops_withOps _ _), ⟨more, rfl⟩, ?_,
    h.quiet hs hexec hstands rfl rfl⟩
  intro op hop
  obtain ⟨v, z, rfl, hz, hv⟩ := hnew op hop
  refine ⟨by simp [Op.rotation?], ?_⟩
  rintro _ _ ⟨⟩
  obtain ⟨zs, hzs, rfl⟩ := zones_eq_ok hzones
  obtain ⟨q, hq, l, hl, hzone⟩ := exists_of_forall₂ hzs.flip (Ascending.mem_ofList.mp hz)
  exact ⟨hv, controls, targets, rfl, q, hq, l, hlayout ▸ hl, hzone⟩

/-- Every gate appends statements that carry it out; of what is known about the block, only the layers
that are done and the last measurement change with it. -/
theorem Tracks.gate {layer : GateLayer} (h : Tracks g done measured s state p t)
    (hp : p.Sound g.device) (hlayout : s.layout = p.layout)
    (hgate : s.gate g.device state layer = .ok (state', s')) :
    ∃ new t', s'.ops = s.ops ++ new ∧ t.values <+: t'.values ∧
      (∀ op ∈ new, op.Carries g.device layer p state t') ∧
      Tracks g (done ++ [layer]) (if layer = .measure then some p else measured) s' state' p t' := by
  cases layer with
  | cz controls targets => exact h.entangle hlayout hgate
  | localR qubits axis rotation =>
    obtain ⟨locations, hlocations, hgate⟩ := bind_eq_ok.mp hgate
    cases hgate
    exact h.single hp (.localR qubits axis rotation) (.localR state axis rotation locations) rfl rfl
      (hlayout ▸ mem_layout_of_mapM hlocations) rfl rfl
      (fun a hcheck => by simp only [Op.evalAtoms, hcheck, ok_bind]) rfl rfl
      (fun _ => .of_rotation rfl rfl (hlayout ▸ layout_of_mapM hlocations))
  | globalR axis rotation =>
    cases hgate
    exact h.single hp (.globalR axis rotation) (.globalR state axis rotation) rfl rfl
      (by simp [Op.locations]) rfl rfl
      (fun a hcheck => by simp only [Op.evalAtoms, hcheck, ok_bind]) rfl rfl
      (fun _ => .of_inert rfl (by simp))
  | localRz qubits rotation =>
    obtain ⟨locations, hlocations, hgate⟩ := bind_eq_ok.mp hgate
    cases hgate
    exact h.single hp (.localRz qubits rotation) (.localRz state rotation locations) rfl rfl
      (hlayout ▸ mem_layout_of_mapM hlocations) rfl rfl
      (fun a hcheck => by simp only [Op.evalAtoms, hcheck, ok_bind]) rfl rfl
      (fun _ => .of_rotation rfl rfl (hlayout ▸ layout_of_mapM hlocations))
  | globalRz rotation =>
    cases hgate
    exact h.single hp (.globalRz rotation) (.globalRz state rotation) rfl rfl
      (by simp [Op.locations]) rfl rfl
      (fun a hcheck => by simp only [Op.evalAtoms, hcheck, ok_bind]) rfl rfl
      (fun _ => .of_inert rfl (by simp))
  | measure =>
    obtain ⟨new, more, hops, hnew, htracks⟩ := h.measure hp hlayout hgate
    exact ⟨new, t.extend more, hops, ⟨more, rfl⟩, hnew, htracks⟩
  | detector qubits coordinates =>
    obtain ⟨⟨v, s₁⟩, hlist, hgate⟩ := bind_eq_ok.mp hgate
    cases hgate
    exact h.declare hlist (.detector qubits coordinates) (.setDetector v coordinates) rfl rfl rfl
      (fun _ => rfl) (fun _ => rfl) (fun _ => by simp [Trace.push, GateLayer.observable?]) rfl
  | observable qubits =>
    obtain ⟨⟨v, s₁⟩, hlist, hgate⟩ := bind_eq_ok.mp hgate
    cases hgate
    obtain ⟨new, t', hops, hprefix, hnew, htracks⟩ := h.declare hlist (.observable qubits)
      (.setObservable v s₁.observables) rfl rfl rfl (fun _ => rfl)
      (fun _ => by simp [Trace.push, GateLayer.detector?]) (fun _ => rfl) rfl
    exact ⟨new, t', hops, hprefix, hnew, htracks.executes, htracks.stands, htracks.detectors,
      htracks.observables, htracks.remembers.mono rfl rfl fun _ _ hv => hv⟩

theorem Tracks.enter {moves : List MoveLayer} {after : Placement} (hs : g.device.SingleSource)
    (h : Tracks g done measured s state p t) (hrun : Run g p moves after) :
    ∃ new t', (s.emitMoves state moves).2.ops = s.ops ++ new ∧ t.values <+: t'.values ∧
      (∀ op ∈ new, ∃ v lanes, op = .move v lanes) ∧
      Tracks g done measured { (s.emitMoves state moves).2 with layout := after.layout }
        (s.emitMoves state moves).1 after t' := by
  obtain ⟨new, more, hops, hexec, hstands, hnew⟩ :=
    emitMoves_spec hs h.executes h.stands hrun
  rw [hops]
  rw [← ops_withOps s (s.ops ++ new)] at hexec
  exact ⟨new, t.extend more, ops_withOps _ _, ⟨more, rfl⟩, hnew, hexec, hstands, h.detectors, h.observables,
    h.remembers.mono rfl rfl fun _ _ hv => Trace.getElem?_extend hv more⟩

theorem layers_cons {d : Device} {layer : GateLayer} {placement : LayerPlacement}
    {moves : List MoveLayer} {rest : List (GateLayer × LayerPlacement × List MoveLayer)}
    {after : Placement} (hafter : placement.after = .known after) :
    layers d s state ((layer, placement, moves) :: rest) =
      (({ (s.emitMoves state moves).2 with layout := after.layout } : Lowering).gate d
        (s.emitMoves state moves).1 layer >>= fun r => layers d r.2 r.1 rest) := by
  simp only [layers, hafter, PlacementInfo.known?]

theorem layers_append {d : Device} {xs ys : List (GateLayer × LayerPlacement × List MoveLayer)} :
    layers d s state (xs ++ ys) = (layers d s state xs >>= fun r => layers d r.2 r.1 ys) := by
  induction xs generalizing s state with
  | nil => rfl
  | cons x xs ih =>
    obtain ⟨layer, placement, moves⟩ := x
    simp only [List.cons_append, layers]
    cases placement.after.known? with
    | none => rfl
    | some after => simp only [bind_assoc, ih]

def measuredAfter : Option Placement → List (GateLayer × LayerPlacement × List MoveLayer) →
    Option Placement
  | measured, [] => measured
  | measured, (layer, placement, _) :: rest =>
    measuredAfter (if layer = .measure then placement.after.known? else measured) rest

variable {stages : List (GateLayer × LayerPlacement × List MoveLayer)} {last : Placement}

/-- Lowering all layers of a staged program keeps track of its atoms. -/
theorem Tracks.layers (hs : g.device.SingleSource) (h : Tracks g done measured s state p t)
    (hp : p.Sound g.device) (hstaged : Staged g p stages last)
    (hlayers : layers g.device s state stages = .ok (state', s')) :
    ∃ new t', s'.ops = s.ops ++ new ∧ t.values <+: t'.values ∧
      Tracks g (done ++ stages.map (·.1)) (measuredAfter measured stages) s' state' last t' := by
  induction stages generalizing s state p t done measured with
  | nil =>
    cases hlayers
    obtain rfl : p = last := hstaged
    exact ⟨[], t, by simp, List.prefix_refl _, by simpa [measuredAfter] using h⟩
  | cons x stages ih =>
    obtain ⟨layer, placement, moves⟩ := x
    obtain ⟨after, hafter, hrun, hsound, _, hrest⟩ := hstaged
    rw [layers_cons hafter] at hlayers
    obtain ⟨⟨v, s₂⟩, hgate, hlayers⟩ := bind_eq_ok.mp hlayers
    obtain ⟨new₁, t₁, hops₁, ht₁, _, h₁⟩ := h.enter hs hrun
    obtain ⟨new₂, t₂, hops₂, ht₂, _, h₂⟩ := h₁.gate hsound rfl hgate
    obtain ⟨new₃, t₃, hops₃, ht₃, h₃⟩ := ih h₂ hsound hrest hlayers
    refine ⟨new₁ ++ new₂ ++ new₃, t₃, ?_, (ht₁.trans ht₂).trans ht₃, ?_⟩
    · change s₂.ops = (s.emitMoves state moves).2.ops ++ new₂ at hops₂
      rw [hops₃, hops₂, hops₁]
      simp
    · simpa [measuredAfter, hafter, PlacementInfo.known?] using h₃

def entering (d : Device) (s : Lowering) (state : Var)
    (stages : List (GateLayer × LayerPlacement × List MoveLayer)) (k : Nat) :
    Except CompileError (Var × Lowering) := do
  let (state, s) ← layers d s state (stages.take k)
  .ok (s.emitMoves state ((stages[k]?.map (·.2.2)).getD []))

theorem measuredAfter_append {xs ys : List (GateLayer × LayerPlacement × List MoveLayer)} :
    measuredAfter measured (xs ++ ys) = measuredAfter (measuredAfter measured xs) ys := by
  induction xs generalizing measured with
  | nil => rfl
  | cons x xs ih => exact ih

/-- At every layer, the state that enters the gate realises the placement of the layer, and the
statements of the gate carry it out. -/
theorem Tracks.entering {k : Nat} {layer : GateLayer} {placement : LayerPlacement}
    {moves : List MoveLayer} (hs : g.device.SingleSource) (h : Tracks g done measured s state p t)
    (hp : p.Sound g.device) (hstaged : Staged g p stages last)
    (hlayers : Lowering.layers g.device s state stages = .ok (state', s'))
    (hk : stages[k]? = some (layer, placement, moves)) :
    ∃ after v s₁ v' s₂ new t', placement.after = .known after ∧ after.Sound g.device ∧
      layer.Paired g.device after ∧ s.entering g.device state stages k = .ok (v, s₁) ∧
      ({ s₁ with layout := after.layout } : Lowering).gate g.device v layer = .ok (v', s₂) ∧
      s₂.ops = s₁.ops ++ new ∧ s₂.ops <+: s'.ops ∧ t'.Stands v after ∧
      (∀ op ∈ new, op.Carries g.device layer after v t') ∧
      Tracks g (done ++ stages.map (·.1)) (measuredAfter measured stages) s' state' last t' := by
  obtain ⟨hlt, hget⟩ := List.getElem?_eq_some_iff.mp hk
  have hsplit : stages.take k ++ (layer, placement, moves) :: stages.drop (k + 1) = stages := by
    rw [← hget, List.getElem_cons_drop, List.take_append_drop]
  have hentering : Lowering.entering g.device s state stages k =
      (Lowering.layers g.device s state (stages.take k) >>= fun r => .ok (r.2.emitMoves r.1 moves)) := by
    rw [Lowering.entering, hk]
    rfl
  rw [← hsplit] at hstaged hlayers
  obtain ⟨mid, hbefore, after, hafter, hrun, hsound, hpaired, hrest⟩ := hstaged.split
  rw [layers_append, bind_eq_ok] at hlayers
  obtain ⟨⟨u, s₀⟩, htake, hlayers⟩ := hlayers
  rw [layers_cons hafter] at hlayers
  obtain ⟨⟨v', s₂⟩, hgate, hlayers⟩ := bind_eq_ok.mp hlayers
  obtain ⟨_, t₀, _, _, h₀⟩ := h.layers hs hp hbefore htake
  obtain ⟨_, t₁, hops₁, _, _, h₁⟩ := h₀.enter hs hrun
  obtain ⟨new, t₂, hops₂, ht₂, hnew, h₂⟩ := h₁.gate hsound rfl hgate
  obtain ⟨more, t₃, hops₃, ht₃, h₃⟩ := h₂.layers hs hsound hrest hlayers
  refine ⟨after, (s₀.emitMoves u moves).1, (s₀.emitMoves u moves).2, v', s₂, new, t₃, hafter, hsound,
    hpaired, ?_, hgate, hops₂, ⟨more, hops₃.symm⟩, h₁.stands.mono (ht₂.trans ht₃),
    fun op hop => (hnew op hop).mono ht₃, ?_⟩
  · rw [hentering, htake]
    rfl
  · have hmeasured : measuredAfter measured stages = measuredAfter (if layer = .measure then
        some after else measuredAfter measured (stages.take k)) (stages.drop (k + 1)) := by
      conv_lhs => rw [← hsplit, measuredAfter_append, measuredAfter, hafter, PlacementInfo.known?]
    have hdone : stages.map (·.1) =
        (stages.take k).map (·.1) ++ ([layer] ++ (stages.drop (k + 1)).map (·.1)) := by
      conv_lhs => rw [← hsplit, List.map_append, List.map_cons]
      rfl
    rw [hmeasured, hdone, ← List.append_assoc, ← List.append_assoc]
    exact h₃

theorem Tracks.mem_ops (hs : g.device.SingleSource) (h : Tracks g done measured s state p t)
    (hp : p.Sound g.device) (hstaged : Staged g p stages last)
    (hlayers : Lowering.layers g.device s state stages = .ok (state', s')) {i : Nat} {op : Op}
    (hi : s'.ops[i]? = some op) :
    i < s.ops.length ∨ (∃ v lanes, op = .move v lanes) ∨
      ∃ k layer placement moves after v s₁ v' s₂, stages[k]? = some (layer, placement, moves) ∧
        placement.after = .known after ∧ s.entering g.device state stages k = .ok (v, s₁) ∧
        ({ s₁ with layout := after.layout } : Lowering).gate g.device v layer = .ok (v', s₂) ∧
        s₁.ops.length ≤ i ∧ s₂.ops[i]? = some op := by
  induction stages generalizing s state p t done measured with
  | nil =>
    cases hlayers
    exact Or.inl (List.getElem?_eq_some_iff.mp hi).1
  | cons x stages ih =>
    obtain ⟨layer, placement, moves⟩ := x
    obtain ⟨after, hafter, hrun, hsound, _, hrest⟩ := hstaged
    rw [layers_cons hafter] at hlayers
    obtain ⟨⟨v, s₂⟩, hgate, hlayers⟩ := bind_eq_ok.mp hlayers
    obtain ⟨new₁, t₁, hops₁, _, hmoves, h₁⟩ := h.enter hs hrun
    obtain ⟨new₂, t₂, hops₂, _, _, h₂⟩ := h₁.gate hsound rfl hgate
    obtain ⟨new₃, t₃, hops₃, _, _⟩ := h₂.layers hs hsound hrest hlayers
    rcases ih h₂ hsound hrest hlayers with hlt | hmove | ⟨k, rest⟩
    · change s₂.ops = (s.emitMoves state moves).2.ops ++ new₂ at hops₂
      have hi₂ : s₂.ops[i]? = some op := by
        rw [← hi, hops₃, List.getElem?_append_left hlt]
      by_cases hi₁ : i < (s.emitMoves state moves).2.ops.length
      · by_cases hi₀ : i < s.ops.length
        · exact Or.inl hi₀
        · rw [hops₂, List.getElem?_append_left hi₁, hops₁,
            List.getElem?_append_right (Nat.le_of_not_lt hi₀)] at hi₂
          exact Or.inr (Or.inl (hmoves op (List.mem_of_getElem? hi₂)))
      · exact Or.inr (Or.inr ⟨0, layer, placement, moves, after, _, _, v, s₂, rfl, hafter, rfl, hgate,
          Nat.le_of_not_lt hi₁, hi₂⟩)
    · exact Or.inr (Or.inl hmove)
    · obtain ⟨layer', placement', moves', after', u, s₁, u', s₂', hk, hafter', hentering, hrest⟩ := rest
      refine Or.inr (Or.inr ⟨k + 1, layer', placement', moves', after', u, s₁, u', s₂', hk, hafter', ?_,
        hrest⟩)
      rw [← hentering, Lowering.entering, Lowering.entering, List.take_succ_cons, layers_cons hafter,
        hgate, ok_bind, List.getElem?_cons_succ]

def zoneTree (d : Device) (a : Atoms) : List Zone → Value
  | [z] => Op.zoneResults d a z
  | zs => .list (zs.map (Op.zoneResults d a))

theorem Remembers.kept {d : Device} (h : s.Remembers d t measured) (hne : s.results ≠ []) :
    ∃ m a zs, measured = some m ∧ m.Sound d ∧ a.Realizes m ∧
      List.Forall₂ (fun l z => d.zoneOf? l = some z) m.layout zs ∧
      s.results.map (·.1) = Ascending.ofList zs ∧
      ∀ e ∈ s.results, t.values[e.2]? = some (Op.zoneResults d a e.1) := by
  cases measured with
  | none => exact absurd h.1 hne
  | some m =>
    obtain ⟨_, hsound, ⟨zs, hzs, hkeys⟩, a, ha, hvalues⟩ := h
    exact ⟨m, a, zs, rfl, hsound, ha, hzs, hkeys, hvalues⟩

theorem Tracks.result (h : Tracks g done measured s state p t) :
    ∃ new more x, (s.result state).2.ops = s.ops ++ new ∧ (∀ op ∈ new, op.stateInput? = none) ∧
      Executes g (s.ops ++ new) (t.extend more) ∧
      (t.extend more).values[(s.result state).1]? = some x ∧
      ((s.results = [] ∧ ∃ a, x.atoms? = some a) ∨ ∃ m a zs, measured = some m ∧
        m.Sound g.device ∧ a.Realizes m ∧
        List.Forall₂ (fun l z => g.device.zoneOf? l = some z) m.layout zs ∧
        x = zoneTree g.device a (Ascending.ofList zs)) := by
  unfold Lowering.result
  split
  next hresults =>
    obtain ⟨y, a, hy, ha, _⟩ := h.stands
    exact ⟨[], [], y, by simp, by simp, by simpa using h.executes, by simpa using hy,
      Or.inl ⟨hresults, a, ha⟩⟩
  next z v hresults =>
    obtain ⟨m, a, zs, hm, hsound, ha, hzs, hkeys, hvalues⟩ :=
      h.remembers.kept (by simp [hresults])
    rw [hresults] at hkeys hvalues
    refine ⟨[], [], Op.zoneResults g.device a z, by simp, by simp, by simpa using h.executes, ?_,
      Or.inr ⟨m, a, zs, hm, hsound, ha, hzs, ?_⟩⟩
    · simpa using hvalues (z, v) List.mem_cons_self
    · rw [← hkeys]
      rfl
  next hnil hone =>
    obtain ⟨m, a, zs, hm, hsound, ha, hzs, hkeys, hvalues⟩ := h.remembers.kept hnil
    have hread : List.Forall₂ (fun v x => t.values[v]? = some x) (s.results.map (·.2))
        ((s.results.map (·.1)).map (Op.zoneResults g.device a)) := by
      rw [List.map_map, List.forall₂_map_left_iff, List.forall₂_map_right_iff, List.forall₂_same]
      exact hvalues
    rw [emit_eq]
    refine ⟨[.newList (s.results.map (·.2))],
      [.list ((s.results.map (·.1)).map (Op.zoneResults g.device a))], _, ops_withOps _ _, by simp [Op.stateInput?],
      h.executes.newList hread, h.executes.getElem?_last _, Or.inr ⟨m, a, zs, hm, hsound, ha, hzs, ?_⟩⟩
    rw [← hkeys]
    unfold zoneTree
    split
    next z heq =>
      obtain ⟨e, he, _⟩ := List.map_eq_singleton_iff.mp heq
      exact absurd he (hone e.1 e.2)
    · rfl

end Lowering

end AtomTransport
