import AtomTransport.Proofs.Atoms
import AtomTransport.Proofs.StraightLine

/-!
# Statements that lowering emits

Lowering appends statements to a block. Each of its emitters is followed here on the trace of the
block: moves lead the atoms along a run, gates leave them in place, and the results of a measurement
can be read qubit by qubit as long as the block goes on.
-/

namespace AtomTransport

namespace Op

theorem operands_of_stateInput? {op : Op} {v : Var} (h : op.stateInput? = some v) : op.operands = [v] := by
  cases op <;> cases h <;> rfl

structure Addressed (d : Device) (op : Op) : Prop where
  locations : ∀ l ∈ op.locations, d.hasLocation l = true
  zones : ∀ z ∈ op.zones, d.checkZone z = .ok ()
  lanes : ∀ lane ∈ op.lanes, d.checkLane lane = .ok ()
  compatible : op.lanes.Pairwise (fun a b => d.compatible a b = true)

variable {d : Device} {op : Op}

theorem incompatiblePairs_eq_nil {lanes : List Lane}
    (h : lanes.Pairwise (fun a b => d.compatible a b = true)) :
    Program.incompatiblePairs d lanes = [] := by
  induction lanes with
  | nil => rfl
  | cons lane lanes ih =>
    obtain ⟨hlane, hlanes⟩ := List.pairwise_cons.mp h
    have hnone : lanes.filter (fun other => !d.compatible lane other) = [] := by
      refine List.filter_eq_nil_iff.mpr ?_
      intro other hother
      simp [hlane other hother]
    rw [Program.incompatiblePairs, hnone, ih hlanes]
    rfl

theorem Addressed.faults (h : op.Addressed d) : Program.addressFaults d op = [] := by
  have hnone : ∀ {α : Type} (xs : List α) (f : α → Except AddressError Unit),
      (∀ x ∈ xs, f x = .ok ()) → (xs.filterMap fun x => Program.faultOf (f x)) = [] := by
    intro α xs f hf
    refine List.filterMap_eq_nil_iff.mpr ?_
    intro x hx
    rw [hf x hx]
    rfl
  have hlocations := hnone op.locations d.checkLocation
    fun l hl => Device.checkLocation_eq_ok_iff.mpr (h.locations l hl)
  rw [Program.addressFaults, hlocations, hnone _ _ h.zones, hnone _ _ h.lanes,
    incompatiblePairs_eq_nil h.compatible]
  rfl

theorem Addressed.check (h : op.Addressed d) : op.checkAddresses d = .ok () := by
  have hlocations : op.locations.forM d.checkLocation = .ok () :=
    forM_eq_ok.mpr fun l hl => Device.checkLocation_eq_ok_iff.mpr (h.locations l hl)
  have hzones : op.zones.forM d.checkZone = .ok () := forM_eq_ok.mpr h.zones
  simp only [checkAddresses, hlocations, ok_bind, hzones, Except.mapError]

end Op

namespace Trace

def Stands (t : Trace) (v : Var) (p : Placement) : Prop :=
  ∃ y a, t.values[v]? = some y ∧ y.atoms? = some a ∧ a.Realizes p

theorem Stands.mono {t t' : Trace} {v : Var} {p : Placement} (h : t.Stands v p)
    (ht : t.values <+: t'.values) : t'.Stands v p := by
  obtain ⟨y, a, hy, ha, hp⟩ := h
  have hlt := (List.getElem?_eq_some_iff.mp hy).1
  obtain ⟨xs, hxs⟩ := ht
  exact ⟨y, a, by rw [← hxs, List.getElem?_append_left hlt, hy], ha, hp⟩

theorem Stands.extend {t : Trace} {v : Var} {p : Placement} (h : t.Stands v p) (xs : List Value) :
    (t.extend xs).Stands v p := h.mono ⟨xs, rfl⟩

end Trace

namespace Executes

variable {g : LaneGraph} {ops : List Op} {t : Trace}

theorem lt_length (h : Executes g ops t) {v : Var} {x : Value} (hv : t.values[v]? = some x) :
    v < ops.length := by
  rw [← h.length_values]
  exact (List.getElem?_eq_some_iff.mp hv).1

theorem getElem?_last (h : Executes g ops t) (x : Value) :
    (t.extend [x]).values[ops.length]? = some x := by
  rw [← h.length_values]
  exact List.getElem?_concat_length

theorem stateOp (h : Executes g ops t) {op : Op} {v : Var} {y x : Value} {a : Atoms}
    (hinput : op.stateInput? = some v) (hy : t.values[v]? = some y) (ha : y.atoms? = some a)
    (hmoves : op.isEmptyMove = false) (haddressed : op.Addressed g.device)
    (heval : op.evalAtoms g a = .ok x) : Executes g (ops ++ [op]) (t.extend [x]) := by
  have hscope : ∀ w ∈ op.operands, w < ops.length := by
    intro w hw
    rw [Op.operands_of_stateInput? hinput, List.mem_singleton] at hw
    exact hw ▸ h.lt_length hy
  have heval' : op.eval g t.value = .ok x := by
    simp only [Op.eval, hinput, Trace.value_eq hy, ha, heval]
  have hpush : t.push op x = t.extend [x] := by
    cases op <;> cases hinput <;> rfl
  have hacts : ∀ w, op.stateInput? = some w → ∃ a, (t.value w).atoms? = some a := by
    intro w hw
    cases hinput.symm.trans hw
    exact ⟨a, by rw [Trace.value_eq hy, ha]⟩
  exact hpush ▸ h.snoc op hscope hmoves haddressed.faults hacts heval'

theorem still (h : Executes g ops t) {op : Op} {v : Var} {p : Placement}
    (hinput : op.stateInput? = some v) (hv : t.Stands v p) (haddressed : op.Addressed g.device)
    (hmoves : op.isEmptyMove = false)
    (heval : ∀ a, op.checkAddresses g.device = .ok () → op.evalAtoms g a = .ok (.atoms a)) :
    ∃ x, Executes g (ops ++ [op]) (t.extend [x]) ∧ (t.extend [x]).Stands ops.length p := by
  obtain ⟨y, a, hy, ha, hp⟩ := hv
  exact ⟨.atoms a, h.stateOp hinput hy ha hmoves haddressed (heval a haddressed.check),
    .atoms a, a, h.getElem?_last _, rfl, hp⟩

theorem getFutureResult (h : Executes g ops t) {future : Var} {a : Atoms} {z : Zone}
    (hfuture : t.values[future]? = some (.measured a)) (hz : g.device.checkZone z = .ok ()) :
    Executes g (ops ++ [.getFutureResult future z]) (t.extend [Op.zoneResults g.device a z]) := by
  refine h.snoc (.getFutureResult future z) ?_ rfl ?_ nofun ?_
  · intro v hv
    rw [List.mem_singleton.mp hv]
    exact h.lt_length hfuture
  · refine Op.Addressed.faults ⟨by simp [Op.locations], ?_, by simp [Op.lanes], List.Pairwise.nil⟩
    simpa [Op.zones] using hz
  · simp only [Op.eval, Op.stateInput?, Trace.value_eq hfuture, hz, Except.mapError, ok_bind]

theorem getZoneIndex (h : Executes g ops t) {z : Zone} {l : Location} {i : Nat}
    (hz : g.device.checkZone z = .ok ()) (hl : g.device.hasLocation l = true)
    (hindex : g.device.zoneIndex? z l = some i) :
    Executes g (ops ++ [.getZoneIndex z l]) (t.extend [.scalar (.int i)]) := by
  refine h.snoc (.getZoneIndex z l) (by simp [Op.operands, Op.stateInput?]) rfl ?_ nofun ?_
  · refine Op.Addressed.faults ⟨?_, ?_, by simp [Op.lanes], List.Pairwise.nil⟩
    · simpa [Op.locations] using hl
    · simpa [Op.zones] using hz
  · simp only [Op.eval, Op.stateInput?, hz, Except.mapError, ok_bind,
      Device.checkLocation_eq_ok_iff.mpr hl, hindex]

theorem getItem (h : Executes g ops t) {list index : Var} {x y : Value}
    (hlist : t.values[list]? = some x) (hindex : t.values[index]? = some y) :
    Executes g (ops ++ [.getItem list index]) (t.extend [Op.item x y]) := by
  refine h.snoc (.getItem list index) ?_ rfl rfl nofun ?_
  · intro v hv
    rcases List.mem_pair.mp hv with rfl | rfl
    · exact h.lt_length hlist
    · exact h.lt_length hindex
  · simp only [Op.eval, Op.stateInput?, Trace.value_eq hlist, Trace.value_eq hindex]

theorem newList (h : Executes g ops t) {items : List Var} {xs : List Value}
    (hitems : List.Forall₂ (fun v x => t.values[v]? = some x) items xs) :
    Executes g (ops ++ [.newList items]) (t.extend [.list xs]) := by
  have hvalues : items.map t.value = xs := by
    rw [← List.forall₂_eq_eq_eq, List.forall₂_map_left_iff]
    exact hitems.imp fun _ _ hv => Trace.value_eq hv
  refine h.snoc (.newList items) ?_ rfl rfl nofun ?_
  · intro v hv
    obtain ⟨x, _, hx⟩ := exists_of_forall₂ hitems hv
    exact h.lt_length hx
  · simp only [Op.eval, Op.stateInput?, hvalues]

end Executes

namespace Lowering

def ops (s : Lowering) : List Op := s.draft.blocks.flatMap fun b => b.statements.map (·.op)

def withOps (s : Lowering) (ops : List Op) : Lowering :=
  { s with draft := .straight ops, straight := ⟨ops, rfl⟩ }

section Ops

variable {s : Lowering} {ops : List Op}

theorem ops_of_draft (h : s.draft = .straight ops) : s.ops = ops := by
  simp [Lowering.ops, h, Draft.straight, Function.comp_def]

theorem draft_eq : s.draft = .straight s.ops := by
  obtain ⟨ops, hdraft⟩ := s.straight
  rw [hdraft, ops_of_draft hdraft]

@[simp] theorem ops_withOps (s : Lowering) (ops : List Op) : (s.withOps ops).ops = ops := ops_of_draft rfl

@[simp] theorem withOps_withOps (more : List Op) : (s.withOps ops).withOps more = s.withOps more := rfl

@[simp] theorem withOps_ops : s.withOps s.ops = s := by
  simp only [withOps, ← draft_eq]

theorem emit_eq (op : Op) : s.emit op = (s.ops.length, s.withOps (s.ops ++ [op])) := by
  simp only [emit, withOps, draft_eq, Draft.push_straight]

theorem emit_fst (op : Op) : (s.emit op).1 = s.ops.length := by
  rw [emit_eq]

theorem ops_emit (op : Op) : (s.emit op).2.ops = s.ops ++ [op] := by
  rw [emit_eq, ops_withOps]

end Ops

variable {g : LaneGraph} {s : Lowering} {t : Trace} {state : Var} {p : Placement}

/-- Entangling zone after zone leaves the atoms in place; every statement acts on them. -/
theorem emitCz_spec {zones : List Zone} (h : Executes g s.ops t) (hstate : t.Stands state p)
    (hzones : ∀ z ∈ zones, g.device.checkZone z = .ok ()) :
    ∃ new more, (s.emitCz state zones).2 = s.withOps (s.ops ++ new) ∧
      Executes g (s.ops ++ new) (t.extend more) ∧
      (t.extend more).Stands (s.emitCz state zones).1 p ∧
      ∀ op ∈ new, ∃ v z, op = .cz v z ∧ z ∈ zones ∧ (t.extend more).Stands v p := by
  induction zones generalizing s t state with
  | nil => exact ⟨[], [], by simp [emitCz], by simpa using h, by simpa [emitCz] using hstate, by simp⟩
  | cons z zones ih =>
    rw [List.forall_mem_cons] at hzones
    have haddressed : (Op.cz state z).Addressed g.device :=
      ⟨by simp [Op.locations], by simpa [Op.zones] using hzones.1, by simp [Op.lanes],
        List.Pairwise.nil⟩
    obtain ⟨x, hx, hnext⟩ := h.still rfl hstate haddressed rfl
      (fun a hcheck => by simp only [Op.evalAtoms, hcheck, ok_bind])
    rw [← ops_emit] at hx
    obtain ⟨new, more, hs, hexec, hstands, hnew⟩ := ih hx hnext hzones.2
    rw [Trace.extend_extend] at hexec hstands hnew
    refine ⟨.cz state z :: new, [x] ++ more, ?_, ?_, ?_, ?_⟩
    · simpa [emitCz, emit_eq] using hs
    · simpa [emit_eq] using hexec
    · simpa only [emitCz, emit_eq] using hstands
    · refine List.forall_mem_cons.mpr ⟨⟨state, z, rfl, List.mem_cons_self, hstate.extend _⟩, ?_⟩
      intro op hop
      obtain ⟨v, z', hop, hz', hv⟩ := hnew op hop
      exact ⟨v, z', hop, List.mem_cons_of_mem _ hz', hv⟩

/-- The moves of a run lead the atoms to its last placement. -/
theorem emitMoves_spec {moves : List MoveLayer} {p' : Placement} (hs : g.device.SingleSource)
    (h : Executes g s.ops t) (hstate : t.Stands state p) (hrun : Run g p moves p') :
    ∃ new more, (s.emitMoves state moves).2 = s.withOps (s.ops ++ new) ∧
      Executes g (s.ops ++ new) (t.extend more) ∧
      (t.extend more).Stands (s.emitMoves state moves).1 p' ∧
      ∀ op ∈ new, ∃ v lanes, op = .move v lanes := by
  induction moves generalizing s t state p with
  | nil =>
    obtain rfl : p = p' := hrun
    exact ⟨[], [], by simp [emitMoves], by simpa using h, by simpa [emitMoves] using hstate, by simp⟩
  | cons layer moves ih =>
    obtain ⟨hops, hlanes, hstep, hrun⟩ := hrun
    by_cases hempty : layer.isEmpty = true
    · have hops_nil : hops = [] := by
        rw [MoveLayer.isEmpty, List.isEmpty_iff, hlanes, List.map_eq_nil_iff] at hempty
        exact hempty
      rw [hops_nil, Placement.hopAll_nil] at hrun
      simpa only [emitMoves, hempty, if_true] using ih h hstate hrun
    · obtain ⟨y, a, hy, ha, hp⟩ := hstate
      obtain ⟨a', hmove, ha'⟩ := hp.move hs hstep
      rw [← hlanes] at hmove
      have hedge : ∀ lane ∈ layer.lanes, g.device.checkLane lane = .ok () := by
        intro lane hlane
        rw [hlanes] at hlane
        obtain ⟨hop, hhop, rfl⟩ := List.mem_map.mp hlane
        have hends := (Device.endpoints_of_mem_edges hs (g.edges_eq ▸ hstep.edges hop hhop)).1
        rw [Device.checkLane, hends]
        rfl
      have haddressed : (Op.move state layer.lanes).Addressed g.device :=
        ⟨by simp [Op.locations], by simp [Op.zones], hedge, hlanes ▸ hstep.compatible⟩
      have hnonempty : (Op.move state layer.lanes).isEmptyMove = false := by
        simpa [Op.isEmptyMove, MoveLayer.isEmpty] using hempty
      have hx : Executes g (s.ops ++ [.move state layer.lanes]) (t.extend [.atoms a']) := by
        refine h.stateOp rfl hy ha hnonempty haddressed ?_
        simp only [Op.evalAtoms, haddressed.check, ok_bind, hmove]
      rw [← ops_emit] at hx
      obtain ⟨new, more, hs', hexec, hstands, hnew⟩ :=
        ih hx ⟨.atoms a', a', h.getElem?_last _, rfl, ha'⟩ hrun
      rw [Trace.extend_extend] at hexec hstands
      refine ⟨.move state layer.lanes :: new, [.atoms a'] ++ more, ?_, ?_, ?_, ?_⟩
      · simpa [emitMoves, hempty, emit_eq] using hs'
      · simpa [emit_eq] using hexec
      · simpa [emitMoves, hempty, emit_eq] using hstands
      · exact List.forall_mem_cons.mpr ⟨⟨state, layer.lanes, rfl⟩, hnew⟩

theorem emitResults_spec {zones : List Zone} {future : Var} {a : Atoms} (h : Executes g s.ops t)
    (hfuture : t.values[future]? = some (.measured a))
    (hzones : ∀ z ∈ zones, g.device.checkZone z = .ok ()) :
    ∃ new more, (s.emitResults future zones).2 = s.withOps (s.ops ++ new) ∧
      Executes g (s.ops ++ new) (t.extend more) ∧ (∀ op ∈ new, op.stateInput? = none) ∧
      (s.emitResults future zones).1.map (·.1) = zones ∧
      ∀ e ∈ (s.emitResults future zones).1,
        (t.extend more).values[e.2]? = some (Op.zoneResults g.device a e.1) := by
  induction zones generalizing s t with
  | nil =>
    exact ⟨[], [], by simp [emitResults], by simpa using h, by simp, rfl, by simp [emitResults]⟩
  | cons z zones ih =>
    rw [List.forall_mem_cons] at hzones
    have hx := h.getFutureResult hfuture hzones.1
    rw [← ops_emit] at hx
    obtain ⟨new, more, hs, hexec, hnew, hkeys, hvalues⟩ := ih hx (Trace.getElem?_extend hfuture _) hzones.2
    have hfirst := Trace.getElem?_extend (h.getElem?_last (Op.zoneResults g.device a z)) more
    rw [Trace.extend_extend] at hexec hvalues hfirst
    rw [← emit_fst (.getFutureResult future z)] at hfirst
    refine ⟨.getFutureResult future z :: new, [Op.zoneResults g.device a z] ++ more, ?_, ?_, ?_, ?_, ?_⟩
    · simpa [emitResults, emit_eq] using hs
    · simpa [emit_eq] using hexec
    · exact List.forall_mem_cons.mpr ⟨rfl, hnew⟩
    · exact congrArg (z :: ·) hkeys
    · exact List.forall_mem_cons.mpr ⟨hfirst, hvalues⟩

/-- What is kept of the last measurement: the layout at that time, and for each zone of it the number
of its results. -/
structure Recalls (d : Device) (s : Lowering) (t : Trace) (m : Placement) : Prop where
  layout_eq : s.measuredLayout = m.layout
  sound : m.Sound d
  zones : ∃ zs, List.Forall₂ (fun l z => d.zoneOf? l = some z) m.layout zs ∧
    s.results.map (·.1) = Ascending.ofList zs
  values : ∃ a, a.Realizes m ∧ ∀ e ∈ s.results, t.values[e.2]? = some (Op.zoneResults d a e.1)

def Remembers (d : Device) (s : Lowering) (t : Trace) : Option Placement → Prop
  | none => s.results = [] ∧ s.measuredLayout = []
  | some m => s.Recalls d t m

theorem Remembers.mono {d : Device} {m : Option Placement} (h : s.Remembers d t m) {s' : Lowering}
    {t' : Trace} (hresults : s'.results = s.results) (hlayout : s'.measuredLayout = s.measuredLayout)
    (hvalues : ∀ (v : Var) (x : Value), t.values[v]? = some x → t'.values[v]? = some x) :
    s'.Remembers d t' m := by
  cases m with
  | none => exact ⟨hresults.trans h.1, hlayout.trans h.2⟩
  | some m =>
    obtain ⟨hl, hsound, hzones, a, ha, hread⟩ := h
    refine ⟨hlayout.trans hl, hsound, hresults ▸ hzones, a, ha, ?_⟩
    rw [hresults]
    exact fun e he => hvalues _ _ (hread e he)

theorem Remembers.extend {d : Device} {m : Option Placement} (h : s.Remembers d t m) (ops : List Op)
    (xs : List Value) : (s.withOps ops).Remembers d (t.extend xs) m :=
  h.mono rfl rfl fun _ _ hv => Trace.getElem?_extend hv xs

theorem zoneOf_eq_ok {d : Device} {l : Location} {z : Zone} :
    zoneOf d l = .ok z ↔ d.zoneOf? l = some z := by
  unfold zoneOf
  cases d.zoneOf? l <;> simp

theorem item_zoneResults {d : Device} {a : Atoms} {m : Placement} (ha : a.Realizes m)
    {q : Qubit} {l : Location} {z : Zone} {locations : List Location} {i : Nat}
    (hl : m.layout[q]? = some l) (hlocations : d.zoneLocations? z = some locations)
    (hi : locations[i]? = some l) :
    Op.item (Op.zoneResults d a z) (.scalar (.int i)) = .result q := by
  have hq := ha.qubitAt?_eq_some.mpr hl
  have hneg : ¬ (i : Int) < 0 := by omega
  simp only [Op.zoneResults, hlocations, Option.getD_some, Op.item, if_neg hneg, Int.toNat_natCast,
    List.getD_eq_getElem?_getD, List.getElem?_map, hi, Option.map_some, hq]

theorem emitItem_spec {s' : Lowering} {q : Qubit} {v : Var} {measured : Option Placement}
    (h : Executes g s.ops t) (hm : s.Remembers g.device t measured)
    (hitem : s.emitItem g.device q = .ok (v, s')) :
    ∃ new more, s' = s.withOps (s.ops ++ new) ∧
      Executes g (s.ops ++ new) (t.extend more) ∧ (∀ op ∈ new, op.stateInput? = none) ∧
      (t.extend more).values[v]? = some (.result q) := by
  unfold emitItem at hitem
  split at hitem
  · cases hitem
  next l hl =>
    obtain ⟨z, hz, hitem⟩ := bind_eq_ok.mp hitem
    rw [zoneOf_eq_ok] at hz
    split at hitem
    · cases hitem
    next results hresults =>
      simp only [emit_eq, ops_withOps, withOps_withOps, Except.ok.injEq, Prod.mk.injEq] at hitem
      obtain ⟨rfl, rfl⟩ := hitem
      obtain ⟨m, rfl⟩ : ∃ m, measured = some m := by
        cases measured with
        | none => simp [hm.2] at hl
        | some m => exact ⟨m, rfl⟩
      rw [hm.layout_eq] at hl
      have hexists := hm.sound.exist l (List.mem_of_getElem? hl)
      obtain ⟨hcheck, _⟩ := Device.zoneOf?_eq_some hz
      obtain ⟨locations, i, hlocations, hindex, hi⟩ := Device.zoneIndex?_of_zoneOf? hz hexists
      obtain ⟨a, ha, hvalues⟩ := hm.values
      have hlist := hvalues _ (Ascending.mem_of_get? hresults)
      have hfirst := h.getZoneIndex hcheck hexists hindex
      have hsecond := hfirst.getItem (Trace.getElem?_extend hlist [.scalar (.int i)])
        (h.getElem?_last (.scalar (.int i)))
      rw [item_zoneResults ha hl hlocations hi] at hsecond
      refine ⟨[.getZoneIndex z l, .getItem results s.ops.length], [.scalar (.int i), .result q],
        ?_, ?_, ?_, ?_⟩
      · simp
      · simpa [Trace.extend_extend] using hsecond
      · simp [Op.stateInput?]
      · have hlast := hfirst.getElem?_last (.result q)
        simpa [Trace.extend_extend] using hlast

theorem emitItems_spec {qubits : List Qubit} {s' : Lowering} {vs : List Var}
    {measured : Option Placement} (h : Executes g s.ops t) (hm : s.Remembers g.device t measured)
    (hitems : emitItems g.device s qubits = .ok (vs, s')) :
    ∃ new more, s' = s.withOps (s.ops ++ new) ∧
      Executes g (s.ops ++ new) (t.extend more) ∧ (∀ op ∈ new, op.stateInput? = none) ∧
      List.Forall₂ (fun v q => (t.extend more).values[v]? = some (.result q)) vs qubits := by
  induction qubits generalizing s t vs with
  | nil =>
    cases hitems
    exact ⟨[], [], by simp, by simpa using h, by simp, List.Forall₂.nil⟩
  | cons q qubits ih =>
    obtain ⟨⟨v, s₁⟩, hitem, hitems⟩ := bind_eq_ok.mp hitems
    obtain ⟨⟨vs', s₂⟩, hitems, heq⟩ := bind_eq_ok.mp hitems
    cases heq
    obtain ⟨new, more, rfl, hexec, hnew, hv⟩ := emitItem_spec h hm hitem
    rw [← ops_withOps s (s.ops ++ new)] at hexec
    obtain ⟨new', more', rfl, hexec', hnew', hvs⟩ := ih hexec (hm.extend _ more) hitems
    rw [Trace.extend_extend] at hexec' hvs
    refine ⟨new ++ new', more ++ more', by simp, ?_, ?_, ?_⟩
    · simpa using hexec'
    · exact List.forall_mem_append.mpr ⟨hnew, hnew'⟩
    · have hv' := Trace.getElem?_extend hv more'
      rw [Trace.extend_extend] at hv'
      exact List.Forall₂.cons hv' hvs

theorem emitMeasurements_spec {qubits : List Qubit} {s' : Lowering} {v : Var}
    {measured : Option Placement} (h : Executes g s.ops t) (hm : s.Remembers g.device t measured)
    (hlist : s.emitMeasurements g.device qubits = .ok (v, s')) :
    ∃ new more, s' = s.withOps (s.ops ++ new) ∧
      Executes g (s.ops ++ new) (t.extend more) ∧ (∀ op ∈ new, op.stateInput? = none) ∧
      (t.extend more).values[v]? = some (.list (qubits.map .result)) := by
  obtain ⟨⟨items, s₁⟩, hitems, hlist⟩ := bind_eq_ok.mp hlist
  simp only [emit_eq] at hlist
  cases hlist
  obtain ⟨new, more, rfl, hexec, hnew, hvs⟩ := emitItems_spec h hm hitems
  have hlast : Executes g ((s.ops ++ new) ++ [.newList items])
      ((t.extend more).extend [.list (qubits.map .result)]) := by
    refine hexec.newList ?_
    rw [List.forall₂_map_right_iff]
    exact hvs
  refine ⟨new ++ [.newList items], more ++ [.list (qubits.map .result)], ?_, ?_, ?_, ?_⟩
  · simp
  · simpa [Trace.extend_extend] using hlast
  · exact List.forall_mem_append.mpr ⟨hnew, by simp [Op.stateInput?]⟩
  · have hvalue := hexec.getElem?_last (.list (qubits.map .result))
    simpa [Trace.extend_extend] using hvalue

end Lowering

end AtomTransport
