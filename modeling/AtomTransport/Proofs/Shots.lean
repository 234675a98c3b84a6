import AtomTransport.Proofs.Compilation

/-!
# Shots of a compiled program

The readout of a compiled program accepts every shot with a bit for each qubit. Its detectors and
observables are the parities of the qubits that the gate program names, and the returned value lists
the measured zones site by site, with the bit of the qubit that was there at the last measurement.
-/

namespace AtomTransport

namespace Outcome

def ofSite (shot : List Bool) (layout : List Location) (l : Location) : Outcome :=
  match layout.findIdx? (· = l) with
  | some q => .scalar (.bool (shot.getD q false))
  | Option.none => .none

def ofZone (d : Device) (shot : List Bool) (layout : List Location) (z : Zone) : Outcome :=
  .list (((d.zoneLocations? z).getD []).map (ofSite shot layout))

def ofZones (d : Device) (shot : List Bool) (layout : List Location) : List Zone → Outcome
  | [z] => ofZone d shot layout z
  | zs => .list (zs.map (ofZone d shot layout))

end Outcome

section Reading

variable {d : Device} {a : Atoms} {m : Placement} {shot : List Bool}

theorem Atoms.Realizes.qubitAt?_eq_findIdx? (ha : a.Realizes m) (l : Location) :
    a.qubitAt? l = m.layout.findIdx? (· = l) := by
  cases hfind : m.layout.findIdx? (· = l) with
  | none =>
    rw [ha.qubitAt?_eq_none]
    intro hl
    have hne := List.findIdx?_eq_none_iff.mp hfind l hl
    simp at hne
  | some q =>
    rw [ha.qubitAt?_eq_some]
    obtain ⟨hq, hl, _⟩ := List.findIdx?_eq_some_iff_getElem.mp hfind
    rw [List.getElem?_eq_getElem hq, of_decide_eq_true hl]

theorem Extractor.apply_zone (ha : a.Realizes m) (hshot : m.layout.length ≤ shot.length) (z : Zone) :
    (zone d a z).apply shot = .ofZone d shot m.layout z := by
  rw [zone, apply, applyAll_eq_map, List.map_map, Outcome.ofZone]
  congr 1
  refine List.map_congr_left ?_
  intro l _
  rw [Function.comp_apply, Outcome.ofSite, ha.qubitAt?_eq_findIdx?]
  cases hfind : m.layout.findIdx? (· = l) with
  | none => rfl
  | some q =>
    have hq : q < shot.length := Nat.lt_of_lt_of_le (List.findIdx?_eq_some_iff_getElem.mp hfind).1 hshot
    simp [apply, List.getElem?_eq_getElem hq]

theorem Extractor.apply_zones (ha : a.Realizes m) (hshot : m.layout.length ≤ shot.length) (zs : List Zone) :
    (zones d a zs).apply shot = .ofZones d shot m.layout zs := by
  have hall : ∀ zs : List Zone, (Extractor.list (zs.map (zone d a))).apply shot =
      .list (zs.map (Outcome.ofZone d shot m.layout)) := by
    intro zs
    rw [apply, applyAll_eq_map, List.map_map]
    congr 1
    exact List.map_congr_left fun z _ => apply_zone ha hshot z
  rcases zs with _ | ⟨z, _ | ⟨z', zs⟩⟩
  · exact hall []
  · exact apply_zone ha hshot z
  · exact hall (z :: z' :: zs)

end Reading

namespace Lowering

variable {stages : List (GateLayer × LayerPlacement × List MoveLayer)} {measured : Option Placement}

theorem measuredAfter_of_forall_ne (h : ∀ x ∈ stages, x.1 ≠ .measure) :
    measuredAfter measured stages = measured := by
  induction stages with
  | nil => rfl
  | cons x stages ih =>
    rw [List.forall_mem_cons] at h
    rw [measuredAfter, if_neg h.1, ih h.2]

theorem measuredAfter_of_last {k : Nat} {placement : LayerPlacement} {moves : List MoveLayer}
    (hk : stages[k]? = some (.measure, placement, moves))
    (hlast : ∀ j x, k < j → stages[j]? = some x → x.1 ≠ .measure) :
    measuredAfter measured stages = placement.after.known? := by
  induction stages generalizing measured k with
  | nil => simp at hk
  | cons x stages ih =>
    cases k with
    | zero =>
      cases hk
      rw [measuredAfter, if_pos rfl]
      refine measuredAfter_of_forall_ne ?_
      intro x hx
      obtain ⟨j, hj⟩ := List.mem_iff_getElem?.mp hx
      exact hlast (j + 1) x (Nat.succ_pos j) hj
    | succ k =>
      exact ih hk fun j x hj hx => hlast (j + 1) x (Nat.succ_lt_succ hj) hx

theorem length_measuredAfter {g : LaneGraph} {p last m : Placement} {n : Nat}
    (hstaged : Staged g p stages last) (hp : p.layout.length = n)
    (hmeasured : ∀ m, measured = some m → m.layout.length = n)
    (h : measuredAfter measured stages = some m) : m.layout.length = n := by
  induction stages generalizing measured p with
  | nil => exact hmeasured m h
  | cons x stages ih =>
    obtain ⟨after, hafter, hrun, _, _, hrest⟩ := hstaged
    have hlength : after.layout.length = n := hrun.length_layout.trans hp
    refine ih hrest hlength ?_ h
    intro m' hm'
    split_ifs at hm' with hmeasure
    · rw [hafter] at hm'
      cases hm'
      exact hlength
    · exact hmeasured m' hm'

end Lowering

namespace Compiler

variable {c : Compiler} {p : GateProgram} {initial : InitialLayout} {b : Blueprint} {r : Compiled}
  {start last : Placement} {state : Var} {s : Lowering}

theorem Lowered.bits_lt (hs : c.graph.device.SingleSource)
    (h : c.Lowered p initial start r.placements r.moves last state s)
    (hok : c.compile p initial = .ok r) : ∀ i ∈ r.readout.bits, i < p.numQubits := by
  obtain ⟨_, hsize, _⟩ := InitialLayout.sound_of_place h.placed
  obtain ⟨t, ht⟩ := h.tracks hs
  have hreturns := h.returns_of_compile ht hok
  have hparity : ∀ (named : GateLayer → Option (List Qubit)),
      (∀ layer qubits, named layer = some qubits → layer.qubits = qubits) →
      ∀ i ∈ ((p.layers.filterMap named).map fun qs => (⟨qs, false⟩ : Parity)).flatMap (·.bits),
        i < p.numQubits := by
    intro named hnamed i hi
    obtain ⟨parity, hmem, hi⟩ := List.mem_flatMap.mp hi
    obtain ⟨qubits, hqubits, rfl⟩ := List.mem_map.mp hmem
    obtain ⟨layer, hlayer, hname⟩ := List.mem_filterMap.mp hqubits
    refine GateProgram.lt_of_check h.checked hlayer ?_
    rw [hnamed layer qubits hname]
    exact hi
  intro i hi
  rw [Readout.bits, List.mem_append, List.mem_append, hreturns.detectors, hreturns.observables] at hi
  rcases hi with (hi | hi) | hi
  · rcases hreturns.value with ⟨_, hnone⟩ | ⟨m, a, zs, hm, hsound, ha, _, hzones⟩
    · rw [hnone, Extractor.bits] at hi
      cases hi
    · rw [hzones] at hi
      rw [← Lowering.length_measuredAfter h.staged hsize (by simp) hm]
      exact Extractor.bits_zones ha _ i hi
  · refine hparity GateLayer.detector? ?_ i hi
    intro layer qubits hname
    cases layer <;> cases hname
    rfl
  · refine hparity GateLayer.observable? ?_ i hi
    intro layer qubits hname
    cases layer <;> cases hname
    rfl

/-- The returned value of a measured register reads the zones of the last measurement. -/
theorem Lowered.value_of_measured (hs : c.graph.device.SingleSource)
    (h : c.Lowered p initial start r.placements r.moves last state s)
    (hok : c.compile p initial = .ok r) {k : Nat} (hk : p.layers[k]? = some .measure)
    (hlast : ∀ j : Nat, k < j → p.layers[j]? ≠ some .measure) (hpos : 0 < p.numQubits) :
    ∃ after a zs, r.placements[k]?.map (·.after) = some (.known after) ∧
      after.layout.length = p.numQubits ∧ after.Sound c.graph.device ∧ a.Realizes after ∧
      List.Forall₂ (fun l z => c.graph.device.zoneOf? l = some z) after.layout zs ∧
      r.readout.value = .zones c.graph.device a (Ascending.ofList zs) := by
  obtain ⟨_, hsize, _⟩ := InitialLayout.sound_of_place h.placed
  obtain ⟨t, ht⟩ := h.tracks hs
  have hreturns := h.returns_of_compile ht hok
  obtain ⟨placement, layerMoves, hplacement, hstage⟩ := h.getElem?_stages hk
  obtain ⟨after, hafter, hlength⟩ := h.staged.known hstage
  have hmeasured : Lowering.measuredAfter none (p.layers.zip (r.placements.zip r.moves)) =
      some after := by
    rw [Lowering.measuredAfter_of_last hstage, hafter, PlacementInfo.known?]
    intro j x hj hx hmeasure
    refine hlast j hj ?_
    rw [(List.getElem?_zip_eq_some.mp hx).1, hmeasure]
  rw [hmeasured] at ht hreturns
  rcases hreturns.value with ⟨hempty, _⟩ | ⟨m, a, zs, hm, hsound, ha, hzs, hvalue⟩
  · obtain ⟨zs, hzs, hkeys⟩ := ht.remembers.zones
    rw [hempty, List.map_nil] at hkeys
    have hnil : zs = [] := by
      refine List.eq_nil_iff_forall_not_mem.mpr ?_
      intro z hz
      simpa [← hkeys] using Ascending.mem_ofList.mpr hz
    have hnone := hzs.length_eq
    rw [hnil, hlength, hsize, List.length_nil] at hnone
    omega
  · cases hm
    exact ⟨after, a, zs, by rw [hplacement, Option.map_some, hafter], hlength.trans hsize, hsound, ha,
      hzs, hvalue⟩

/-- A shot with a bit for each qubit is read. The detectors and observables are the parities of the
qubits that their layers name, in program order. If the register is measured, the value has the sites
of every zone in which a qubit was at the last measurement, with the bit of the qubit that was there. -/
theorem apply_readout (hb : Device.ofBlueprint b = .ok c.graph.device)
    (hs : c.graph.device.SingleSource) (hok : c.compile p initial = .ok r) (shot : List Bool)
    (hshot : p.numQubits ≤ shot.length) :
    ∃ out, r.readout.apply shot = .ok out ∧
      out.detectors = (p.layers.filterMap GateLayer.detector?).map (parityOf shot) ∧
      out.observables = (p.layers.filterMap GateLayer.observable?).map (parityOf shot) ∧
      ∀ k : Nat, p.layers[k]? = some .measure → (∀ j : Nat, k < j → p.layers[j]? ≠ some .measure) →
        0 < p.numQubits → ∃ after zones, r.placements[k]?.map (·.after) = some (.known after) ∧
          after.layout.length = p.numQubits ∧ after.layout.Nodup ∧ zones.Pairwise (· < ·) ∧
          (∀ z ∈ zones, ∃ l ∈ after.layout, c.graph.device.zoneOf? l = some z) ∧
          (∀ l ∈ after.layout, ∃ z ∈ zones, c.graph.device.zoneOf? l = some z) ∧
          out.value = .ofZones c.graph.device shot after.layout zones := by
  obtain ⟨start, last, state, s, h⟩ := lowered_of_compile hb hs hok
  obtain ⟨t, ht⟩ := h.tracks hs
  have hreturns := h.returns_of_compile ht hok
  have hbits : ∀ i ∈ r.readout.bits, i < shot.length := by
    intro i hi
    exact Nat.lt_of_lt_of_le (h.bits_lt hs hok i hi) hshot
  refine ⟨_, hreturns.exact.apply_eq_ok hbits, ?_, ?_, ?_⟩
  · rw [hreturns.detectors, List.map_map]
    exact List.map_congr_left fun qubits _ => Parity.apply_eq_parityOf shot qubits
  · rw [hreturns.observables, List.map_map]
    exact List.map_congr_left fun qubits _ => Parity.apply_eq_parityOf shot qubits
  · intro k hk hlast hpos
    obtain ⟨after, a, zs, hafter, hsize, hsound, ha, hzs, hvalue⟩ :=
      h.value_of_measured hs hok hk hlast hpos
    refine ⟨after, Ascending.ofList zs, hafter, hsize, hsound.nodup, Ascending.sorted_ofList zs, ?_, ?_,
      ?_⟩
    · intro z hz
      exact exists_of_forall₂ hzs.flip (Ascending.mem_ofList.mp hz)
    · intro l hl
      obtain ⟨z, hz, hl⟩ := exists_of_forall₂ hzs hl
      exact ⟨z, Ascending.mem_ofList.mpr hz, hl⟩
    · change r.readout.value.apply shot = _
      rw [hvalue]
      exact Extractor.apply_zones ha (hsize ▸ hshot) _

/-- Qubits 0 and 2 have different bits in this shot, although both move after they are measured. -/
theorem apply_readout_meetings :
    ∃ r out, forSmallGrid.compile meetings meetingSites = .ok r ∧
      r.readout.apply [true, true, false] = .ok out ∧ out.detectors = [true] ∧
      out.observables = [true] ∧
      ∃ after zones, r.placements[2]?.map (·.after) = some (.known after) ∧
        out.value = .ofZones forSmallGrid.graph.device [true, true, false] after.layout zones := by
  obtain ⟨r, hok⟩ := exists_compile_meetings
  obtain ⟨out, happly, hdetectors, hobservables, hvalue⟩ := apply_readout ofBlueprint_smallGrid
    singleSource_smallGrid hok [true, true, false] (Nat.le_refl 3)
  have hlast : ∀ j : Nat, 2 < j → meetings.layers[j]? ≠ some .measure := by
    intro j hj hmeasure
    obtain ⟨i, rfl⟩ : ∃ i, j = 3 + i := ⟨j - 3, by omega⟩
    rw [← List.getElem?_drop] at hmeasure
    have hmem := List.mem_of_getElem? hmeasure
    revert hmem
    decide
  obtain ⟨after, zones, hafter, _, _, _, _, _, hvalue⟩ := hvalue 2 rfl hlast (by decide)
  exact ⟨r, out, hok, happly, hdetectors, hobservables, after, zones, hafter, hvalue⟩

end Compiler

end AtomTransport
