import AtomTransport.Proofs.Device
import AtomTransport.Proofs.Evaluation

/-!
# Reading one site of a measured zone

The results of a zone are listed word by word in the order of the zone, and the position of a location is
looked up in the same list. Whatever words a zone lists, and however often, the item at the position of a
location is the result of the qubit there.
-/

namespace AtomTransport

namespace Device

variable {d : Device} {z : Zone} {l l' : Location} {i : Nat}

def Spans (d : Device) (z : Zone) (l : Location) : Prop :=
  ∃ words, d.zoneWords? z = some words ∧ l.word ∈ words

theorem getElem?_of_zoneIndex? (h : d.zoneIndex? z l = some i) :
    ∃ locations, d.zoneLocations? z = some locations ∧ locations[i]? = some l := by
  rw [zoneIndex?, Option.bind_eq_some_iff] at h
  obtain ⟨locations, hlocations, hi⟩ := h
  obtain ⟨hlt, heq, _⟩ := List.findIdx?_eq_some_iff_getElem.mp hi
  refine ⟨locations, hlocations, ?_⟩
  rw [List.getElem?_eq_getElem hlt, of_decide_eq_true heq]

theorem Spans.of_zoneIndex? (h : d.zoneIndex? z l = some i) : d.Spans z l := by
  obtain ⟨locations, hlocations, hi⟩ := getElem?_of_zoneIndex? h
  rw [zoneLocations?, Option.map_eq_some_iff] at hlocations
  obtain ⟨words, hwords, rfl⟩ := hlocations
  obtain ⟨word, hword, hl⟩ := List.mem_flatMap.mp (List.mem_of_getElem? hi)
  exact ⟨words, hwords, (mem_wordLocations.mp hl).1 ▸ hword⟩

theorem eq_of_zoneIndex? (h : d.zoneIndex? z l = some i) (h' : d.zoneIndex? z l' = some i) : l = l' := by
  obtain ⟨locations, hlocations, hi⟩ := getElem?_of_zoneIndex? h
  obtain ⟨locations', hlocations', hi'⟩ := getElem?_of_zoneIndex? h'
  cases hlocations.symm.trans hlocations'
  exact Option.some.inj (hi.symm.trans hi')

/-- The zone of a location is the lowest one that spans it. -/
theorem Spans.zoneOf? (h : d.Spans z l) :
    ∃ first, d.zoneOf? l = some first ∧ d.Spans first l ∧ ∀ z', d.Spans z' l → first.id ≤ z'.id := by
  obtain ⟨words, hwords, hmem⟩ := h
  have hsome : (d.zones.findIdx? (·.contains l.word)).isSome = true := by
    rw [List.findIdx?_isSome, List.any_eq_true]
    exact ⟨words, List.mem_of_getElem? hwords, List.contains_iff_mem.mpr hmem⟩
  obtain ⟨n, hn⟩ := Option.isSome_iff_exists.mp hsome
  have hfirst : d.zoneOf? l = some ⟨n⟩ := by
    rw [Device.zoneOf?, hn, Option.map_some]
  refine ⟨⟨n⟩, hfirst, (zoneOf?_eq_some hfirst).2, ?_⟩
  rintro z' ⟨words', hwords', hmem'⟩
  obtain ⟨_, _, hbefore⟩ := List.findIdx?_eq_some_iff_getElem.mp hn
  by_contra hlt
  obtain ⟨hz', rfl⟩ := List.getElem?_eq_some_iff.mp hwords'
  exact hbefore z'.id (Nat.lt_of_not_le hlt) (List.contains_iff_mem.mpr hmem')

end Device

namespace Op

variable {g : LaneGraph} {a : Atoms} {z : Zone} {l : Location} {i : Nat}

theorem eval_getZoneIndex (hz : g.device.checkZone z = .ok ()) (hl : g.device.checkLocation l = .ok ())
    (env : Var → Value) : (getZoneIndex z l).eval g env =
      .ok (((g.device.zoneIndex? z l).map fun i : Nat => .scalar (.int i)).getD .bottom) := by
  simp only [eval, stateInput?, hz, hl, Except.mapError, ok_bind]
  cases g.device.zoneIndex? z l <;> rfl

theorem eval_getFutureResult (hz : g.device.checkZone z = .ok ()) {env : Var → Value} {future : Var}
    (h : env future = .measured a) :
    (getFutureResult future z).eval g env = .ok (zoneResults g.device a z) := by
  simp only [eval, stateInput?, h, hz, Except.mapError, ok_bind]

theorem eval_getItem {env : Var → Value} {list position : Var} {x y : Value} (hlist : env list = x)
    (hposition : env position = y) : (getItem list position).eval g env = .ok (item x y) := by
  rw [← hlist, ← hposition]
  rfl

theorem item_of_zoneIndex? (h : g.device.zoneIndex? z l = some i) :
    item (zoneResults g.device a z) (.scalar (.int i)) =
      match a.qubitAt? l with
      | some q => .result q
      | none => .bottom := by
  obtain ⟨locations, hlocations, hi⟩ := Device.getElem?_of_zoneIndex? h
  rw [zoneResults, item_list (Int.natCast_nonneg i), Int.toNat_natCast, List.getD_eq_getElem?_getD,
    List.getElem?_map, hlocations, Option.getD_some, hi]
  rfl

end Op

/-- A site that a zone spans is read through the zone as the result of the qubit there, if there is one, and
every other location as nothing. Positions lie inside the list of results and tell the locations of a zone
apart, and a location that some zone spans has a position in the lowest such zone. -/
theorem zone_reading (g : LaneGraph) (a : Atoms) {z : Zone} {l : Location}
    (hz : g.device.checkZone z = .ok ()) (hl : g.device.checkLocation l = .ok ()) :
    (∃ results index x,
      (∀ env future, env future = .measured a →
        (Op.getFutureResult future z).eval g env = .ok (.list results)) ∧
      (∀ env, (Op.getZoneIndex z l).eval g env = .ok index) ∧
      (∀ env list position, env list = .list results → env position = index →
        (Op.getItem list position).eval g env = .ok x) ∧
      (∀ q, g.device.Spans z l → a.qubitAt? l = some q → x = .result q) ∧
      (¬ g.device.Spans z l ∨ a.qubitAt? l = none → x = .bottom) ∧
      (g.device.Spans z l → ∃ i : Nat, index = .scalar (.int i) ∧ i < results.length)) ∧
    (∀ l' i i', g.device.zoneIndex? z l = some i → g.device.zoneIndex? z l' = some i' → l ≠ l' →
      i ≠ i') ∧
    ∀ z', g.device.Spans z' l → ∃ first i, g.device.zoneOf? l = some first ∧ g.device.Spans first l ∧
      (∀ z'', g.device.Spans z'' l → first.id ≤ z''.id) ∧ g.device.zoneIndex? first l = some i := by
  have hlocation := Device.checkLocation_eq_ok_iff.mp hl
  refine ⟨⟨_, _, _, fun env future h => Op.eval_getFutureResult hz h, Op.eval_getZoneIndex hz hl,
    fun env list position => Op.eval_getItem, ?_, ?_, ?_⟩, ?_, ?_⟩
  · rintro q ⟨words, hwords, hmem⟩ hq
    obtain ⟨_, i, _, hi, _⟩ := Device.zoneIndex?_of_mem hwords hmem hlocation
    rw [hi, Option.map_some, Option.getD_some]
    exact (Op.item_of_zoneIndex? hi).trans (by rw [hq])
  · intro hnothing
    cases hi : g.device.zoneIndex? z l with
    | none => rfl
    | some i =>
      have hempty := hnothing.resolve_left (not_not_intro (Device.Spans.of_zoneIndex? hi))
      rw [Option.map_some, Option.getD_some]
      exact (Op.item_of_zoneIndex? hi).trans (by rw [hempty])
  · rintro ⟨words, hwords, hmem⟩
    obtain ⟨locations, i, hlocations, hi, hlookup⟩ := Device.zoneIndex?_of_mem hwords hmem hlocation
    refine ⟨i, by rw [hi]; rfl, ?_⟩
    rw [List.length_map, hlocations, Option.getD_some]
    exact (List.getElem?_eq_some_iff.mp hlookup).1
  · rintro l' i i' hi hi' hne rfl
    exact hne (Device.eq_of_zoneIndex? hi hi')
  · intro z' hz'
    obtain ⟨first, hfirst, hspans, hlowest⟩ := hz'.zoneOf?
    obtain ⟨_, i, _, hi, _⟩ := Device.zoneIndex?_of_zoneOf? hfirst hlocation
    exact ⟨first, i, hfirst, hspans, hlowest, hi⟩

def overlappingZones : LaneGraph :=
  .ofDevice
    ⟨{ words := [{ sites := [(.ofNat 0, .ofNat 0)] },
         { sites := [(.ofNat 0, .ofNat 20), (.ofNat 10, .ofNat 20)] }]
       zones := [[1, 0, 1], [0]]
       siteBusWords := []
       wordBusSites := []
       siteBuses := []
       wordBuses := [] }, .bits32⟩

/-- The only site of the smaller word stands behind the sites of the larger one, and its qubit is found
there. -/
theorem zone_reading_overlapping :
    Device.ofBlueprint overlappingZones.device.blueprint = .ok overlappingZones.device ∧
      overlappingZones.device.Spans ⟨0⟩ ⟨0, 0⟩ ∧ overlappingZones.device.Spans ⟨1⟩ ⟨0, 0⟩ ∧
      overlappingZones.device.zoneOf? ⟨0, 0⟩ = some ⟨0⟩ ∧
      ∃ results, (∀ env future, env future = .measured (.single { qubit := 3, location := ⟨0, 0⟩ }) →
          (Op.getFutureResult future ⟨0⟩).eval overlappingZones env = .ok (.list results)) ∧
        results.length = 5 ∧
        (∀ env, (Op.getZoneIndex ⟨0⟩ ⟨0, 0⟩).eval overlappingZones env = .ok (.scalar (.int 2))) ∧
        ∀ env list position, env list = .list results → env position = .scalar (.int 2) →
          (Op.getItem list position).eval overlappingZones env = .ok (.result 3) := by
  have hspans : overlappingZones.device.Spans ⟨0⟩ ⟨0, 0⟩ := ⟨[1, 0, 1], rfl, by decide⟩
  have hspans' : overlappingZones.device.Spans ⟨1⟩ ⟨0, 0⟩ := ⟨[0], rfl, by decide⟩
  obtain ⟨⟨results, index, x, hfuture, hindex, hitem, hresult, _, _⟩, _, hlowest⟩ :=
    zone_reading overlappingZones (.single { qubit := 3, location := ⟨0, 0⟩ }) (z := ⟨0⟩) (l := ⟨0, 0⟩)
      (by decide) (by decide)
  obtain ⟨first, _, hfirst, _, hleast, _⟩ := hlowest ⟨1⟩ hspans'
  have hzero : first = ⟨0⟩ := by
    have hle := Nat.le_zero.mp (hleast ⟨0⟩ hspans)
    cases first
    exact congrArg Zone.mk hle
  have hlist := (hfuture (fun _ => .measured _) 0 rfl).symm.trans
    (rfl : _ = Except.ok (Value.list [.bottom, .bottom, .result 3, .bottom, .bottom]))
  have htwo : index = .scalar (.int 2) := Except.ok.inj ((hindex fun _ => .bottom).symm.trans rfl)
  cases hlist
  subst htwo
  refine ⟨by decide +kernel, hspans, hspans', hzero ▸ hfirst, _, hfuture, rfl, hindex, ?_⟩
  rw [hresult 3 hspans rfl] at hitem
  exact hitem

end AtomTransport
