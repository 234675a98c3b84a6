import AtomTransport.Proofs.LayerSequence

/-!
# The paths of a layer

The paths that placement reports for a layer account for all that the layer changes. They belong to the
atoms that are somewhere else afterwards, lead each of them along the lanes to its new location, and keep
clear of each other and of all that was held before; what an atom has travelled grows by the length of its
path.
-/

namespace AtomTransport

/-- A path that takes an atom from its location in one placement to its location in another, through
locations that are free at the beginning and with one word lane at most. -/
structure Path.Delivers (g : LaneGraph) (before after : Placement) (q : Qubit)
    (path : Path) : Prop where
  start_eq : before.layout[q]? = some path.start
  finish_eq : after.layout[q]? = some path.finish
  walk : Walk g.edges path.start path.segments path.finish
  free : ∀ s ∈ path.segments, s.dst ∉ before.blocked
  crossing : (path.lanes.filter (·.kind = .word)).length ≤ 1

namespace Routed

variable {g : LaneGraph} {before after : Placement} {taken : Option (Nat × Nat)}
  {routes : List (Qubit × Route)} {q r : Qubit} {route route' : Route}

theorem mem_legs (hroute : (q, route) ∈ routes) :
    (q, route.segments) ∈ routes.map fun r => (r.1, r.2.segments) :=
  List.mem_map.mpr ⟨_, hroute, rfl⟩

theorem visited_free (h : Routed g before after taken routes) (hroute : (q, route) ∈ routes)
    {l : Location} (hl : l ∈ route.visited) : l ∉ before.layout ∧ l ∉ before.occupied :=
  h.transition.free l (List.mem_flatMap.mpr ⟨_, mem_legs hroute, hl⟩)

theorem walk (h : Routed g before after taken routes) (hroute : (q, route) ∈ routes) :
    after.layout[q]? = some route.finish ∧ Walk g.edges route.start route.segments route.finish := by
  obtain ⟨src, dst, hsrc, hdst, hwalk⟩ := h.transition.walks _ (mem_legs hroute)
  obtain rfl : route.start = src := Option.some.inj ((h.starts _ hroute).symm.trans hsrc)
  have hfinish : route.finish = dst := hwalk.finish_eq
  rw [hfinish]
  exact ⟨hdst, hwalk⟩

theorem delivers (h : Routed g before after taken routes) (hroute : (q, route) ∈ routes) :
    route.toPath.Delivers g before after q where
  start_eq := h.starts _ hroute
  finish_eq := (h.walk hroute).1
  walk := (h.walk hroute).2
  free s hs hblocked := by
    obtain ⟨hlayout, hoccupied⟩ := h.visited_free hroute (List.mem_map_of_mem hs)
    rcases List.mem_append.mp (Ascending.mem_ofList.mp hblocked) with hin | hin
    · exact hlayout hin
    · exact hoccupied hin
  crossing := by
    rw [Path.lanes, List.filter_map, List.length_map]
    calc _ = route.cross.toList.length :=
          congrArg List.length (Route.crossings_of_ofPath? (h.splits _ hroute))
      _ ≤ 1 := by cases route.cross <;> simp

/-- The atoms with a route are those that end elsewhere: a route enters no location that was held. -/
theorem mem_keys_iff (h : Routed g before after taken routes) :
    q ∈ routes.map (·.1) ↔ before.layout[q]? ≠ after.layout[q]? := by
  constructor
  · intro hq hsame
    obtain ⟨⟨q, route⟩, hroute, rfl⟩ := List.mem_map.mp hq
    obtain ⟨hfinish, hwalk⟩ := h.walk hroute
    obtain ⟨s, hs, hend⟩ := hwalk.end_mem (h.moving _ hroute)
    refine (h.visited_free hroute (List.mem_map_of_mem hs)).1 ?_
    rw [hend]
    exact List.mem_of_getElem? (hsame.trans hfinish)
  · intro hmoved
    by_contra hq
    exact hmoved (h.stays hq).symm

theorem locations_disjoint (h : Routed g before after taken routes) (hbefore : before.Sound g.device)
    (hq : (q, route) ∈ routes) (hr : (r, route') ∈ routes) (hne : q ≠ r) :
    route.toPath.locations.Disjoint route'.toPath.locations := by
  have hstart := h.starts _ hq
  have hstart' := h.starts _ hr
  intro l hl hl'
  -- Two starts differ because no site holds two atoms, and no route enters a start: it is held.
  rcases List.mem_cons.mp hl with rfl | hl <;> rcases List.mem_cons.mp hl' with heq | hl'
  · have hlt := (List.getElem?_eq_some_iff.mp hstart).1
    exact hne ((List.getElem?_inj hlt hbefore.nodup).mp
      (hstart.trans (hstart'.trans (congrArg some heq.symm)).symm))
  · exact (h.visited_free hr hl').1 (List.mem_of_getElem? hstart)
  · exact (h.visited_free hq hl).1 (heq ▸ List.mem_of_getElem? hstart')
  · exact h.transition.walks_disjoint (mem_legs hq) (mem_legs hr) hne hl hl'

theorem crosses_of_mem (h : Routed g before after taken routes) (hroute : (q, route) ∈ routes)
    {s : Segment} (hs : s ∈ route.segments) (hword : s.lane.kind = .word) :
    taken = some (s.src.word, s.dst.word) := by
  have hcross : s ∈ route.cross.toList := by
    rw [← Route.crossings_of_ofPath? (h.splits _ hroute)]
    exact List.mem_filter.mpr ⟨hs, by simpa using hword⟩
  refine h.crosses _ hroute _ ?_
  rw [Route.wordPair?, Option.mem_toList.mp hcross, Option.map_some]

theorem movesOf_eq (h : Routed g before after taken routes) (q : Qubit) :
    after.movesOf q = before.movesOf q +
      .ofNat (((Ascending.get? q (routes.map fun r => (r.1, r.2.toPath))).map Path.length).getD 0) := by
  cases hget : Ascending.get? q (routes.map fun r => (r.1, r.2.toPath)) with
  | none =>
    have hq : q ∉ (routes.map fun r => (r.1, r.2.segments)).map (·.1) := by
      simpa [List.map_map, Function.comp_def] using Ascending.get?_eq_none_iff.mp hget
    rw [Placement.movesOf, List.getD_eq_getElem?_getD, (h.transition.stays q hq).2]
    simp [Placement.movesOf, List.getD_eq_getElem?_getD]
  | some path =>
    obtain ⟨⟨q, route⟩, hroute, heq⟩ := List.mem_map.mp (Ascending.mem_of_get? hget)
    cases heq
    obtain ⟨n, hn, hn'⟩ := h.transition.counts _ (mem_legs hroute)
    simp [Placement.movesOf, List.getD_eq_getElem?_getD, hn, hn', Path.length, Route.toPath]

theorem toNat_movesOf (h : Routed g before after taken routes) {q : Qubit} {n : Nat}
    (hn : ((Ascending.get? q (routes.map fun r => (r.1, r.2.toPath))).map Path.length).getD 0 = n)
    (hwidth : (before.movesOf q).toNat + n < UInt32.size) :
    (after.movesOf q).toNat = (before.movesOf q).toNat + n := by
  rw [h.movesOf_eq, hn, UInt32.toNat_add, UInt32.toNat_ofNat', Nat.add_mod_mod, Nat.mod_eq_of_lt hwidth]

end Routed

theorem LayerStep.routed {g : LaneGraph} {layer : GateLayer} {before after : Placement}
    {paths : List (Qubit × Path)} (h : LayerStep g layer (.known before) (.known after) paths) :
    ∃ taken routes, Routed g before after taken routes ∧
      paths = routes.map fun r => (r.1, r.2.toPath) := by
  cases h with
  | placed _ hrouted _ => exact ⟨_, _, hrouted, rfl⟩

namespace GateProgram

variable {b : Blueprint} {g : LaneGraph} {h : Nat → Heuristic} {s : Strategy} {initial : InitialLayout}
  {p : GateProgram} {placements : List LayerPlacement} {e : LayerPlacement} {before after : Placement}

theorem routed_of_mem_place (hb : Device.ofBlueprint b = .ok g.device)
    (hplace : p.place g h s initial = .ok placements) (he : e ∈ placements)
    (hbefore : e.before = .known before) (hafter : e.after = .known after) :
    before.Sound g.device ∧ ∃ taken routes, Routed g before after taken routes ∧
      e.paths = routes.map fun r => (r.1, r.2.toPath) := by
  obtain ⟨start, _, _, hseq, hcontinues⟩ := sequence_of_place hb hplace
  obtain ⟨k, hk⟩ := List.mem_iff_getElem?.mp he
  obtain ⟨layer, _, hstep⟩ := hseq.step hk
  rw [hbefore, hafter] at hstep
  exact ⟨(hcontinues e he before (Or.inl hbefore)).sound, hstep.routed⟩

/-- The paths of a layer between known placements account for its moves without a collision: exactly the
atoms that end elsewhere have one, it delivers its atom, no two meet, all cross between the same two words,
and the count of each atom grows by the length of its path, as a number too while 32 bits hold it. -/
theorem paths_account_for_moves (hb : Device.ofBlueprint b = .ok g.device)
    (hplace : p.place g h s initial = .ok placements) (he : e ∈ placements)
    (hbefore : e.before = .known before) (hafter : e.after = .known after) :
    (e.paths.map (·.1)).Nodup ∧
      (∀ q, q ∈ e.paths.map (·.1) ↔ before.layout[q]? ≠ after.layout[q]?) ∧
      (∀ q path, (q, path) ∈ e.paths → path.Delivers g before after q) ∧
      (∀ q r path path', (q, path) ∈ e.paths → (r, path') ∈ e.paths → q ≠ r →
        path.locations.Disjoint path'.locations) ∧
      (∃ source destination : Nat, ∀ q path, (q, path) ∈ e.paths → ∀ seg ∈ path.segments,
        seg.lane.kind = .word → seg.src.word = source ∧ seg.dst.word = destination) ∧
      (∀ q, after.movesOf q = before.movesOf q +
        .ofNat (((Ascending.get? q e.paths).map Path.length).getD 0)) ∧
      ∀ q n, ((Ascending.get? q e.paths).map Path.length).getD 0 = n →
        (before.movesOf q).toNat + n < UInt32.size → (after.movesOf q).toNat = (before.movesOf q).toNat + n := by
  obtain ⟨hsound, taken, routes, hrouted, hpaths⟩ := routed_of_mem_place hb hplace he hbefore hafter
  have hkeys : e.paths.map (·.1) = routes.map (·.1) := by
    rw [hpaths, List.map_map]
    rfl
  have hmem : ∀ q path, (q, path) ∈ e.paths → ∃ route, (q, route) ∈ routes ∧ path = route.toPath := by
    intro q path hin
    rw [hpaths] at hin
    obtain ⟨⟨q, route⟩, hroute, heq⟩ := List.mem_map.mp hin
    cases heq
    exact ⟨route, hroute, rfl⟩
  refine ⟨hkeys ▸ hrouted.keys, fun q => hkeys ▸ hrouted.mem_keys_iff, ?_, ?_, ?_,
    hpaths ▸ hrouted.movesOf_eq, fun q n => hpaths ▸ hrouted.toNat_movesOf⟩
  · intro q path hin
    obtain ⟨route, hroute, rfl⟩ := hmem q path hin
    exact hrouted.delivers hroute
  · intro q r path path' hin hin' hne
    obtain ⟨route, hroute, rfl⟩ := hmem q path hin
    obtain ⟨route', hroute', rfl⟩ := hmem r path' hin'
    exact hrouted.locations_disjoint hsound hroute hroute' hne
  · refine ⟨(taken.getD (0, 0)).1, (taken.getD (0, 0)).2, ?_⟩
    intro q path hin seg hseg hword
    obtain ⟨route, hroute, rfl⟩ := hmem q path hin
    rw [hrouted.crosses_of_mem hroute hseg hword]
    exact ⟨rfl, rfl⟩

def twoPairs : GateProgram := ⟨4, [.cz [0, 1] [2, 3]]⟩

def twoWords : InitialLayout := ⟨[⟨0, 0⟩, ⟨0, 1⟩, ⟨1, 0⟩, ⟨1, 1⟩], []⟩

def twoPairsAfter : Placement := ⟨[], [⟨1, 2⟩, ⟨1, 3⟩, ⟨1, 0⟩, ⟨1, 1⟩], [2, 2, 0, 0]⟩

/-- Both controls cross to the other word, and their ways have no location in common. -/
theorem paths_of_twoPairs : ∃ placements e,
    twoPairs.place Compiler.forSmallGrid.graph .busReuse .logical twoWords = .ok placements ∧
    e ∈ placements ∧ e.before = .known (.ofLayout twoWords.sites []) ∧
    e.after = .known twoPairsAfter ∧ e.paths.map (·.1) = [0, 1] ∧
    (∀ path path', (0, path) ∈ e.paths → (1, path') ∈ e.paths →
      path.locations.Disjoint path'.locations) ∧
    ∃ source destination : Nat, ∀ q path, (q, path) ∈ e.paths → ∀ seg ∈ path.segments,
      seg.lane.kind = .word → seg.src.word = source ∧ seg.dst.word = destination := by
  have hrun : ((twoPairs.place Compiler.forSmallGrid.graph .busReuse .logical twoWords).toOption.any
      fun placements => placements[0]?.map (fun e => (e.before, e.after, e.paths.map (·.1))) =
        some (.known (.ofLayout twoWords.sites []), .known twoPairsAfter, [0, 1])) = true := by
    decide +kernel
  obtain ⟨placements, hplace, hfirst⟩ := exists_ok_of_any hrun
  obtain ⟨e, he, hvalues⟩ := Option.map_eq_some_iff.mp (of_decide_eq_true hfirst)
  simp only [Prod.mk.injEq] at hvalues
  obtain ⟨hbefore, hafter, hkeys⟩ := hvalues
  have hmem := List.mem_of_getElem? he
  obtain ⟨_, _, _, hdisjoint, hwords, _⟩ :=
    paths_account_for_moves Compiler.ofBlueprint_smallGrid hplace hmem hbefore hafter
  exact ⟨placements, e, hplace, hmem, hbefore, hafter, hkeys,
    fun path path' hin hin' => hdisjoint 0 1 path path' hin hin' (by decide), hwords⟩

end GateProgram

end AtomTransport
