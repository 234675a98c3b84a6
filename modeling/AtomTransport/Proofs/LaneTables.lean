import AtomTransport.Device.Grid
import AtomTransport.Proofs.Device

/-!
# The two tables of lanes

A device looks for the ends of a lane in its buses and takes the first pair that fits. The lane graph lists
all its edges and takes the last one of the lane. Both are read off the landings of the lane, the
locations to which its bus leads from its source: the device takes the first landing and refuses the lane
if that does not exist, the graph takes the last landing that exists. So they differ on some lanes of a bus
that lists a source twice, and agree on all others.
-/

namespace AtomTransport

namespace Lane

def source (lane : Lane) : Location := ⟨lane.word, lane.site⟩

def entry (lane : Lane) : Nat :=
  match lane.kind with
  | .site => lane.site
  | .word => lane.word

def landing (lane : Lane) (id : Nat) : Location :=
  match lane.kind with
  | .site => ⟨lane.word, id⟩
  | .word => ⟨id, lane.site⟩

def ends (lane : Lane) (destination : Location) : Location × Location :=
  match lane.direction with
  | .forward => (lane.source, destination)
  | .backward => (destination, lane.source)

/-- The forward lane of the same bus from another identifier on its source side. -/
def boarding (lane : Lane) (id : Nat) : Lane :=
  match lane.kind with
  | .site => ⟨.site, lane.word, id, lane.bus, .forward⟩
  | .word => ⟨.word, id, lane.site, lane.bus, .forward⟩

end Lane

def lastEnds (lane : Lane) (edges : List Segment) : Option (Location × Location) :=
  (edges.reverse.find? (·.lane = lane)).map fun e => (e.src, e.dst)

theorem lastEnds_append (lane : Lane) (xs ys : List Segment) :
    lastEnds lane (xs ++ ys) = (lastEnds lane ys).or (lastEnds lane xs) := by
  simp [lastEnds, List.find?_append, Option.map_or]

theorem lastEnds_flatMap {α : Type} (lane : Lane) (f : α → List Segment) (xs : List α) :
    lastEnds lane (xs.flatMap f) = xs.reverse.findSome? fun x => lastEnds lane (f x) := by
  rw [lastEnds, List.reverse_flatMap, List.find?_flatMap, List.map_findSome?]
  rfl

theorem findSome?_of_unique {α β : Type} {f : α → Option β} {xs : List α} {x : α} (hx : x ∈ xs)
    (h : ∀ y ∈ xs, y ≠ x → f y = none) : xs.findSome? f = f x := by
  induction xs with
  | nil => cases hx
  | cons y xs ih =>
    rw [List.forall_mem_cons] at h
    rw [List.findSome?_cons]
    by_cases hy : y = x
    · subst hy
      cases hf : f y with
      | some b => rfl
      | none =>
        simp only [List.findSome?_eq_none_iff]
        intro z hz
        by_cases hzy : z = y
        · rw [hzy, hf]
        · exact h.2 z hz hzy
    · rw [h.1 hy]
      exact ih ((List.mem_cons.mp hx).resolve_left (Ne.symm hy)) h.2

theorem findSome?_place {β : Type} {f : Nat → Option β} {xs : List Nat} {x : Nat}
    (h : ∀ y, y ≠ x → f y = none) :
    xs.reverse.findSome? f = if xs.contains x then f x else none := by
  by_cases hx : x ∈ xs
  · rw [if_pos (List.contains_iff_mem.mpr hx)]
    exact findSome?_of_unique (List.mem_reverse.mpr hx) fun y _ => h y
  · rw [if_neg (by simpa using hx), List.findSome?_eq_none_iff]
    intro y hy
    exact h y fun heq => hx (heq ▸ List.mem_reverse.mp hy)

theorem findSome?_zipIdx {α β : Type} {f : α × Nat → Option β} {xs : List α} {i : Nat}
    (h : ∀ x j, j ≠ i → f (x, j) = none) :
    xs.zipIdx.reverse.findSome? f = xs[i]?.bind fun x => f (x, i) := by
  cases hx : xs[i]? with
  | none =>
    rw [Option.bind_none, List.findSome?_eq_none_iff]
    rintro ⟨y, j⟩ hy
    have hy := List.mem_zipIdx_iff_getElem?.mp (List.mem_reverse.mp hy)
    apply h
    rintro rfl
    cases hx.symm.trans hy
  | some x =>
    rw [Option.bind_some]
    apply findSome?_of_unique (List.mem_reverse.mpr (List.mem_zipIdx_iff_getElem?.mpr hx))
    rintro ⟨y, j⟩ hy hne
    have hy := List.mem_zipIdx_iff_getElem?.mp (List.mem_reverse.mp hy)
    apply h
    rintro rfl
    cases hx.symm.trans hy
    exact hne rfl

theorem Bus.destination?_eq (b : Bus) (source : Nat) :
    b.destination? source = (b.pairs.find? (·.1 = source)).map (·.2) := by
  obtain ⟨sources, destinations⟩ := b
  simp only [destination?, pairs]
  induction sources generalizing destinations with
  | nil => rfl
  | cons s sources ih =>
    cases destinations with
    | nil => simp
    | cons t destinations =>
      by_cases hs : s = source
      · simp [List.findIdx?_cons, hs]
      · have hrest := ih destinations
        simp only [List.findIdx?_cons, List.zip_cons_cons, List.find?_cons, hs, decide_false,
          Bool.false_eq_true, if_false, Option.bind_map]
        exact hrest

namespace Device

variable (d : Device)

def rides (lane : Lane) : Bool :=
  match lane.kind with
  | .site => d.hasSiteBuses lane.word
  | .word => d.hasWordBuses lane.site

/-- The locations to which the bus of a lane leads from its source, in the order of the bus. There are none
if the source does not exist or cannot ride. -/
def landings (lane : Lane) : List Location :=
  match (d.buses lane.kind)[lane.bus]? with
  | none => []
  | some bus =>
    if d.rides lane && d.hasLocation lane.source then
      (bus.pairs.filter (·.1 = lane.entry)).map fun pair => lane.landing pair.2
    else []

variable {d} {lane : Lane}

theorem checkRider_eq_ok_iff : d.checkRider lane = .ok () ↔ d.rides lane = true := by
  unfold checkRider rides
  cases lane.kind with
  | site =>
    by_cases h : d.hasSiteBuses lane.word = true
    · simp only [h, if_true]
    · simp only [h, Bool.false_eq_true, if_false, iff_false]
      split <;> simp
  | word => by_cases h : d.hasWordBuses lane.site = true <;> simp [h]

theorem laneSides_eq_ok_iff {sides : Location × Location} : d.laneSides lane = .ok sides ↔
    ∃ bus id, (d.buses lane.kind)[lane.bus]? = some bus ∧ d.rides lane = true ∧
      bus.destination? lane.entry = some id ∧ (lane.source, lane.landing id) = sides := by
  unfold laneSides
  cases hbus : (d.buses lane.kind)[lane.bus]? with
  | none => simp
  | some bus =>
    have hunit : ∀ P : Prop, (∃ x : Unit, d.checkRider lane = .ok x ∧ P) ↔ d.rides lane = true ∧ P := by
      intro P
      rw [← checkRider_eq_ok_iff]
      exact ⟨fun ⟨⟨⟩, h⟩ => h, fun h => ⟨(), h⟩⟩
    simp only [bind_eq_ok, hunit, Option.some.injEq, exists_and_left, exists_eq_left',
      and_congr_right_iff]
    intro _
    cases hkind : lane.kind with
    | site =>
      simp only [Lane.entry, Lane.source, Lane.landing, hkind]
      cases bus.destination? lane.site <;> simp
    | word =>
      simp only [Lane.entry, Lane.source, Lane.landing, hkind]
      cases bus.destination? lane.word <;> simp

theorem endpoints_eq_ok_iff_sides {ends : Location × Location} : d.endpoints lane = .ok ends ↔
    ∃ l, d.laneSides lane = .ok (lane.source, l) ∧ d.hasLocation lane.source = true ∧
      d.hasLocation l = true ∧ lane.ends l = ends := by
  constructor
  · intro h
    obtain ⟨⟨source, l⟩, hsides, h⟩ := bind_eq_ok.mp h
    obtain ⟨⟨⟩, hsource, h⟩ := bind_eq_ok.mp h
    obtain ⟨⟨⟩, hl, h⟩ := bind_eq_ok.mp h
    obtain ⟨_, _, _, _, _, heq⟩ := laneSides_eq_ok_iff.mp hsides
    cases heq
    refine ⟨_, hsides, checkLocation_eq_ok_iff.mp hsource, checkLocation_eq_ok_iff.mp hl, ?_⟩
    unfold Lane.ends
    cases hdir : lane.direction <;> rw [hdir] at h <;> cases h <;> rfl
  · rintro ⟨l, hsides, hsource, hl, rfl⟩
    simp only [endpoints, hsides, ok_bind, checkLocation_eq_ok_iff.mpr hsource,
      checkLocation_eq_ok_iff.mpr hl, Lane.ends]
    cases lane.direction <;> rfl

theorem endpoints_eq_ok_iff {ends : Location × Location} : d.endpoints lane = .ok ends ↔
    ∃ l, (d.landings lane).head? = some l ∧ d.hasLocation l = true ∧ lane.ends l = ends := by
  have hhead : ∀ l, (d.laneSides lane = .ok (lane.source, l) ∧ d.hasLocation lane.source = true) ↔
      (d.landings lane).head? = some l := by
    intro l
    rw [laneSides_eq_ok_iff, landings]
    cases hbus : (d.buses lane.kind)[lane.bus]? with
    | none => simp
    | some bus =>
      by_cases hride : d.rides lane = true ∧ d.hasLocation lane.source = true
      · have hdestination := bus.destination?_eq lane.entry
        simp only [hride.1, hride.2, Bool.and_self, if_true, List.head?_map, List.head?_filter]
        cases hfind : bus.pairs.find? (·.1 = lane.entry) <;>
          rw [hfind] at hdestination <;> simp [hdestination]
      · have hnone : (d.rides lane && d.hasLocation lane.source) = false := by
          simpa using hride
        simp only [hnone, Bool.false_eq_true, if_false, List.head?_nil, reduceCtorEq, iff_false]
        rintro ⟨⟨_, _, _, hrides, _⟩, hsource⟩
        exact hride ⟨hrides, hsource⟩
  rw [endpoints_eq_ok_iff_sides]
  simp only [← and_assoc, hhead]

/-- The edges of a forward lane carry the lanes of its two directions. -/
theorem lastEnds_laneEdges {forward : Lane} (hforward : forward.direction = .forward) (l : Location) :
    lastEnds lane (d.laneEdges forward forward.source l) =
      if forward = { lane with direction := .forward } ∧ d.hasLocation lane.source = true ∧
        d.hasLocation l = true then some (lane.ends l) else none := by
  obtain ⟨kind, word, site, i, dir⟩ := lane
  obtain ⟨kind', word', site', i', dir'⟩ := forward
  cases hforward
  by_cases hlane : (⟨kind', word', site', i', .forward⟩ : Lane) = ⟨kind, word, site, i, .forward⟩
  · cases hlane
    by_cases hl : d.hasLocation ⟨word, site⟩ = true ∧ d.hasLocation l = true
    · cases dir <;>
        simp [lastEnds, laneEdges, Lane.source, Lane.ends, Lane.reverse, Direction.reverse, hl.1, hl.2]
    · have hnone : (d.hasLocation ⟨word, site⟩ && d.hasLocation l) = false := by simpa using hl
      simp [lastEnds, laneEdges, Lane.source, hnone, hl]
  · simp only [hlane, false_and, if_false]
    rw [lastEnds, Option.map_eq_none_iff, List.find?_eq_none]
    intro e he heq
    have hback : { e.lane with direction := .forward } =
        (⟨kind', word', site', i', .forward⟩ : Lane) := by
      unfold laneEdges at he
      split_ifs at he
      · rcases List.mem_pair.mp he with rfl | rfl <;> rfl
      · cases he
    rw [decide_eq_true_eq.mp heq] at hback
    exact hlane hback.symm

theorem lastEnds_laneEdges_eq_none (forward : Lane) (hforward : forward.direction = .forward)
    (l : Location) (h : forward ≠ { lane with direction := .forward }) :
    lastEnds lane (d.laneEdges forward forward.source l) = none := by
  rw [lastEnds_laneEdges hforward, if_neg fun hall => h hall.1]

variable (d lane) in
/-- The last edge of a lane among those that the pairs of one bus give to its place. -/
def lastOnBus (bus : Bus) : Option (Location × Location) :=
  bus.pairs.reverse.findSome? fun pair => lastEnds lane (d.laneEdges (lane.boarding pair.1)
    (lane.boarding pair.1).source (lane.landing pair.2))

theorem lastEnds_siteEdges {word site i : Nat} {dir : Direction}
    (hlane : lane = ⟨.site, word, site, i, dir⟩) : lastEnds lane d.siteEdges =
      if d.rides lane then (d.buses .site)[i]?.bind (d.lastOnBus lane) else none := by
  subst hlane
  simp only [siteEdges, lastEnds_flatMap]
  rw [findSome?_place (x := word)]
  · rw [findSome?_zipIdx (i := i)]
    · rfl
    · intro bus j hj
      rw [List.findSome?_eq_none_iff]
      intro pair _
      exact lastEnds_laneEdges_eq_none ⟨.site, word, pair.1, j, .forward⟩ rfl _ (by simp [hj])
  · intro w hw
    simp only [List.findSome?_eq_none_iff]
    intro bus _ pair _
    exact lastEnds_laneEdges_eq_none ⟨.site, w, pair.1, bus.2, .forward⟩ rfl _ (by simp [hw])

theorem lastEnds_wordEdges {word site i : Nat} {dir : Direction}
    (hlane : lane = ⟨.word, word, site, i, dir⟩) : lastEnds lane d.wordEdges =
      if d.rides lane then (d.buses .word)[i]?.bind (d.lastOnBus lane) else none := by
  subst hlane
  simp only [wordEdges, lastEnds_flatMap]
  rw [findSome?_zipIdx (i := i)]
  · have hsites : ∀ s t, (d.blueprint.wordBusSites.reverse.findSome? fun n =>
        lastEnds ⟨.word, word, site, i, dir⟩ (d.laneEdges ⟨.word, s, n, i, .forward⟩ ⟨s, n⟩ ⟨t, n⟩)) =
          if d.hasWordBuses site then lastEnds ⟨.word, word, site, i, dir⟩
            (d.laneEdges ⟨.word, s, site, i, .forward⟩ ⟨s, site⟩ ⟨t, site⟩) else none := by
      intro s t
      apply findSome?_place
      intro n hn
      exact lastEnds_laneEdges_eq_none ⟨.word, s, n, i, .forward⟩ rfl _ (by simp [hn])
    simp only [hsites]
    by_cases hsite : d.hasWordBuses site = true
    · simp only [rides, hsite, if_true]
      rfl
    · simp only [rides, hsite, Bool.false_eq_true, if_false]
      cases (d.buses .word)[i]? <;> simp
  · intro bus j hj
    simp only [List.findSome?_eq_none_iff]
    intro pair _ n _
    exact lastEnds_laneEdges_eq_none ⟨.word, pair.1, n, j, .forward⟩ rfl _ (by simp [hj])

theorem lastEnds_edges : lastEnds lane d.edges =
    if d.rides lane then (d.buses lane.kind)[lane.bus]?.bind (d.lastOnBus lane) else none := by
  obtain ⟨kind, word, site, i, dir⟩ := lane
  rw [edges, lastEnds_append]
  cases kind with
  | site =>
    have hother : lastEnds ⟨.site, word, site, i, dir⟩ d.wordEdges = none := by
      simp only [wordEdges, lastEnds_flatMap, List.findSome?_eq_none_iff]
      intro bus _ pair _ s _
      exact lastEnds_laneEdges_eq_none ⟨.word, pair.1, s, bus.2, .forward⟩ rfl _ (by simp)
    rw [hother, Option.none_or, lastEnds_siteEdges rfl]
  | word =>
    have hother : lastEnds ⟨.word, word, site, i, dir⟩ d.siteEdges = none := by
      simp only [siteEdges, lastEnds_flatMap, List.findSome?_eq_none_iff]
      intro w _ bus _ pair _
      exact lastEnds_laneEdges_eq_none ⟨.site, w, pair.1, bus.2, .forward⟩ rfl _ (by simp)
    rw [hother, Option.or_none, lastEnds_wordEdges rfl]

theorem lastOnBus_eq (bus : Bus) : d.lastOnBus lane bus =
    if d.hasLocation lane.source then
      ((((bus.pairs.filter (·.1 = lane.entry)).map fun pair => lane.landing pair.2).filter
        d.hasLocation).getLast?).map lane.ends
    else none := by
  have hentry : ∀ id, lane.boarding id = { lane with direction := .forward } ↔ id = lane.entry := by
    intro id
    obtain ⟨kind, word, site, i, dir⟩ := lane
    cases kind <;> simp [Lane.boarding, Lane.entry]
  have hforward : ∀ id, (lane.boarding id).direction = .forward := by
    intro id
    unfold Lane.boarding
    cases lane.kind <;> rfl
  unfold lastOnBus
  by_cases hsource : d.hasLocation lane.source = true
  · rw [if_pos hsource, List.filter_map, List.filter_filter, List.getLast?_map, List.getLast?_filter,
      List.find?_eq_findSome?_guard, List.map_findSome?, List.map_findSome?]
    congr 1
    funext pair
    simp only [lastEnds_laneEdges (hforward pair.1), hentry]
    by_cases hid : pair.1 = lane.entry <;>
      by_cases hl : d.hasLocation (lane.landing pair.2) = true <;>
        simp [Option.guard, hsource, hid, hl]
  · rw [if_neg hsource, List.findSome?_eq_none_iff]
    intro pair _
    rw [lastEnds_laneEdges (hforward pair.1), if_neg]
    exact fun h => hsource h.2.1

theorem landings_unique (hs : d.SingleSource) {l l' : Location} (hl : l ∈ d.landings lane)
    (hl' : l' ∈ d.landings lane) : l = l' := by
  unfold landings at hl hl'
  cases hbus : (d.buses lane.kind)[lane.bus]? with
  | none => simp [hbus] at hl
  | some bus =>
    have hnodup : bus.sources.Nodup := by
      have hmem := List.mem_of_getElem? hbus
      cases hkind : lane.kind <;> rw [hkind] at hmem
      · exact hs.1 bus hmem
      · exact hs.2 bus hmem
    have hdestination : ∀ {m : Location}, m ∈ ((bus.pairs.filter (·.1 = lane.entry)).map fun pair =>
        lane.landing pair.2) → (bus.destination? lane.entry).map lane.landing = some m := by
      intro m hm
      obtain ⟨⟨s, t⟩, hpair, rfl⟩ := List.mem_map.mp hm
      obtain ⟨hpair, hentry⟩ := List.mem_filter.mp hpair
      rw [← of_decide_eq_true hentry, Bus.destination?_of_mem_pairs hnodup hpair, Option.map_some]
    simp only [hbus] at hl hl'
    split_ifs at hl hl'
    · exact Option.some.inj ((hdestination hl).symm.trans (hdestination hl'))
    · cases hl

end Device

namespace LaneGraph

variable (g : LaneGraph)

theorem endpoints?_eq (lane : Lane) : g.endpoints? lane =
    (((g.device.landings lane).filter g.device.hasLocation).getLast?).map lane.ends := by
  change lastEnds lane g.edges = _
  rw [g.edges_eq, Device.lastEnds_edges, Device.landings]
  cases (g.device.buses lane.kind)[lane.bus]? with
  | none => simp
  | some bus =>
    by_cases hrides : g.device.rides lane = true <;>
      by_cases hsource : g.device.hasLocation lane.source = true <;>
        simp [Device.lastOnBus_eq, hrides, hsource]

/-- The two tables agree on a lane when the last landing that exists is the first landing. -/
theorem endpoints?_agrees_iff (lane : Lane) :
    (∀ ends, g.endpoints? lane = some ends ↔ g.device.endpoints lane = .ok ends) ↔
      ∀ l, ((g.device.landings lane).filter g.device.hasLocation).getLast? = some l →
        (g.device.landings lane).head? = some l := by
  have hinj : ∀ {l l' : Location}, lane.ends l = lane.ends l' → l = l' := by
    intro l l' h
    unfold Lane.ends at h
    cases hdir : lane.direction <;> simpa [hdir] using h
  simp only [endpoints?_eq, Device.endpoints_eq_ok_iff, Option.map_eq_some_iff]
  constructor
  · intro h l hl
    obtain ⟨l', hhead, _, hends⟩ := (h _).mp ⟨l, hl, rfl⟩
    rw [← hinj hends]
    exact hhead
  · intro h ends
    constructor
    · rintro ⟨l, hl, rfl⟩
      have hmem := List.mem_of_getLast? hl
      exact ⟨l, h l hl, (List.mem_filter.mp hmem).2, rfl⟩
    · rintro ⟨l, hhead, hl, rfl⟩
      have hmem : l ∈ (g.device.landings lane).filter g.device.hasLocation :=
        List.mem_filter.mpr ⟨List.mem_of_mem_head? hhead, hl⟩
      -- Some landing exists, so there is a last one, and it is the first landing.
      obtain ⟨l', hl'⟩ := Option.isSome_iff_exists.mp
        (List.getLast?_isSome.mpr (List.ne_nil_of_mem hmem))
      have heq := hhead.symm.trans (h l' hl')
      exact ⟨l', hl', by rw [Option.some.inj heq]⟩

/-- The lane graph and the device give a lane the same ends exactly when the last existing landing of the
lane is its first landing. They agree on all lanes if no bus lists a source twice. -/
theorem lane_tables_agree :
    (∀ lane, (∀ src dst, g.endpoints? lane = some (src, dst) ↔
        g.device.endpoints lane = .ok (src, dst)) ↔
      ∀ l, ((g.device.landings lane).filter g.device.hasLocation).getLast? = some l →
        (g.device.landings lane).head? = some l) ∧
    (g.device.SingleSource → ∀ lane src dst,
      g.endpoints? lane = some (src, dst) ↔ g.device.endpoints lane = .ok (src, dst)) := by
  refine ⟨fun lane => by rw [← endpoints?_agrees_iff, Prod.forall], ?_⟩
  intro hs lane src dst
  apply (g.endpoints?_agrees_iff lane).mpr
  intro l hl
  have hmem : l ∈ g.device.landings lane := (List.mem_filter.mp (List.mem_of_getLast? hl)).1
  obtain ⟨first, hfirst⟩ := Option.isSome_iff_exists.mp
    (List.isSome_head?.mpr (List.ne_nil_of_mem hmem))
  rw [hfirst, Device.landings_unique hs hmem (List.mem_of_mem_head? hfirst)]

/-- On a small grid the two tables agree on a lane that is travelled backwards. -/
theorem lane_tables_agree_grid :
    (⟨.word, 0, 3, 0, .backward⟩ : Lane) ∈ (ofDevice ⟨(Blueprint.grid 2 2).normalize, .bits32⟩).edges.map
        (·.lane) ∧
      ∀ src dst, (ofDevice ⟨(Blueprint.grid 2 2).normalize, .bits32⟩).endpoints?
          ⟨.word, 0, 3, 0, .backward⟩ = some (src, dst) ↔
        Device.endpoints ⟨(Blueprint.grid 2 2).normalize, .bits32⟩ ⟨.word, 0, 3, 0, .backward⟩ =
          .ok (src, dst) :=
  ⟨by decide +kernel, (lane_tables_agree (ofDevice ⟨(Blueprint.grid 2 2).normalize, .bits32⟩)).2
    (by decide +kernel) ⟨.word, 0, 3, 0, .backward⟩⟩

def forked : Blueprint :=
  { words := [{ sites := [(.ofNat 0, .ofNat 0), (.ofNat 10, .ofNat 0), (.ofNat 20, .ofNat 0)] }]
    zones := [[0]]
    siteBusWords := [0]
    wordBusSites := []
    siteBuses := [⟨[0, 0], [1, 2]⟩]
    wordBuses := [] }

/-- A bus may list a source twice, and then the device takes the first pair and the graph the last. -/
theorem lane_tables_differ_forked : ∃ d, Device.ofBlueprint forked = .ok d ∧
    d.endpoints ⟨.site, 0, 0, 0, .forward⟩ = .ok (⟨0, 0⟩, ⟨0, 1⟩) ∧
      (ofDevice d).endpoints? ⟨.site, 0, 0, 0, .forward⟩ = some (⟨0, 0⟩, ⟨0, 2⟩) :=
  ⟨⟨forked.normalize, .bits32⟩, by decide +kernel, by decide +kernel, by decide +kernel⟩

end LaneGraph

end AtomTransport
