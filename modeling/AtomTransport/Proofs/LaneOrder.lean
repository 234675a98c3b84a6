import AtomTransport.Proofs.Compilation
import Mathlib.Algebra.Ring.Nat

/-!
# What the layers carry

Staging takes the hops of all routes apart and packs them into layers. A plan says of every lane in
every layer which route it belongs to. In the plan that staging follows, each route finds its own hops
in the order of travel, at most one of them in a layer, and nothing else is carried; the crossings have
the layers between alignment and settlement to themselves.
-/

namespace AtomTransport

abbrev Ride := Nat × Segment

def ridesOf (i : Nat) (rides : List Ride) : List Segment := (rides.filter (·.1 = i)).map (·.2)

theorem ridesOf_append (i : Nat) (xs ys : List Ride) :
    ridesOf i (xs ++ ys) = ridesOf i xs ++ ridesOf i ys := by
  simp [ridesOf]

theorem mem_ridesOf {i : Nat} {s : Segment} {rides : List Ride} :
    s ∈ ridesOf i rides ↔ (i, s) ∈ rides := by
  simp [ridesOf]

/-- The order of rides does not matter when every route has one at most. -/
theorem ridesOf_perm {xs ys : List Ride} (hp : xs.Perm ys) (hn : (xs.map (·.1)).Nodup) (i : Nat) :
    ridesOf i xs = ridesOf i ys := by
  have hfilter := hp.filter (·.1 = i)
  have hkeys : ((xs.filter (·.1 = i)).map (·.1)).Nodup := hn.sublist (List.filter_sublist.map _)
  have hsame : ∀ x ∈ xs.filter (·.1 = i), x.1 = i := fun x hx => by
    simpa using (List.mem_filter.mp hx).2
  rcases hxs : xs.filter (·.1 = i) with _ | ⟨x, _ | ⟨y, rest⟩⟩ <;> rw [hxs] at hfilter hkeys hsame
  · rw [ridesOf, ridesOf, hxs, ← hfilter.nil_eq]
  · rw [ridesOf, ridesOf, hxs, List.singleton_perm.mp hfilter]
  · have hx := hsame x (by simp)
    have hy := hsame y (by simp)
    simp [hx, hy] at hkeys

theorem ridesOf_filterMap {items : List Nat} (hn : items.Nodup) {hop : Nat → Option Segment}
    (hout : ∀ i, i ∉ items → hop i = none) (i : Nat) :
    ridesOf i (items.filterMap fun j => (hop j).map (j, ·)) = (hop i).toList := by
  have key : ∀ items : List Nat, items.Nodup →
      ridesOf i (items.filterMap fun j => (hop j).map (j, ·)) =
        if i ∈ items then (hop i).toList else [] := by
    intro items hn
    induction items with
    | nil => rfl
    | cons j items ih =>
      obtain ⟨hj, hn⟩ := List.nodup_cons.mp hn
      have hcons : ridesOf i ((j :: items).filterMap fun j => (hop j).map (j, ·)) =
          (if j = i then (hop j).toList else []) ++
            ridesOf i (items.filterMap fun j => (hop j).map (j, ·)) := by
        rw [List.filterMap_cons]
        cases hop j <;> by_cases hji : j = i <;> simp [ridesOf, hji]
      rw [hcons, ih hn]
      by_cases hji : j = i
      · subst hji
        simp [hj]
      · simp [hji, Ne.symm hji]
  rw [key items hn]
  by_cases hi : i ∈ items
  · rw [if_pos hi]
  · rw [if_neg hi, hout i hi]
    rfl

/-- Layers that carry the hops of numbered routes: the plan names the ride of every lane, a layer never
holds two rides of one route, and each route makes its hops in order. -/
structure Carries (layers : List MoveLayer) (plan : List (List Ride)) (hops : Nat → List Segment) :
    Prop where
  lanes_eq : layers.map (·.lanes) = plan.map fun rides => rides.map (·.2.lane)
  apart : ∀ rides ∈ plan, (rides.map (·.1)).Nodup
  order : ∀ i, ridesOf i plan.flatten = hops i

namespace Carries

variable {layers layers' : List MoveLayer} {plan plan' : List (List Ride)}
  {hops hops' : Nat → List Segment}

theorem nil : Carries [] [] fun _ => [] := ⟨rfl, by simp, fun _ => rfl⟩

theorem append (h : Carries layers plan hops) (h' : Carries layers' plan' hops') :
    Carries (layers ++ layers') (plan ++ plan') fun i => hops i ++ hops' i where
  lanes_eq := by rw [List.map_append, List.map_append, h.lanes_eq, h'.lanes_eq]
  apart rides hrides := (List.mem_append.mp hrides).elim (h.apart rides) (h'.apart rides)
  order i := by rw [List.flatten_append, ridesOf_append, h.order, h'.order]

theorem congr (h : Carries layers plan hops) (heq : ∀ i, hops i = hops' i) :
    Carries layers plan hops' := (funext heq : hops = hops') ▸ h

theorem lanes_flatten (h : Carries layers plan hops) :
    layers.flatMap (·.lanes) = plan.flatten.map (·.2.lane) := by
  rw [List.flatMap_def, h.lanes_eq, List.map_flatten]

theorem mem_hops (h : Carries layers plan hops) {ride : Ride} (hride : ride ∈ plan.flatten) :
    ride.2 ∈ hops ride.1 := by
  rw [← h.order]
  exact mem_ridesOf.mpr hride

/-- The lanes of a route are met in the order of travel. -/
theorem sublist (h : Carries layers plan hops) (i : Nat) :
    ((hops i).map (·.lane)).Sublist (layers.flatMap (·.lanes)) := by
  rw [h.lanes_flatten, ← h.order i, ridesOf, List.map_map]
  exact List.filter_sublist.map _

theorem perm (h : Carries layers plan hops) {n : Nat} (hout : ∀ i, n ≤ i → hops i = []) :
    (layers.flatMap (·.lanes)).Perm
      ((List.range n).flatMap fun i => (hops i).map (·.lane)) := by
  have hcover : ∀ ride ∈ plan.flatten, ride.1 ∈ List.range n := by
    intro ride hride
    rw [List.mem_range]
    by_contra hle
    have hmem := h.mem_hops hride
    rw [hout ride.1 (Nat.le_of_not_lt hle)] at hmem
    cases hmem
  have hperm := MoveLayer.flatMap_filter_perm (fun ride : Ride => ride.1) List.nodup_range hcover
  rw [h.lanes_flatten]
  refine (hperm.symm.map _).trans (List.Perm.of_eq ?_)
  rw [List.map_flatMap]
  refine List.flatMap_congr ?_
  intro i _
  rw [← h.order i, ridesOf, List.map_map]
  rfl

end Carries

namespace MoveLayer

variable {d : Device}

/-- The layers of a stage carry its rides. -/
theorem carries_layersOf (d : Device) {rides : List Ride} (hn : (rides.map (·.1)).Nodup) :
    ∃ plan, Carries (layersOf d (rides.map (·.2))) plan fun i => ridesOf i rides := by
  have hperm := layersOf_perm (d := d) (rides.map (·.2))
  rw [List.map_map] at hperm
  obtain ⟨plan, hplan, hflat⟩ := exists_plan hperm
  have hkeys : (plan.flatten.map (·.1)).Nodup := (hflat.map _).nodup_iff.mpr hn
  refine ⟨plan, hplan, ?_, fun i => ridesOf_perm hflat hkeys i⟩
  intro rides' hrides'
  exact hkeys.sublist ((List.sublist_flatten_of_mem hrides').map _)

section Stages

variable {items : List Nat} {now : Nat → List Segment}

/-- The layers of the `k`-th stage carry the `k`-th hop of every route that has one. -/
theorem carries_stage (d : Device) (hn : items.Nodup) (hout : ∀ i, i ∉ items → now i = []) (k : Nat) :
    ∃ plan, Carries (layersOf d (items.filterMap fun i => (now i)[k]?)) plan
      fun i => ((now i)[k]?).toList := by
  have hkeys : ((items.filterMap fun j => ((now j)[k]?).map (j, ·)).map (·.1)).Nodup := by
    rw [List.map_filterMap]
    refine hn.filterMap ?_
    intro i j b hi hj
    simp only [Option.map_map, Option.mem_def, Option.map_eq_some_iff, Function.comp_apply] at hi hj
    obtain ⟨_, _, rfl⟩ := hi
    obtain ⟨_, _, rfl⟩ := hj
    rfl
  obtain ⟨plan, hcarries⟩ := carries_layersOf d hkeys
  have hstage : (items.filterMap fun j => ((now j)[k]?).map (j, ·)).map (·.2) =
      items.filterMap fun i => (now i)[k]? := by
    simp [List.map_filterMap, Function.comp_def]
  rw [hstage] at hcarries
  refine ⟨plan, hcarries.congr ?_⟩
  exact ridesOf_filterMap hn fun i hi => by rw [hout i hi, List.getElem?_nil]

theorem carries_range (d : Device) (hn : items.Nodup) (hout : ∀ i, i ∉ items → now i = [])
    (n : Nat) :
    ∃ plan, Carries ((List.range n).flatMap fun k =>
      layersOf d (items.filterMap fun i => (now i)[k]?)) plan fun i => (now i).take n := by
  induction n with
  | zero => exact ⟨[], Carries.nil.congr fun i => by simp⟩
  | succ n ih =>
    obtain ⟨plan, hplan⟩ := ih
    obtain ⟨last, hlast⟩ := carries_stage d hn hout n
    refine ⟨plan ++ last, ?_⟩
    rw [List.range_succ, List.flatMap_append, List.flatMap_singleton]
    exact (hplan.append hlast).congr fun i => List.take_add_one.symm

/-- The stages of some routes carry all their hops. -/
theorem carries_stages (d : Device) (hn : items.Nodup) (hout : ∀ i, i ∉ items → now i = []) :
    ∃ plan, Carries ((stages (items.map now)).flatMap (layersOf d)) plan now := by
  obtain ⟨plan, hplan⟩ := carries_range d hn hout
    ((items.map now).foldl (fun n h => max n h.length) 0)
  refine ⟨plan, ?_⟩
  simp only [stages, List.flatMap_map, List.filterMap_map, Function.comp_def]
  refine hplan.congr fun i => ?_
  by_cases hi : i ∈ items
  · exact List.take_of_length_le (le_foldl_max List.length (List.mem_map_of_mem hi))
  · rw [hout i hi, List.take_nil]

end Stages

def hopsAt (phase : Route → List Segment) (routes : List Route) (i : Nat) : List Segment :=
  (routes[i]?.map phase).getD []

section Phases

variable {routes : List Route} {phase : Route → List Segment}

theorem hopsAt_of_some {i : Nat} {r : Route} (h : routes[i]? = some r) :
    hopsAt phase routes i = phase r := by
  rw [hopsAt, h]
  rfl

theorem hopsAt_of_le {i : Nat} (h : routes.length ≤ i) : hopsAt phase routes i = [] := by
  rw [hopsAt, List.getElem?_eq_none h]
  rfl

theorem hopsAt_of_notMem {i : Nat} (h : i ∉ List.range routes.length) :
    hopsAt phase routes i = [] :=
  hopsAt_of_le (Nat.le_of_not_lt fun hlt => h (List.mem_range.mpr hlt))

theorem map_hopsAt (phase : Route → List Segment) (routes : List Route) :
    (List.range routes.length).map (hopsAt phase routes) = routes.map phase := by
  refine List.ext_getElem (by simp) ?_
  intro i _ hi
  rw [List.length_map] at hi
  simp [hopsAt, hi]

theorem mem_hopsAt {i : Nat} {s : Segment} (h : s ∈ hopsAt phase routes i) :
    ∃ r ∈ routes, s ∈ phase r := by
  cases hr : routes[i]? with
  | none => simp [hopsAt, hr] at h
  | some r =>
    rw [hopsAt_of_some hr] at h
    exact ⟨r, List.mem_of_getElem? hr, h⟩

theorem carries_phase (d : Device) (phase : Route → List Segment) (routes : List Route) :
    ∃ plan, Carries ((stages (routes.map phase)).flatMap (layersOf d)) plan
      (hopsAt phase routes) := by
  rw [← map_hopsAt]
  exact carries_stages d List.nodup_range fun i hi => hopsAt_of_notMem hi

theorem carries_cross (d : Device) (routes : List Route) :
    ∃ plan, Carries (layersOf d ((routes.filter (·.cross.isSome)).filterMap (·.cross))) plan
      (hopsAt (·.cross.toList) routes) := by
  have hout : ∀ i, i ∉ List.range routes.length → hopsAt (·.cross.toList) routes i = [] :=
    fun _ hi => hopsAt_of_notMem hi
  obtain ⟨plan, hplan⟩ := carries_stage d List.nodup_range hout 0
  refine ⟨plan, ?_⟩
  have hstage : ((List.range routes.length).filterMap fun i =>
      (hopsAt (·.cross.toList) routes i)[0]?) =
      (routes.filter (·.cross.isSome)).filterMap (·.cross) := by
    have hfirst := congrArg (List.filterMap (·[0]?)) (map_hopsAt (·.cross.toList) routes)
    rw [List.filterMap_map, List.filterMap_map] at hfirst
    exact hfirst.trans (filterMap_cross routes)
  rw [hstage] at hplan
  refine hplan.congr fun i => ?_
  cases hr : routes[i]? with
  | none => simp [hopsAt, hr]
  | some r =>
    rw [hopsAt_of_some hr]
    cases r.cross <;> rfl

/-- Layers that carry some routes phase by phase: the routes that stay in their word, then alignment,
crossing and settlement of the others. -/
structure CarriesPhases (routes : List Route) (layers : List MoveLayer)
    (inside align cross settle : List (List Ride)) : Prop where
  carries : Carries layers (inside ++ align ++ cross ++ settle) (hopsAt Route.segments routes)
  inside_order : ∀ i, ridesOf i inside.flatten = hopsAt Route.within routes i
  align_order : ∀ i, ridesOf i align.flatten = hopsAt Route.approach routes i
  cross_order : ∀ i, ridesOf i cross.flatten = hopsAt (·.cross.toList) routes i
  settle_order : ∀ i, ridesOf i settle.flatten = hopsAt Route.departure routes i

theorem carries_phases (d : Device) (hshape : ∀ r ∈ routes, r.Shaped) :
    ∃ inside align cross settle, CarriesPhases routes ((phases routes).flatMap (layersOf d))
      inside align cross settle := by
  obtain ⟨inside, hinside⟩ := carries_phase d Route.within routes
  obtain ⟨align, halign⟩ := carries_phase d Route.approach routes
  obtain ⟨cross, hcross⟩ := carries_cross d routes
  obtain ⟨settle, hsettle⟩ := carries_phase d Route.departure routes
  refine ⟨inside, align, cross, settle, ?_, hinside.order, halign.order, hcross.order,
    hsettle.order⟩
  simp only [phases, List.flatMap_append, List.flatMap_singleton, stages_filter]
  refine (((hinside.append halign).append hcross).append hsettle).congr fun i => ?_
  cases hr : routes[i]? with
  | none => simp [hopsAt, hr]
  | some r =>
    simp only [hopsAt_of_some hr]
    exact Route.segments_eq (hshape r (List.mem_of_getElem? hr))

theorem kind_of_order {plan : List (List Ride)} {kind : LaneKind}
    (horder : ∀ i, ridesOf i plan.flatten = hopsAt phase routes i)
    (hkind : ∀ r ∈ routes, ∀ s ∈ phase r, s.lane.kind = kind) :
    ∀ rides ∈ plan, ∀ ride ∈ rides, ride.2.lane.kind = kind := by
  intro rides hrides ride hride
  have hmem : ride.2 ∈ ridesOf ride.1 plan.flatten :=
    mem_ridesOf.mpr (List.mem_flatten.mpr ⟨rides, hrides, hride⟩)
  rw [horder] at hmem
  obtain ⟨r, hr, hs⟩ := mem_hopsAt hmem
  exact hkind r hr _ hs

section Blocks

variable {layers : List MoveLayer} {inside align cross settle : List (List Ride)} {k : Nat}

theorem CarriesPhases.site (h : CarriesPhases routes layers inside align cross settle)
    (hsplits : ∀ r ∈ routes, Route.ofPath? r.toPath = some r) {rides : List Ride}
    (hrides : rides ∈ inside ∨ rides ∈ align ∨ rides ∈ settle) :
    ∀ ride ∈ rides, ride.2.lane.kind = .site := by
  have hkinds := fun r hr => Route.kinds_of_ofPath? (hsplits r hr)
  rcases hrides with hin | hin | hin
  · exact kind_of_order h.inside_order (fun r hr s hs =>
      (hkinds r hr).1 s (Route.mem_align_of_within (List.mem_append_left _ hs))) rides hin
  · exact kind_of_order h.align_order (fun r hr s hs =>
      (hkinds r hr).1 s (Route.mem_align_of_within (List.mem_append_right _ hs))) rides hin
  · exact kind_of_order h.settle_order (fun r hr s hs =>
      (hkinds r hr).2.2 s (Route.mem_settle_of_departure hs)) rides hin

/-- A layer with a word lane belongs to the third block. -/
theorem CarriesPhases.word_bounds (h : CarriesPhases routes layers inside align cross settle)
    (hsplits : ∀ r ∈ routes, Route.ofPath? r.toPath = some r) {l : MoveLayer}
    (hl : layers[k]? = some l) {lane : Lane} (hlane : lane ∈ l.lanes) (hword : lane.kind = .word) :
    (inside ++ align).length ≤ k ∧ k < (inside ++ align ++ cross).length := by
  obtain ⟨rides, hrides, hmem⟩ : ∃ rides, (inside ++ align ++ cross ++ settle)[k]? = some rides ∧
      lane ∈ rides.map (·.2.lane) := by
    have hk := congrArg (·[k]?) h.carries.lanes_eq
    simp only [List.getElem?_map, hl, Option.map_some] at hk
    obtain ⟨rides, hrides, heq⟩ := Option.map_eq_some_iff.mp hk.symm
    exact ⟨rides, hrides, heq ▸ hlane⟩
  obtain ⟨ride, hride, rfl⟩ := List.mem_map.mp hmem
  have hout : ¬ (rides ∈ inside ∨ rides ∈ align ∨ rides ∈ settle) := by
    intro hin
    rw [h.site hsplits hin ride hride] at hword
    cases hword
  constructor
  · by_contra hlt
    rw [List.append_assoc, List.getElem?_append_left (Nat.lt_of_not_le hlt)] at hrides
    rcases List.mem_append.mp (List.mem_of_getElem? hrides) with hin | hin
    · exact hout (Or.inl hin)
    · exact hout (Or.inr (Or.inl hin))
  · by_contra hle
    rw [List.getElem?_append_right (Nat.le_of_not_lt hle)] at hrides
    exact hout (Or.inr (Or.inr (List.mem_of_getElem? hrides)))

/-- From the third block, alignment lies behind and settlement ahead. -/
theorem CarriesPhases.between (h : CarriesPhases routes layers inside align cross settle)
    (hlower : (inside ++ align).length ≤ k) (hupper : k < (inside ++ align ++ cross).length)
    {i : Nat} {r : Route} (hr : routes[i]? = some r) (hcross : r.cross.isSome) :
    r.align <+: ridesOf i ((inside ++ align ++ cross ++ settle).take k).flatten ∧
      r.settle <:+ ridesOf i ((inside ++ align ++ cross ++ settle).drop (k + 1)).flatten := by
  constructor
  · have hwithin : ridesOf i inside.flatten = [] := by
      rw [h.inside_order, hopsAt_of_some hr, Route.within, if_neg]
      simpa [Option.isSome_iff_ne_none] using hcross
    have happroach : ridesOf i align.flatten = r.align := by
      rw [h.align_order, hopsAt_of_some hr, Route.approach, if_pos hcross]
    rw [List.append_assoc, List.take_append, List.take_of_length_le hlower, List.flatten_append,
      List.flatten_append, ridesOf_append, ridesOf_append, hwithin, happroach, List.nil_append]
    exact ⟨_, rfl⟩
  · have hdeparture : ridesOf i settle.flatten = r.settle := by
      rw [h.settle_order, hopsAt_of_some hr, Route.departure, if_pos hcross]
    rw [List.drop_append_of_le_length hupper, List.flatten_append, ridesOf_append, hdeparture]
    exact ⟨_, rfl⟩

end Blocks

end Phases

section Planned

variable {g : LaneGraph} {h : Heuristic} {hints : List (Qubit × Path)} {before after : Placement}
  {layers : List MoveLayer}

/-- Suggested or not, a route is accepted only after its path has been split. -/
theorem splits_of_planRoutes {ms : List Mover} {routes : List Route}
    (hplan : planRoutes g h hints before ms = .ok routes) :
    ∀ r ∈ routes, Route.ofPath? r.toPath = some r := by
  obtain ⟨hinted, hfold, hplan⟩ := bind_eq_ok.mp hplan
  obtain ⟨last, hfold', hplan⟩ := bind_eq_ok.mp hplan
  cases hplan
  have hhint : ∀ router m router', Router.Splits router →
      followHint hints router m = .ok router' → Router.Splits router' := by
    intro router m router' hrouter hstep
    unfold followHint at hstep
    split at hstep <;> cases hstep
    next route hroute =>
      obtain ⟨p, _, hp⟩ := Option.bind_eq_some_iff.mp hroute
      exact hrouter.commit m.qubit ((Route.toPath_of_ofPath? hp).2.symm ▸ hp)
  have hfree : ∀ router m router', Router.Splits router →
      routeFreely router m = .ok router' → Router.Splits router' := by
    intro router m router' hrouter hstep
    unfold routeFreely at hstep
    split at hstep <;> cases hstep
    next route hroute => exact hrouter.commit m.qubit (Router.ofPath?_of_route? hroute)
  have hinitial : Router.Splits ⟨g, h, before.blocked, ms.map (·.dst), [], []⟩ := by
    simp [Router.Splits]
  have hlast := foldlM_preserves hfree (foldlM_preserves hhint hinitial hfold) hfold'
  intro r hr
  obtain ⟨e, he, rfl⟩ := List.mem_map.mp hr
  exact hlast e he

theorem signature_of_layersOf {d : Device} {stage : List Segment} {l : MoveLayer}
    (hl : l ∈ layersOf d stage) {lane : Lane} (hlane : lane ∈ l.lanes) :
    l.signature? = some lane.signature := by
  obtain ⟨s, _, hl⟩ := List.mem_flatMap.mp hl
  have hsame : ∀ x ∈ l.lanes, x.signature = s := by
    intro x hx
    have hmem := (split_perm _).mem_iff.mp (List.mem_flatMap.mpr ⟨l, hl, hx⟩)
    simpa using (List.mem_filter.mp hmem).2
  rw [signature?, hsame lane hlane]
  cases hlanes : l.lanes with
  | nil => simp [hlanes] at hlane
  | cons x rest =>
    rw [List.head?_cons, Option.map_some, hsame x (by simp [hlanes])]

/-- Staging loses, duplicates and reorders nothing, whatever paths were suggested. The plan names the
route of every lane: each route makes its hops in the order of travel, no two of them in one layer; word
lanes run when all routes that cross have aligned and none has settled. So the layers hold the lanes of
the routes, each as often as the routes do, and the lanes of a layer share their signature. -/
theorem along_keeps_hops (hok : along g h hints before after = .ok layers) :
    ∃ ms routes plan, movers g.device before after = .ok ms ∧
      planRoutes g h hints before ms = .ok routes ∧
      Carries layers plan (hopsAt Route.segments routes) ∧
      (layers.flatMap (·.lanes)).Perm (routes.flatMap (·.lanes)) ∧
      (∀ r ∈ routes, r.lanes.Sublist (layers.flatMap (·.lanes))) ∧
      (∀ l ∈ layers, ∀ lane ∈ l.lanes, l.signature? = some lane.signature) ∧
      (∀ k l, layers[k]? = some l → (∃ lane ∈ l.lanes, lane.kind = .word) →
        ∀ i r, routes[i]? = some r → r.cross.isSome →
          r.align <+: ridesOf i (plan.take k).flatten ∧
            r.settle <:+ ridesOf i (plan.drop (k + 1)).flatten) ∧
      (layers.map (·.length)).sum = (routes.map (·.length)).sum := by
  unfold along at hok
  split_ifs at hok
  obtain ⟨ms, hms, hok⟩ := bind_eq_ok.mp hok
  obtain ⟨routes, hplan, hok⟩ := bind_eq_ok.mp hok
  obtain ⟨_, _, hok⟩ := bind_eq_ok.mp hok
  obtain ⟨layers', hstages, hok⟩ := bind_eq_ok.mp hok
  obtain ⟨⟨⟩, _, hok⟩ := bind_eq_ok.mp hok
  cases hok
  obtain ⟨_, rfl⟩ := layers_of_ofStages hstages
  have hsplits := splits_of_planRoutes hplan
  obtain ⟨inside, align, cross, settle, hphases⟩ := carries_phases g.device fun r hr =>
    (Route.toPath_of_ofPath? (hsplits r hr)).1
  have hcarries := hphases.carries
  have hperm : (((phases routes).flatMap (layersOf g.device)).flatMap (·.lanes)).Perm
      (routes.flatMap (·.lanes)) := by
    refine (hcarries.perm fun i hi => hopsAt_of_le hi).trans (List.Perm.of_eq ?_)
    rw [List.flatMap_def, List.flatMap_def, ← Function.comp_def, ← List.map_map, map_hopsAt,
      List.map_map]
    rfl
  refine ⟨ms, routes, inside ++ align ++ cross ++ settle, hms, hplan, hcarries, hperm, ?_, ?_, ?_, ?_⟩
  · intro r hr
    obtain ⟨i, hi⟩ := List.mem_iff_getElem?.mp hr
    have hsub := hcarries.sublist i
    rw [hopsAt_of_some hi] at hsub
    exact hsub
  · intro l hl lane hlane
    obtain ⟨stage, _, hl⟩ := List.mem_flatMap.mp hl
    exact signature_of_layersOf hl hlane
  · rintro k l hl ⟨lane, hlane, hword⟩ i r hr hcross
    obtain ⟨hlower, hupper⟩ := hphases.word_bounds hsplits hl hlane hword
    exact hphases.between hlower hupper hr hcross
  · have hlength := hperm.length_eq
    simp only [List.length_flatMap] at hlength
    simpa [MoveLayer.length, Route.length, Route.lanes] using hlength

end Planned

def crossover : List MoveLayer :=
  [⟨[⟨.site, 1, 1, 0, .forward⟩]⟩, ⟨[⟨.site, 0, 1, 1, .forward⟩]⟩,
    ⟨[⟨.word, 0, 2, 0, .forward⟩]⟩, ⟨[⟨.site, 1, 0, 0, .backward⟩]⟩]

theorem along_keeps_hops_crossover :
    along Compiler.forSmallGrid.graph .busReuse [] ⟨[], [⟨0, 1⟩, ⟨1, 1⟩], [0, 0]⟩
        ⟨[], [⟨1, 0⟩, ⟨1, 3⟩], [0, 0]⟩ = .ok crossover ∧
    ∃ r r' plan, Carries crossover plan (hopsAt Route.segments [r, r']) ∧
      r.lanes = [⟨.site, 0, 1, 1, .forward⟩, ⟨.word, 0, 2, 0, .forward⟩, ⟨.site, 1, 0, 0, .backward⟩] ∧
      r.align <+: ridesOf 0 (plan.take 2).flatten ∧ r.settle <:+ ridesOf 0 (plan.drop 3).flatten := by
  have hok : along Compiler.forSmallGrid.graph .busReuse [] ⟨[], [⟨0, 1⟩, ⟨1, 1⟩], [0, 0]⟩
      ⟨[], [⟨1, 0⟩, ⟨1, 3⟩], [0, 0]⟩ = .ok crossover := by rfl
  obtain ⟨ms, routes, plan, hms, hplan, hcarries, _, _, _, hbetween, _⟩ := along_keeps_hops hok
  have hms' : movers Compiler.forSmallGrid.graph.device ⟨[], [⟨0, 1⟩, ⟨1, 1⟩], [0, 0]⟩
      ⟨[], [⟨1, 0⟩, ⟨1, 3⟩], [0, 0]⟩ = .ok [⟨0, ⟨0, 1⟩, ⟨1, 0⟩⟩, ⟨1, ⟨1, 1⟩, ⟨1, 3⟩⟩] := by rfl
  cases hms.symm.trans hms'
  have hplan' : planRoutes Compiler.forSmallGrid.graph .busReuse [] ⟨[], [⟨0, 1⟩, ⟨1, 1⟩], [0, 0]⟩
      [⟨0, ⟨0, 1⟩, ⟨1, 0⟩⟩, ⟨1, ⟨1, 1⟩, ⟨1, 3⟩⟩] = .ok
        [⟨⟨0, 1⟩, [⟨⟨.site, 0, 1, 1, .forward⟩, ⟨0, 1⟩, ⟨0, 2⟩⟩],
          some ⟨⟨.word, 0, 2, 0, .forward⟩, ⟨0, 2⟩, ⟨1, 2⟩⟩,
          [⟨⟨.site, 1, 0, 0, .backward⟩, ⟨1, 2⟩, ⟨1, 0⟩⟩]⟩,
        ⟨⟨1, 1⟩, [⟨⟨.site, 1, 1, 0, .forward⟩, ⟨1, 1⟩, ⟨1, 3⟩⟩], none, []⟩] := by rfl
  cases hplan.symm.trans hplan'
  obtain ⟨halign, hsettle⟩ := hbetween 2 _ rfl ⟨_, List.mem_cons_self, rfl⟩ 0 _ rfl rfl
  exact ⟨hok, _, _, plan, hcarries, rfl, halign, hsettle⟩

end MoveLayer

end AtomTransport
