import AtomTransport.Device.Grid
import AtomTransport.MoveLayer
import AtomTransport.Proofs.Route

/-!
# Runs of a router

A router is asked to hold locations back and to plan one atom after another; every route that it finds is
accepted before the next one is sought. What it has claimed is then what was claimed at the beginning and
what the accepted routes visit, and what is pending is what has been reserved since the last route that
ends there. So each route enters new locations only, and no two routes have a location in common.
-/

namespace AtomTransport

namespace Router

open MoveLayer (Mover)

inductive Event where
  | reserved (locations : List Location)
  | accepted (m : Mover) (route : Route)

inductive Run (first : Router) : List Event → Router → Prop where
  | start : Run first [] first
  | reserve {events : List Event} {r : Router} (locations : List Location) (h : Run first events r) :
      Run first (events ++ [.reserved locations]) (r.reserve locations)
  | accept {events : List Event} {r : Router} {m : Mover} {route : Route} (h : Run first events r)
      (hroute : r.route? m.src m.dst = some route) :
      Run first (events ++ [.accepted m route]) (r.commit m.qubit route)

def acceptances (events : List Event) : List (Mover × Route) :=
  events.filterMap fun
    | .reserved _ => none
    | .accepted m route => some (m, route)

/-- A location is held if it has been reserved and no route that ends there has been accepted since. -/
def Held (events : List Event) (l : Location) : Prop :=
  ∃ earlier locations later, events = earlier ++ .reserved locations :: later ∧ l ∈ locations ∧
    ∀ e ∈ acceptances later, e.1.dst ≠ l

variable {first r : Router} {events : List Event} {m : Mover} {route : Route} {l : Location}

theorem acceptances_append (events later : List Event) :
    acceptances (events ++ later) = acceptances events ++ acceptances later :=
  List.filterMap_append

@[simp] theorem acceptances_reserved (locations : List Location) :
    acceptances [.reserved locations] = [] := rfl

@[simp] theorem acceptances_accepted (m : Mover) (route : Route) :
    acceptances [.accepted m route] = [(m, route)] := rfl

theorem mem_acceptances : (m, route) ∈ acceptances events ↔ .accepted m route ∈ events := by
  simp only [acceptances, List.mem_filterMap]
  constructor
  · rintro ⟨e, he, heq⟩
    cases e with
    | reserved locations => cases heq
    | accepted m' route' =>
      cases heq
      exact he
  · exact fun he => ⟨_, he, rfl⟩

theorem not_held_nil : ¬ Held [] l := by
  rintro ⟨earlier, _, _, heq, _⟩
  cases earlier <;> cases heq

theorem held_reserve {locations : List Location} :
    Held (events ++ [.reserved locations]) l ↔ Held events l ∨ l ∈ locations := by
  constructor
  · rintro ⟨earlier, locations', later, heq, hl, hlater⟩
    rcases List.eq_nil_or_concat' later with rfl | ⟨later, e, rfl⟩
    · obtain ⟨-, hlast⟩ := List.append_inj' heq rfl
      cases hlast
      exact Or.inr hl
    · rw [← List.cons_append, ← List.append_assoc] at heq
      obtain ⟨rfl, hlast⟩ := List.append_inj' heq rfl
      refine Or.inl ⟨earlier, locations', later, rfl, hl, ?_⟩
      intro e he
      exact hlater e (acceptances_append later _ ▸ List.mem_append_left _ he)
  · rintro (⟨earlier, locations', later, rfl, hl, hlater⟩ | hl)
    · refine ⟨earlier, locations', later ++ [.reserved locations], by simp, hl, ?_⟩
      simpa [acceptances_append] using hlater
    · exact ⟨events, locations, [], rfl, hl, by simp [acceptances]⟩

theorem held_accept : Held (events ++ [.accepted m route]) l ↔ Held events l ∧ m.dst ≠ l := by
  constructor
  · rintro ⟨earlier, locations, later, heq, hl, hlater⟩
    rcases List.eq_nil_or_concat' later with rfl | ⟨later, e, rfl⟩
    · obtain ⟨-, hlast⟩ := List.append_inj' heq rfl
      cases hlast
    · rw [← List.cons_append, ← List.append_assoc] at heq
      obtain ⟨rfl, hlast⟩ := List.append_inj' heq rfl
      cases hlast
      rw [acceptances_append, acceptances_accepted, List.forall_mem_append] at hlater
      exact ⟨⟨earlier, locations, later, rfl, hl, hlater.1⟩, hlater.2 _ List.mem_cons_self⟩
  · rintro ⟨⟨earlier, locations, later, rfl, hl, hlater⟩, hne⟩
    refine ⟨earlier, locations, later ++ [.accepted m route], by simp, hl, ?_⟩
    rw [acceptances_append, acceptances_accepted, List.forall_mem_append, List.forall_mem_singleton]
    exact ⟨hlater, hne⟩

theorem finish_of_route? {src dst : Location} (h : r.route? src dst = some route) :
    route.finish = dst := by
  by_cases heq : src = dst
  · rw [route?, if_pos heq] at h
    cases h
    exact heq
  · obtain ⟨htravels, _, _⟩ := travels_of_route? heq h
    have hfinish := htravels.walk.finish_eq
    rw [← htravels.start_eq] at hfinish
    exact hfinish

namespace Run

theorem graph_eq (h : Run first events r) : r.graph = first.graph := by
  induction h with
  | start => rfl
  | reserve _ _ ih => exact ih
  | accept _ _ ih => exact ih

theorem claimed_eq (h : Run first events r) :
    r.claimed = first.claimed ++ (acceptances events).flatMap fun e => e.2.visited := by
  induction h with
  | start => simp [acceptances]
  | reserve locations _ ih =>
    rw [acceptances_append, acceptances_reserved, List.append_nil]
    exact ih
  | accept _ _ ih => simp [commit, ih, acceptances_append]

theorem mem_pending_iff (h : Run first events r) (hfirst : first.pending = []) :
    l ∈ r.pending ↔ Held events l := by
  induction h with
  | start => simp [hfirst, not_held_nil]
  | reserve locations _ ih => rw [Router.reserve, List.mem_append, ih, held_reserve]
  | accept _ hroute ih =>
    rw [held_accept, ← ih, Router.commit, List.mem_filter, finish_of_route? hroute, decide_eq_true_eq,
      ne_comm]

theorem routes_perm (h : Run first events r) (hfirst : first.routes = [])
    (hqubits : ((acceptances events).map (·.1.qubit)).Nodup) :
    r.routes.Perm ((acceptances events).map fun e => (e.1.qubit, e.2)) := by
  induction h with
  | start => simp [hfirst, acceptances]
  | reserve locations _ ih =>
    rw [acceptances_append, acceptances_reserved, List.append_nil] at hqubits ⊢
    exact ih hqubits
  | @accept events r m route _ _ ih =>
    rw [acceptances_append, acceptances_accepted, List.map_append] at hqubits ⊢
    obtain ⟨hbefore, -, hnew⟩ := List.nodup_append.mp hqubits
    have hperm := ih hbefore
    have hkey : m.qubit ∉ r.routes.map (·.1) := by
      intro hin
      rw [(hperm.map (·.1)).mem_iff, List.map_map] at hin
      exact hnew _ hin _ List.mem_cons_self rfl
    refine (commit_perm hkey route).trans ?_
    exact (hperm.cons _).trans (List.perm_append_singleton _ _).symm

end Run

/-- Accepted routes that visit none of the locations claimed at the beginning, and no location twice. -/
structure Apart (claimed : List Location) (moves : List (Mover × Route)) : Prop where
  fresh : ∀ e ∈ moves, ∀ l ∈ e.2.visited, l ∉ claimed
  disjoint : moves.Pairwise fun x y => x.2.toPath.locations.Disjoint y.2.toPath.locations

structure Carries (g : LaneGraph) (m : Mover) (route : Route) : Prop where
  start_eq : route.start = m.src
  finish_eq : route.finish = m.dst
  walk : Walk g.edges m.src route.segments m.dst
  crossings : (route.lanes.filter (·.kind = .word)).length ≤ 1

theorem carries_of_route? (hne : m.src ≠ m.dst) (h : r.route? m.src m.dst = some route) :
    Carries r.graph m route := by
  obtain ⟨htravels, _, hsplit⟩ := travels_of_route? hne h
  refine ⟨htravels.start_eq, finish_of_route? h, htravels.walk, ?_⟩
  have hcross : route.segments.filter (·.lane.kind = .word) = route.cross.toList :=
    Route.crossings_of_ofPath? hsplit
  rw [Route.lanes, List.filter_map, List.length_map]
  change (route.segments.filter (·.lane.kind = .word)).length ≤ 1
  rw [hcross]
  cases route.cross <;> simp

/-- One more route keeps apart from the others: they have claimed what they visit, and the atoms start from
different claimed locations. -/
theorem Apart.accept {claimed : List Location} {moves : List (Mover × Route)} (h : Apart claimed moves)
    (hclaimed : r.claimed = claimed ++ moves.flatMap fun e => e.2.visited)
    (hstart : ∀ e ∈ moves, e.2.start = e.1.src ∧ e.1.src ∈ claimed ∧ e.1.src ≠ m.src)
    (hsrc : m.src ∈ claimed) (hne : m.src ≠ m.dst) (hroute : r.route? m.src m.dst = some route) :
    Apart claimed (moves ++ [(m, route)]) := by
  obtain ⟨htravels, _, _⟩ := travels_of_route? hne hroute
  have hfree : ∀ l ∈ route.visited, l ∉ claimed ∧ ∀ e ∈ moves, l ∉ e.2.visited := by
    intro l hl
    have hout := visited_unclaimed (unclaimed_of_travels hne htravels) htravels hl
    rw [hclaimed, List.mem_append, not_or, List.mem_flatMap] at hout
    exact ⟨hout.1, fun e he hin => hout.2 ⟨e, he, hin⟩⟩
  refine ⟨?_, List.pairwise_append.mpr ⟨h.disjoint, List.pairwise_singleton .., ?_⟩⟩
  · rw [List.forall_mem_append, List.forall_mem_singleton]
    exact ⟨h.fresh, fun l hl => (hfree l hl).1⟩
  · intro e he e' he'
    obtain rfl := List.mem_singleton.mp he'
    obtain ⟨hfirst, hheld, hother⟩ := hstart e he
    have hlocations : route.toPath.locations = m.src :: route.visited := by
      rw [← htravels.start_eq]
      rfl
    have hearlier : e.2.toPath.locations = e.1.src :: e.2.visited := by
      rw [← hfirst]
      rfl
    rw [hlocations, hearlier]
    intro l hl hl'
    rcases List.mem_cons.mp hl with rfl | hl <;> rcases List.mem_cons.mp hl' with heq | hl'
    · exact hother heq
    · exact (hfree _ hl').1 hheld
    · exact h.fresh e he l hl (heq ▸ hsrc)
    · exact (hfree l hl').2 e he hl

/-- The atoms that are planned differ in qubit and start, they start from locations that are claimed at the
beginning, and each has somewhere to go. -/
structure Admits (claimed : List Location) (events : List Event) : Prop where
  qubits : ((acceptances events).map (·.1.qubit)).Nodup
  sources : ((acceptances events).map (·.1.src)).Nodup
  claimed : ∀ e ∈ acceptances events, e.1.src ∈ claimed
  moving : ∀ e ∈ acceptances events, e.1.src ≠ e.1.dst

theorem Admits.left {claimed : List Location} {later : List Event} (h : Admits claimed (events ++ later)) :
    Admits claimed events := by
  obtain ⟨hqubits, hsources, hclaimed, hmoving⟩ := h
  rw [acceptances_append] at hqubits hsources hclaimed hmoving
  rw [List.map_append] at hqubits hsources
  exact ⟨(List.nodup_append.mp hqubits).1, (List.nodup_append.mp hsources).1,
    (List.forall_mem_append.mp hclaimed).1, (List.forall_mem_append.mp hmoving).1⟩

namespace Run

/-- A route was found by the router that the events before it led to. -/
theorem exists_route {earlier later : List Event}
    (h : Run first (earlier ++ .accepted m route :: later) r) :
    ∃ r', Run first earlier r' ∧ r'.route? m.src m.dst = some route := by
  generalize hevents : earlier ++ .accepted m route :: later = events at h
  induction h generalizing later with
  | start => cases earlier <;> cases hevents
  | reserve locations _ ih =>
    rcases List.eq_nil_or_concat' later with rfl | ⟨later, e, rfl⟩
    · cases (List.append_inj' hevents rfl).2
    · rw [← List.cons_append, ← List.append_assoc] at hevents
      exact ih (List.append_inj' hevents rfl).1
  | @accept events r m' route' h hroute ih =>
    rcases List.eq_nil_or_concat' later with rfl | ⟨later, e, rfl⟩
    · obtain ⟨rfl, hlast⟩ := List.append_inj' hevents rfl
      cases hlast
      exact ⟨r, h, hroute⟩
    · rw [← List.cons_append, ← List.append_assoc] at hevents
      exact ih (List.append_inj' hevents rfl).1

theorem carries (h : Run first events r) (ha : Admits first.claimed events) :
    ∀ e ∈ acceptances events, Carries first.graph e.1 e.2 := by
  induction h with
  | start => simp [acceptances]
  | reserve locations _ ih =>
    rw [acceptances_append, acceptances_reserved, List.append_nil]
    exact ih ha.left
  | accept h hroute ih =>
    rw [acceptances_append, acceptances_accepted, List.forall_mem_append, List.forall_mem_singleton]
    have hne := ha.moving _ (mem_acceptances.mpr (List.mem_append_right _ List.mem_cons_self))
    exact ⟨ih ha.left, h.graph_eq ▸ carries_of_route? hne hroute⟩

theorem apart (h : Run first events r) (ha : Admits first.claimed events) :
    Apart first.claimed (acceptances events) := by
  induction h with
  | start => exact ⟨by simp [acceptances], List.Pairwise.nil⟩
  | reserve locations _ ih =>
    rw [acceptances_append, acceptances_reserved, List.append_nil]
    exact ih ha.left
  | @accept events r m route h hroute ih =>
    have hmem : (m, route) ∈ acceptances (events ++ [.accepted m route]) :=
      mem_acceptances.mpr (List.mem_append_right _ List.mem_cons_self)
    have hsources := ha.sources
    rw [acceptances_append, acceptances_accepted, List.map_append] at hsources
    rw [acceptances_append, acceptances_accepted]
    refine (ih ha.left).accept h.claimed_eq ?_ (ha.claimed _ hmem) (ha.moving _ hmem) hroute
    intro e he
    refine ⟨(h.carries ha.left e he).start_eq, ha.left.claimed e he, ?_⟩
    exact (List.nodup_append.mp hsources).2.2 _ (List.mem_map_of_mem he) _ List.mem_cons_self

/-- A route enters a location that is held only to end there. -/
theorem eq_dst_of_held {earlier later : List Event}
    (h : Run first (earlier ++ .accepted m route :: later) r) (hfirst : first.pending = [])
    (hne : m.src ≠ m.dst) (hl : l ∈ route.visited) (hheld : Held earlier l) : l = m.dst := by
  obtain ⟨r', hr', hroute⟩ := h.exists_route
  obtain ⟨htravels, _, _⟩ := travels_of_route? hne hroute
  rcases visited_unblocked htravels hl with ⟨_, hpending⟩ | ⟨hend, _⟩
  · exact absurd ((hr'.mem_pending_iff hfirst).mpr hheld) hpending
  · exact hend

end Run

/-- However reservations and atoms follow each other, every accepted route leads its atom from its start to
its end with at most one word lane and enters no location that was claimed at the beginning. No two accepted
routes have a location in common, their ends included, and no route passes through a location that was held
when it was found. The router keeps exactly these routes. -/
theorem routes_disjoint {claimed : List Location} (g : LaneGraph) (h : Heuristic)
    (hrun : Run ⟨g, h, claimed, [], [], []⟩ events r) (ha : Admits claimed events) :
    (∀ e ∈ acceptances events, Carries g e.1 e.2 ∧ ∀ l ∈ e.2.visited, l ∉ claimed) ∧
      (acceptances events).Pairwise (fun x y => x.2.toPath.locations.Disjoint y.2.toPath.locations) ∧
      (∀ earlier m route later, events = earlier ++ .accepted m route :: later →
        ∀ l ∈ route.visited, Held earlier l → l = m.dst) ∧
      r.routes.Perm ((acceptances events).map fun e => (e.1.qubit, e.2)) := by
  have hapart := hrun.apart ha
  refine ⟨fun e he => ⟨hrun.carries ha e he, hapart.fresh e he⟩, hapart.disjoint, ?_,
    hrun.routes_perm rfl ha.qubits⟩
  rintro earlier m route later rfl l hl hheld
  have hmem : (m, route) ∈ acceptances (earlier ++ .accepted m route :: later) :=
    mem_acceptances.mpr (List.mem_append_right _ List.mem_cons_self)
  exact hrun.eq_dst_of_held rfl (ha.moving _ hmem) hl hheld

def overThreePairs : LaneGraph := .ofDevice ⟨(Blueprint.grid 1 3).normalize, .bits32⟩

def threePairsRouter : Router := ⟨overThreePairs, .zero, [⟨0, 0⟩, ⟨0, 1⟩], [], [], []⟩

/-- The shortest way of the first atom that comes first leads over the end of the second one, which is held;
so the atom goes another way. -/
theorem routes_disjoint_detour :
    ∃ route route' r, Run threePairsRouter [.reserved [⟨0, 2⟩, ⟨0, 3⟩], .accepted ⟨4, ⟨0, 0⟩, ⟨0, 2⟩⟩ route,
        .accepted ⟨9, ⟨0, 1⟩, ⟨0, 3⟩⟩ route'] r ∧
      route.visited = [⟨0, 4⟩, ⟨0, 2⟩] ∧ Held [.reserved [⟨0, 2⟩, ⟨0, 3⟩]] ⟨0, 3⟩ ∧
      (∀ l ∈ route.visited, l ∉ threePairsRouter.claimed) ∧
      route.toPath.locations.Disjoint route'.toPath.locations ∧
      (∀ l ∈ route.visited, l = ⟨0, 3⟩ → l = ⟨0, 2⟩) ∧ r.routes.Perm [(4, route), (9, route')] := by
  have hfound : ((threePairsRouter.reserve [⟨0, 2⟩, ⟨0, 3⟩]).route? ⟨0, 0⟩ ⟨0, 2⟩).any fun route =>
      route.visited = [⟨0, 4⟩, ⟨0, 2⟩] && (((threePairsRouter.reserve [⟨0, 2⟩, ⟨0, 3⟩]).commit 4 route).route?
        ⟨0, 1⟩ ⟨0, 3⟩).isSome := by
    decide +kernel
  simp only [Option.any_eq_true, Bool.and_eq_true, decide_eq_true_eq, Option.isSome_iff_exists] at hfound
  obtain ⟨route, hroute, hvisited, route', hroute'⟩ := hfound
  have hrun : Run threePairsRouter _ _ :=
    ((Run.start.reserve [⟨0, 2⟩, ⟨0, 3⟩]).accept (m := ⟨4, ⟨0, 0⟩, ⟨0, 2⟩⟩) hroute).accept
      (m := ⟨9, ⟨0, 1⟩, ⟨0, 3⟩⟩) hroute'
  obtain ⟨hroutes, hdisjoint, hheld, hperm⟩ := routes_disjoint overThreePairs .zero hrun
    ⟨by simp [acceptances], by simp [acceptances], by simp [acceptances], by simp [acceptances]⟩
  have hreserved : Held [.reserved [⟨0, 2⟩, ⟨0, 3⟩]] ⟨0, 3⟩ :=
    ⟨[], _, [], rfl, by simp, by simp [acceptances]⟩
  refine ⟨route, route', _, hrun, hvisited, hreserved, (hroutes _ List.mem_cons_self).2, ?_, ?_, hperm⟩
  · exact List.rel_of_pairwise_cons hdisjoint List.mem_cons_self
  · rintro l hl rfl
    exact hheld [.reserved [⟨0, 2⟩, ⟨0, 3⟩]] _ route _ rfl _ hl hreserved

end Router

end AtomTransport
