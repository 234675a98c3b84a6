import AtomTransport.Route
import AtomTransport.Proofs.Walk

/-!
# Routes that the router finds

A route is its path split at the word lane, so that the path gives the route back. A route found for an
end that nobody claims enters no claimed location at all.
-/

namespace AtomTransport

namespace Route

/-- Nothing settles an atom that does not cross. -/
def Shaped (r : Route) : Prop := r.cross = none → r.settle = []

theorem extend_eq_some {r r' : Route} {s : Segment} (h : r.extend s = some r') (hr : r.Shaped) :
    r'.Shaped ∧ r'.start = r.start ∧ r'.segments = r.segments ++ [s] := by
  unfold extend at h
  split at h
  · cases h
  next hcross =>
    cases h
    exact ⟨by simp [Shaped], rfl, by simp [segments, hcross, hr hcross]⟩
  next hcross =>
    cases h
    exact ⟨fun hnone => by simp [hcross] at hnone, rfl, by simp [segments]⟩
  next hcross =>
    cases h
    exact ⟨hr, rfl, by simp [segments, hcross, hr hcross]⟩

theorem foldlM_extend {segs : List Segment} {r r' : Route} (h : segs.foldlM extend r = some r')
    (hr : r.Shaped) : r'.Shaped ∧ r'.start = r.start ∧ r'.segments = r.segments ++ segs := by
  induction segs generalizing r with
  | nil =>
    cases h
    exact ⟨hr, rfl, by simp⟩
  | cons s segs ih =>
    rw [List.foldlM_cons] at h
    obtain ⟨r₁, hs, hsegs⟩ := Option.bind_eq_some_iff.mp h
    obtain ⟨hshape, hstart, hseg⟩ := extend_eq_some hs hr
    obtain ⟨hshape', hstart', hseg'⟩ := ih hsegs hshape
    exact ⟨hshape', hstart'.trans hstart, by rw [hseg', hseg, List.append_assoc, List.singleton_append]⟩

theorem toPath_of_ofPath? {p : Path} {r : Route} (h : ofPath? p = some r) :
    r.Shaped ∧ r.toPath = p := by
  obtain ⟨hshape, hstart, hseg⟩ := foldlM_extend h fun _ => rfl
  exact ⟨hshape, by rw [toPath, hstart, hseg]; rfl⟩

theorem crossings_extend {r r' : Route} {s : Segment} (h : r.extend s = some r') (hr : r.Shaped)
    (hcross : r.segments.filter (·.lane.kind = .word) = r.cross.toList) :
    r'.segments.filter (·.lane.kind = .word) = r'.cross.toList := by
  rw [(extend_eq_some h hr).2.2, List.filter_append, hcross]
  unfold extend at h
  split at h
  · cases h
  next hkind hnone =>
    cases h
    simp [hkind, hnone]
  next hkind _ =>
    cases h
    simp [hkind]
  next hkind _ =>
    cases h
    simp [hkind]

theorem crossings_foldlM {segs : List Segment} {r r' : Route} (h : segs.foldlM extend r = some r')
    (hr : r.Shaped) (hcross : r.segments.filter (·.lane.kind = .word) = r.cross.toList) :
    r'.segments.filter (·.lane.kind = .word) = r'.cross.toList := by
  induction segs generalizing r with
  | nil =>
    cases h
    exact hcross
  | cons s segs ih =>
    rw [List.foldlM_cons] at h
    obtain ⟨r₁, hs, hsegs⟩ := Option.bind_eq_some_iff.mp h
    exact ih hsegs (extend_eq_some hs hr).1 (crossings_extend hs hr hcross)

theorem crossings_of_ofPath? {p : Path} {r : Route} (h : ofPath? p = some r) :
    p.segments.filter (·.lane.kind = .word) = r.cross.toList := by
  have hsegments : p.segments = r.segments := by rw [← (toPath_of_ofPath? h).2, toPath]
  rw [hsegments]
  exact crossings_foldlM h (fun _ => rfl) rfl

theorem exists_foldlM_extend {segs : List Segment} {r : Route}
    (h : r.cross.toList.length + (segs.filter (·.lane.kind = .word)).length ≤ 1) :
    ∃ r', segs.foldlM extend r = some r' := by
  induction segs generalizing r with
  | nil => exact ⟨r, rfl⟩
  | cons s segs ih =>
    rw [List.foldlM_cons]
    cases hkind : s.lane.kind with
    | site =>
      rw [List.filter_cons_of_neg (by simp [hkind])] at h
      cases hcross : r.cross with
      | none =>
        rw [hcross] at h
        simp only [extend, hkind, hcross]
        exact ih h
      | some c =>
        rw [hcross] at h
        simp only [extend, hkind, hcross]
        exact ih h
    | word =>
      rw [List.filter_cons_of_pos (by simp [hkind]), List.length_cons] at h
      cases hcross : r.cross with
      | none =>
        have hrest : (some s).toList.length + (segs.filter (·.lane.kind = .word)).length ≤ 1 := by
          rw [hcross, Option.toList_none, List.length_nil] at h
          rw [Option.toList_some, List.length_singleton]
          omega
        simp only [extend, hkind, hcross]
        exact ih hrest
      | some c =>
        rw [hcross, Option.toList_some, List.length_singleton] at h
        omega

theorem exists_ofPath?_iff {p : Path} :
    (∃ r, ofPath? p = some r) ↔ (p.segments.filter (·.lane.kind = .word)).length ≤ 1 := by
  constructor
  · rintro ⟨r, hr⟩
    rw [crossings_of_ofPath? hr]
    exact Option.length_toList_le
  · intro h
    exact exists_foldlM_extend (by simpa [stay] using h)

theorem kinds_of_ofPath? {p : Path} {r : Route} (h : ofPath? p = some r) :
    (∀ s ∈ r.align, s.lane.kind = .site) ∧ (∀ s ∈ r.cross.toList, s.lane.kind = .word) ∧
      ∀ s ∈ r.settle, s.lane.kind = .site := by
  have hfilter : r.segments.filter (·.lane.kind = .word) = r.cross.toList := by
    have hcross := crossings_of_ofPath? h
    rw [← (toPath_of_ofPath? h).2] at hcross
    exact hcross
  have hword : ∀ s ∈ r.cross.toList, s.lane.kind = .word := by
    intro s hs
    rw [← hfilter] at hs
    simpa using (List.mem_filter.mp hs).2
  have hself : r.cross.toList.filter (·.lane.kind = .word) = r.cross.toList :=
    List.filter_eq_self.mpr fun s hs => by simpa using hword s hs
  have hlength := congrArg List.length hfilter
  rw [segments, List.filter_append, List.filter_append, hself, List.length_append,
    List.length_append] at hlength
  have hsite : ∀ segs : List Segment, (segs.filter (·.lane.kind = .word)).length = 0 →
      ∀ s ∈ segs, s.lane.kind = .site := by
    intro segs hnone s hs
    have hkind := List.filter_eq_nil_iff.mp (List.eq_nil_of_length_eq_zero hnone) s hs
    cases hs' : s.lane.kind with
    | site => rfl
    | word => simp [hs'] at hkind
  exact ⟨hsite _ (by omega), hword, hsite _ (by omega)⟩

/-- Between existing locations the route that is planned is the best path, if it can be split. -/
theorem plan_eq_ok {g : LaneGraph} {h : Heuristic} {src dst : Location} {blocked : Location → Bool}
    {p : Path} {r : Route} (hsrc : g.device.checkLocation src = .ok ())
    (hdst : g.device.checkLocation dst = .ok ()) (hp : g.findPath? h [] src dst blocked = some p)
    (hr : ofPath? p = some r) : plan g h src dst blocked = .ok r := by
  simp only [plan, hsrc, hdst, hp, Option.bind_some, hr]
  rfl

section Phases

variable (r : Route)

def within : List Segment := if r.cross.isNone then r.align else []

def approach : List Segment := if r.cross.isSome then r.align else []

def departure : List Segment := if r.cross.isSome then r.settle else []

variable {r}

/-- A route that stays in its word is travelled in the first phase only, any other in the last three. -/
theorem segments_eq (h : r.Shaped) :
    r.within ++ r.approach ++ r.cross.toList ++ r.departure = r.segments := by
  cases hcross : r.cross with
  | none => simp [within, approach, departure, segments, hcross, h hcross]
  | some s => simp [within, approach, departure, segments, hcross]

theorem mem_align_of_within {s : Segment} (hs : s ∈ r.within ++ r.approach) : s ∈ r.align := by
  cases hcross : r.cross <;> simpa [within, approach, hcross] using hs

theorem mem_settle_of_departure {s : Segment} (hs : s ∈ r.departure) : s ∈ r.settle := by
  unfold departure at hs
  split_ifs at hs
  · exact hs
  · cases hs

end Phases

end Route

namespace Router

variable {r : Router} {src dst : Location} {route : Route}

/-- A route between different locations is travelled on a free path, and its path gives it back. -/
theorem travels_of_route? (hne : src ≠ dst) (h : r.route? src dst = some route) :
    route.toPath.Travels r.graph.edges (r.blocks src dst) src dst ∧ route.Shaped ∧
      Route.ofPath? route.toPath = some route := by
  rw [route?, if_neg hne] at h
  obtain ⟨p, hp, hroute⟩ := Option.bind_eq_some_iff.mp h
  obtain ⟨hshape, hpath⟩ := Route.toPath_of_ofPath? hroute
  rw [hpath]
  exact ⟨LaneGraph.travels_of_findPath? hp, hshape, hroute⟩

def Splits (r : Router) : Prop := ∀ e ∈ r.routes, Route.ofPath? e.2.toPath = some e.2

theorem Splits.commit (h : r.Splits) (q : Qubit) (hroute : Route.ofPath? route.toPath = some route) :
    (r.commit q route).Splits := by
  intro e he
  rcases Ascending.mem_of_mem_put he with rfl | he
  · exact hroute
  · exact h e he

theorem ofPath?_of_route? (h : r.route? src dst = some route) :
    Route.ofPath? route.toPath = some route := by
  by_cases heq : src = dst
  · rw [route?, if_pos heq] at h
    cases h
    rfl
  · exact (travels_of_route? heq h).2.2

theorem ne_start_of_mem_visited (h : route.toPath.Travels r.graph.edges (r.blocks src dst) src dst)
    {l : Location} (hl : l ∈ route.visited) : l ≠ src := by
  rintro rfl
  have hnodup : (route.start :: route.visited).Nodup := h.simple
  have hstart : route.start = l := h.start_eq
  exact (List.nodup_cons.mp hnodup).1 (hstart ▸ hl)

/-- A location that a route visits is its end or was neither claimed nor pending. -/
theorem visited_unblocked (h : route.toPath.Travels r.graph.edges (r.blocks src dst) src dst)
    {l : Location} (hl : l ∈ route.visited) :
    l ∉ r.claimed ∧ l ∉ r.pending ∨ l = dst ∧ r.isClaimed dst = false := by
  have hne := ne_start_of_mem_visited h hl
  obtain ⟨s, hs, rfl⟩ := List.mem_map.mp hl
  have hfree := h.free s hs
  simp only [blocks, Bool.and_eq_false_iff, Bool.or_eq_false_iff, List.contains_eq_mem,
    decide_eq_false_iff_not, not_not] at hfree
  rcases hfree with (hfree | heq) | hend
  · exact Or.inl hfree
  · exact absurd heq hne
  · exact Or.inr (by simpa [isClaimed] using hend)

/-- A claimed location stays blocked for the route that should end there. -/
theorem unclaimed_of_travels {src dst : Location} {p : Path} (hne : src ≠ dst)
    (h : p.Travels r.graph.edges (r.blocks src dst) src dst) : r.isClaimed dst = false := by
  have hmoving : p.segments ≠ [] := by
    intro hnil
    have hwalk := h.walk
    rw [hnil] at hwalk
    exact hne hwalk
  obtain ⟨s, hs, rfl⟩ := h.walk.end_mem hmoving
  have hfree := h.free s hs
  by_contra hclaimed
  have hin : s.dst ∈ r.claimed := by simpa [isClaimed] using hclaimed
  simp [blocks, hin, hne.symm] at hfree

/-- A route to an unclaimed end visits unclaimed locations only. -/
theorem visited_unclaimed (hdst : r.isClaimed dst = false)
    (h : route.toPath.Travels r.graph.edges (r.blocks src dst) src dst) {l : Location}
    (hl : l ∈ route.visited) : l ∉ r.claimed := by
  rcases visited_unblocked h hl with hfree | ⟨rfl, _⟩
  · exact hfree.1
  · simpa [isClaimed] using hdst

theorem commit_perm {q : Qubit} (hq : q ∉ r.routes.map (·.1)) (route : Route) :
    (r.commit q route).routes.Perm ((q, route) :: r.routes) :=
  Ascending.put_perm (Ascending.get?_eq_none_iff.mpr hq) route

end Router

end AtomTransport
