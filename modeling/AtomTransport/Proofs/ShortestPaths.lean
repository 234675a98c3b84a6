import AtomTransport.Proofs.EdgeCount
import AtomTransport.Proofs.SearchLevels
import Mathlib.Data.List.FinRange

/-!
# All shortest paths, and only those

Edges that look alike are told apart by their positions in the graph. A tour is a list of positions; the
paths that the search returns are the tours of the shortest free walks, each of them once.
-/

namespace AtomTransport

namespace LaneGraph

abbrev EdgeIndex (g : LaneGraph) := Fin g.edges.length

variable (g : LaneGraph)

def trace (tour : List g.EdgeIndex) : List Segment := tour.map g.edges.get

def exits (l : Location) : List g.EdgeIndex :=
  (List.finRange g.edges.length).filter fun i => (g.edges.get i).src = l

def toursTo (start : Location) : List (List Arrival) → Location → List (List g.EdgeIndex)
  | [], _ => [[]]
  | _ :: levels, l =>
    (((frontier start levels).flatMap g.exits).filter fun i => (g.edges.get i).dst = l).flatMap
      fun i => (toursTo start levels (g.edges.get i).src).map (· ++ [i])

variable {g} {blocked : Location → Bool} {start : Location} {levels : List (List Arrival)}
  {l : Location}

theorem trace_snoc (tour : List g.EdgeIndex) (i : g.EdgeIndex) :
    g.trace (tour ++ [i]) = g.trace tour ++ [g.edges.get i] := by
  simp [trace]

theorem mem_exits {i : g.EdgeIndex} : i ∈ g.exits l ↔ (g.edges.get i).src = l := by
  simp [exits]

theorem map_exits (l : Location) : (g.exits l).map g.edges.get = g.leaving l := by
  have hfilter := List.filter_map (f := g.edges.get) (p := fun e => decide (e.src = l))
    (l := List.finRange g.edges.length)
  rw [List.map_get_finRange] at hfilter
  exact hfilter.symm

theorem mem_entering {i : g.EdgeIndex} :
    i ∈ ((frontier start levels).flatMap g.exits).filter (fun i => (g.edges.get i).dst = l) ↔
      (g.edges.get i).src ∈ frontier start levels ∧ (g.edges.get i).dst = l := by
  simp only [List.mem_filter, List.mem_flatMap, mem_exits, exists_eq_right', decide_eq_true_eq]

theorem map_entering (start : Location) (levels : List (List Arrival)) (l : Location) :
    (((frontier start levels).flatMap g.exits).filter fun i => (g.edges.get i).dst = l).map
      g.edges.get = ((frontier start levels).flatMap g.leaving).filter (·.dst = l) := by
  have hleaving : ((frontier start levels).flatMap g.exits).map g.edges.get =
      (frontier start levels).flatMap g.leaving := by
    rw [List.map_flatMap]
    exact List.flatMap_congr fun m _ => map_exits m
  rw [← hleaving, List.filter_map]
  rfl

theorem mem_toursTo_cons {level : List Arrival} {tour : List g.EdgeIndex} {i : g.EdgeIndex} :
    tour ++ [i] ∈ g.toursTo start (level :: levels) l ↔
      (g.edges.get i).src ∈ frontier start levels ∧ (g.edges.get i).dst = l ∧
        tour ∈ g.toursTo start levels (g.edges.get i).src := by
  simp only [toursTo, List.mem_flatMap, mem_entering, List.mem_map]
  constructor
  · rintro ⟨j, ⟨hsrc, hdst⟩, tour', htour, heq⟩
    obtain ⟨rfl, hij⟩ := List.append_inj' heq rfl
    cases hij
    exact ⟨hsrc, hdst, htour⟩
  · rintro ⟨hsrc, hdst, htour⟩
    exact ⟨i, ⟨hsrc, hdst⟩, tour, htour, rfl⟩

namespace Exact

/-- The ways through exact levels are the traces of the tours. -/
theorem waysTo_eq (h : g.Exact blocked start levels) (hl : l ∈ frontier start levels) :
    waysTo levels l = (g.toursTo start levels l).map g.trace := by
  induction levels generalizing l with
  | nil => rfl
  | cons level levels ih =>
    cases hfind : level.find? (·.location = l) with
    | none =>
      obtain ⟨a, ha, hal⟩ := List.mem_map.mp hl
      have hne := List.find?_eq_none.mp hfind a ha
      simp [hal] at hne
    | some a =>
      have hal : a.location = l := by simpa using List.find?_some hfind
      have hincoming := h.2.incoming_eq a (List.mem_of_find?_eq_some hfind)
      rw [hal, ← map_entering] at hincoming
      simp only [waysTo, hfind, hincoming, toursTo, List.flatMap_map, List.map_flatMap, List.map_map]
      refine List.flatMap_congr ?_
      intro i hi
      rw [ih h.1 (mem_entering.mp hi).1, List.map_map]
      refine List.map_congr_left ?_
      intro tour _
      exact (trace_snoc tour i).symm

/-- The tours to a location of the last level are its free walks of that length. -/
theorem mem_toursTo_iff (hstart : g.device.hasLocation start = true) (hfree : blocked start = false)
    (h : g.Exact blocked start levels) (hl : l ∈ frontier start levels) {tour : List g.EdgeIndex} :
    tour ∈ g.toursTo start levels l ↔
      g.FreeWalk blocked start (g.trace tour) l ∧ tour.length = levels.length := by
  induction levels generalizing l tour with
  | nil =>
    obtain rfl : l = start := List.mem_singleton.mp hl
    rw [toursTo, List.mem_singleton, List.length_nil, List.length_eq_zero_iff]
    constructor
    · rintro rfl
      exact ⟨.nil hstart hfree, rfl⟩
    · exact fun htour => htour.2
  | cons level levels ih =>
    obtain ⟨hend, -, -⟩ := (h.2.mem_iff l).mp hl
    obtain ⟨_, hmin⟩ := ((h.distances hstart hfree).1 l).mp hl
    rcases List.eq_nil_or_concat' tour with rfl | ⟨init, i, rfl⟩
    · constructor
      · intro hnil
        simp [toursTo] at hnil
      · rintro ⟨-, hlength⟩
        cases hlength
    · rw [mem_toursTo_cons, trace_snoc, List.length_append, List.length_singleton, List.length_cons,
        Nat.add_right_cancel_iff]
      have hedge : g.edges.get i ∈ g.edges := List.get_mem g.edges i
      constructor
      · rintro ⟨hsrc, rfl, htour⟩
        obtain ⟨hwalk, hlength⟩ := (ih h.1 hsrc).mp htour
        exact ⟨hwalk.snoc hedge hend, hlength⟩
      · rintro ⟨hwalk, hlength⟩
        obtain ⟨hinit, -, rfl, -⟩ := hwalk.unsnoc
        -- A shorter way to the start of the last edge would be a shorter way to its end.
        have hsrc : (g.edges.get i).src ∈ frontier start levels := by
          refine ((h.1.distances hstart hfree).1 _).mpr ⟨⟨_, hinit, by simpa [trace]⟩, ?_⟩
          intro v hv
          have hlong := hmin _ (hv.snoc hedge hend)
          rw [List.length_append, List.length_singleton, List.length_cons] at hlong
          omega
        exact ⟨hsrc, rfl, (ih h.1 hsrc).mpr ⟨hinit, hlength⟩⟩

theorem nodup_entering (h : g.Exact blocked start levels) :
    (((frontier start levels).flatMap g.exits).filter fun i => (g.edges.get i).dst = l).Nodup := by
  refine (List.nodup_flatMap.mpr ⟨?_, ?_⟩).filter _
  · intro m _
    exact (List.nodup_finRange _).filter _
  · refine h.nodup_frontier.pairwise_of_forall_ne ?_
    intro m _ n _ hne i hm hn
    exact hne ((mem_exits.mp hm).symm.trans (mem_exits.mp hn))

theorem nodup_toursTo (h : g.Exact blocked start levels) : (g.toursTo start levels l).Nodup := by
  induction levels generalizing l with
  | nil => simp [toursTo]
  | cons level levels ih =>
    refine List.nodup_flatMap.mpr ⟨?_, ?_⟩
    · intro i _
      exact (ih h.1).map fun _ _ => List.append_cancel_right
    · refine h.1.nodup_entering.pairwise_of_forall_ne ?_
      intro i _ j _ hne tour hi hj
      obtain ⟨_, _, rfl⟩ := List.mem_map.mp hi
      obtain ⟨_, _, heq⟩ := List.mem_map.mp hj
      obtain ⟨_, hlast⟩ := List.append_inj' heq rfl
      exact hne (List.singleton_inj.mp hlast).symm

end Exact

theorem FreeWalk.ends {w : List Segment} (h : g.FreeWalk blocked start w l) :
    (blocked start || blocked l || !g.device.hasLocation start || !g.device.hasLocation l) = false := by
  obtain ⟨hexists, hfree⟩ := h.finish
  simp [h.exists_start, h.free_start, hexists, hfree]

/-- The paths that are returned follow different tours, and these are the tours of the shortest free
walks. -/
theorem exists_tours (g : LaneGraph) (start finish : Location) (blocked : Location → Bool) :
    ∃ tours : List (List g.EdgeIndex), tours.Nodup ∧
      g.shortestPaths start finish blocked = tours.map (fun tour => ⟨start, g.trace tour⟩) ∧
      ∀ tour, tour ∈ tours ↔ g.Shortest blocked start (g.trace tour) finish := by
  by_cases hends : (blocked start || blocked finish || !g.device.hasLocation start ||
      !g.device.hasLocation finish) = true
  · refine ⟨[], List.nodup_nil, if_pos hends, ?_⟩
    intro tour
    refine iff_of_false List.not_mem_nil ?_
    intro hshortest
    cases hends.symm.trans hshortest.1.ends
  · rw [shortestPaths_eq (by simpa using hends)]
    simp only [Bool.or_eq_true, Bool.not_eq_true', not_or, Bool.not_eq_true, Bool.not_eq_false] at hends
    obtain ⟨⟨⟨hfree, _⟩, hstart⟩, _⟩ := hends
    rcases searchLevels_from_start hstart hfree finish with
      ⟨levels, hsearch, hexact, hfinish⟩ | ⟨hsearch, hnone⟩
    · obtain ⟨⟨w, hw, hlength⟩, hmin⟩ := ((hexact.distances hstart hfree).1 finish).mp hfinish
      refine ⟨g.toursTo start levels finish, hexact.nodup_toursTo, ?_, ?_⟩
      · simp only [hsearch, hexact.waysTo_eq hfinish, List.map_map, Function.comp_def]
      · intro tour
        rw [hexact.mem_toursTo_iff hstart hfree hfinish]
        refine and_congr_right fun hwalk => ?_
        have hle := hmin _ hwalk
        rw [trace, List.length_map] at hle ⊢
        constructor
        · rintro heq v hv
          exact heq ▸ hmin v hv
        · intro hshort
          exact Nat.le_antisymm (hlength ▸ hshort w hw) hle
    · refine ⟨[], List.nodup_nil, ?_, ?_⟩
      · rw [hsearch]
        rfl
      · intro tour
        exact iff_of_false List.not_mem_nil fun hshortest => hnone _ hshortest.1

theorem exists_trace {w : List Segment} (h : ∀ s ∈ w, s ∈ g.edges) : ∃ tour, g.trace tour = w := by
  induction w with
  | nil => exact ⟨[], rfl⟩
  | cons s w ih =>
    rw [List.forall_mem_cons] at h
    obtain ⟨i, rfl⟩ := List.mem_iff_get.mp h.1
    obtain ⟨tour, rfl⟩ := ih h.2
    exact ⟨i :: tour, rfl⟩

theorem mem_shortestPaths_iff {finish : Location} {p : Path} :
    p ∈ g.shortestPaths start finish blocked ↔
      p.start = start ∧ g.Shortest blocked start p.segments finish := by
  obtain ⟨tours, _, hpaths, hmem⟩ := g.exists_tours start finish blocked
  rw [hpaths, List.mem_map]
  constructor
  · rintro ⟨tour, htour, rfl⟩
    exact ⟨rfl, (hmem tour).mp htour⟩
  · rintro ⟨rfl, hshortest⟩
    obtain ⟨tour, htour⟩ := exists_trace fun s hs => hshortest.1.walk.mem hs
    refine ⟨tour, (hmem tour).mpr (htour ▸ hshortest), ?_⟩
    rw [htour]

/-- The search returns all shortest paths and nothing else. The graph has one edge in either direction for
every listing of a bus pair whose ends exist; between ends that are blocked or do not exist there is no
path, and from a location to itself there is the one that stays; otherwise the paths follow exactly the
free walks with the fewest edges, each list of edges once, and no path meets a location twice. -/
theorem shortestPaths_exhaustive (g : LaneGraph) (start finish : Location)
    (blocked : Location → Bool) :
    (∀ e, g.edges.count e = g.device.multiplicity e) ∧
    (blocked start = true ∨ blocked finish = true ∨ g.device.hasLocation start = false ∨
      g.device.hasLocation finish = false → g.shortestPaths start finish blocked = []) ∧
    (blocked start = false → g.device.hasLocation start = true → start = finish →
      g.shortestPaths start finish blocked = [Path.stay start]) ∧
    (∃ tours : List (List g.EdgeIndex), tours.Nodup ∧
      g.shortestPaths start finish blocked = tours.map (fun tour => ⟨start, g.trace tour⟩) ∧
      ∀ tour, tour ∈ tours ↔ g.Shortest blocked start (g.trace tour) finish) ∧
    ∀ p ∈ g.shortestPaths start finish blocked, p.Travels g.edges blocked start finish := by
  refine ⟨?_, ?_, ?_, g.exists_tours start finish blocked, fun p => travels_of_mem_shortestPaths⟩
  · intro e
    rw [g.edges_eq]
    exact g.device.count_edges e
  · intro hends
    rw [shortestPaths, if_pos]
    simpa [or_assoc] using hends
  · rintro hfree hstart rfl
    rw [shortestPaths_eq (by simp [hfree, hstart])]
    simp [searchLevels, waysTo, Path.stay]

/-- Five sites in a word, with a pair that is listed twice, a pair of a site with itself, and buses that are
travelled in either direction. -/
def braided : Blueprint :=
  { words := [{ sites := (List.range 5).map fun i => (.ofNat i, .ofNat 0) }]
    zones := [[0]]
    siteBusWords := [0]
    wordBusSites := []
    siteBuses := [⟨[0, 0, 1, 3], [1, 1, 3, 3]⟩, ⟨[2, 4], [0, 3]⟩, ⟨[2, 0], [3, 4]⟩]
    wordBuses := [] }

def overBraided : LaneGraph := ofDevice ⟨braided.normalize, .bits32⟩

/-- Around a blocked site there are three shortest tours, two of which look alike. -/
theorem shortestPaths_exhaustive_braided : Device.ofBlueprint braided = .ok overBraided.device ∧
    overBraided.shortestPaths ⟨0, 0⟩ ⟨0, 4⟩ (· = ⟨0, 4⟩) = [] ∧
    overBraided.shortestPaths ⟨0, 0⟩ ⟨0, 0⟩ (· = ⟨0, 4⟩) = [Path.stay ⟨0, 0⟩] ∧
    ∃ tours : List (List overBraided.EdgeIndex), tours.Nodup ∧ tours.length = 3 ∧
      ∀ tour, tour ∈ tours ↔
        overBraided.Shortest (· = ⟨0, 4⟩) ⟨0, 0⟩ (overBraided.trace tour) ⟨0, 3⟩ := by
  refine ⟨by decide +kernel, ?_, ?_, ?_⟩
  · exact (shortestPaths_exhaustive _ _ _ _).2.1 (Or.inr (Or.inl rfl))
  · exact (shortestPaths_exhaustive _ _ _ _).2.2.1 rfl (by decide +kernel) rfl
  · obtain ⟨tours, hnodup, hpaths, hmem⟩ :=
      (shortestPaths_exhaustive overBraided ⟨0, 0⟩ ⟨0, 3⟩ (· = ⟨0, 4⟩)).2.2.2.1
    have hlength : (overBraided.shortestPaths ⟨0, 0⟩ ⟨0, 3⟩ (· = ⟨0, 4⟩)).length = 3 := by
      decide +kernel
    rw [hpaths, List.length_map] at hlength
    exact ⟨tours, hnodup, hlength, hmem⟩

end LaneGraph

end AtomTransport
