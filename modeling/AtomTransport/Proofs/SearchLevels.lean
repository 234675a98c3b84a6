import AtomTransport.Proofs.Walk
import Mathlib.Data.List.Induction
import Mathlib.Data.List.Perm.Subperm

/-!
# The levels of a search

A free walk starts on a free existing location and enters free locations only. The search by levels
finds them all: its `n`-th level holds exactly the locations whose shortest free walk has `n` edges,
each once and with every edge that enters it from the level before. So the search ends without a result
only if no free walk leads to the target, and otherwise its last level lies at the distance of the target.
-/

namespace AtomTransport

theorem nodup_eraseDups {α : Type} [DecidableEq α] (xs : List α) : xs.eraseDups.Nodup := by
  cases xs with
  | nil => exact List.nodup_nil
  | cons x xs =>
    rw [List.eraseDups_cons, List.nodup_cons]
    exact ⟨by simp, nodup_eraseDups _⟩
termination_by xs.length
decreasing_by
  have hfilter := List.length_filter_le (fun y => !y == x) xs
  rw [List.length_cons]
  omega

theorem Device.mem_locations {d : Device} {l : Location} :
    l ∈ d.locations ↔ d.hasLocation l = true := by
  simp only [locations, List.mem_flatMap, List.mem_range, mem_wordLocations]
  constructor
  · rintro ⟨_, _, _, hl⟩
    exact hl
  · intro hl
    refine ⟨l.word, ?_, rfl, hl⟩
    by_contra hout
    have hnone : d.word? l.word = none := List.getElem?_eq_none (Nat.le_of_not_lt hout)
    simp [hasLocation, hnone] at hl

namespace LaneGraph

structure FreeWalk (g : LaneGraph) (blocked : Location → Bool) (a : Location) (w : List Segment)
    (b : Location) : Prop where
  exists_start : g.device.hasLocation a = true
  free_start : blocked a = false
  walk : Walk g.edges a w b
  free : ∀ s ∈ w, blocked s.dst = false

def Shortest (g : LaneGraph) (blocked : Location → Bool) (a : Location) (w : List Segment)
    (b : Location) : Prop :=
  g.FreeWalk blocked a w b ∧ ∀ v, g.FreeWalk blocked a v b → w.length ≤ v.length

def AtDistance (g : LaneGraph) (blocked : Location → Bool) (a : Location) (n : Nat) (b : Location) :
    Prop :=
  (∃ w, g.FreeWalk blocked a w b ∧ w.length = n) ∧ ∀ w, g.FreeWalk blocked a w b → n ≤ w.length

def Within (g : LaneGraph) (blocked : Location → Bool) (a : Location) (n : Nat) (b : Location) : Prop :=
  ∃ w, g.FreeWalk blocked a w b ∧ w.length ≤ n

variable {g : LaneGraph} {blocked : Location → Bool} {start : Location}

namespace FreeWalk

variable {w : List Segment} {l : Location}

theorem nil (hstart : g.device.hasLocation start = true) (hfree : blocked start = false) :
    g.FreeWalk blocked start [] start :=
  ⟨hstart, hfree, rfl, by simp⟩

theorem snoc {e : Segment} (h : g.FreeWalk blocked start w e.src) (he : e ∈ g.edges)
    (hfree : blocked e.dst = false) : g.FreeWalk blocked start (w ++ [e]) e.dst where
  exists_start := h.exists_start
  free_start := h.free_start
  walk := h.walk.append ⟨he, rfl, rfl⟩
  free s hs := by
    rcases List.mem_append.mp hs with hs | hs
    · exact h.free s hs
    · rw [List.mem_singleton.mp hs]
      exact hfree

/-- The last edge of a free walk leaves the end of a shorter one. -/
theorem unsnoc {e : Segment} (h : g.FreeWalk blocked start (w ++ [e]) l) :
    g.FreeWalk blocked start w e.src ∧ e ∈ g.edges ∧ e.dst = l ∧ blocked l = false := by
  obtain ⟨b, hw, he⟩ := h.walk.split
  obtain ⟨hedge, hsrc, hdst⟩ := he
  have hdst : e.dst = l := hdst
  refine ⟨⟨h.exists_start, h.free_start, hsrc ▸ hw, ?_⟩, hedge, hdst, ?_⟩
  · intro s hs
    exact h.free s (List.mem_append_left _ hs)
  · exact hdst ▸ h.free e (by simp)

theorem finish (h : g.FreeWalk blocked start w l) :
    g.device.hasLocation l = true ∧ blocked l = false := by
  rcases List.eq_nil_or_concat' w with rfl | ⟨v, e, rfl⟩
  · obtain rfl : start = l := h.walk
    exact ⟨h.exists_start, h.free_start⟩
  · obtain ⟨_, hedge, rfl, hfree⟩ := h.unsnoc
    exact ⟨(Device.hasLocation_of_mem_edges (g.edges_eq ▸ hedge)).2, hfree⟩

end FreeWalk

/-- The next level holds the new free locations one edge away, each once and with all the edges that
enter it. -/
structure Expands (g : LaneGraph) (blocked : Location → Bool) (start : Location)
    (levels : List (List Arrival)) (level : List Arrival) : Prop where
  nodup : (level.map (·.location)).Nodup
  mem_iff : ∀ l, l ∈ level.map (·.location) ↔ blocked l = false ∧ l ∉ reached start levels ∧
    ∃ e ∈ g.edges, e.src ∈ frontier start levels ∧ e.dst = l
  incoming_eq : ∀ a ∈ level, a.incoming =
    ((frontier start levels).flatMap g.leaving).filter (·.dst = a.location)

def Exact (g : LaneGraph) (blocked : Location → Bool) (start : Location) :
    List (List Arrival) → Prop
  | [] => True
  | level :: levels => Exact g blocked start levels ∧ g.Expands blocked start levels level

theorem mem_leaving {l : Location} {e : Segment} : e ∈ g.leaving l ↔ e ∈ g.edges ∧ e.src = l := by
  simp [leaving]

theorem nextLevel_expands (g : LaneGraph) (blocked : Location → Bool) (start : Location)
    (levels : List (List Arrival)) : g.Expands blocked start levels
      (g.nextLevel blocked (reached start levels) (frontier start levels)) := by
  have hlocations : (g.nextLevel blocked (reached start levels) (frontier start levels)).map
      (·.location) = ((((frontier start levels).flatMap g.leaving).filter fun e =>
        !blocked e.dst && !(reached start levels).contains e.dst).map (·.dst)).eraseDups := by
    simp [nextLevel, List.map_map, Function.comp_def]
  have hmem : ∀ l, l ∈ (g.nextLevel blocked (reached start levels) (frontier start levels)).map
      (·.location) ↔ blocked l = false ∧ l ∉ reached start levels ∧
        ∃ e ∈ g.edges, e.src ∈ frontier start levels ∧ e.dst = l := by
    intro l
    rw [hlocations, List.mem_eraseDups, List.mem_map]
    simp only [List.mem_filter, List.mem_flatMap, mem_leaving, Bool.and_eq_true,
      Bool.not_eq_true', List.contains_eq_mem, decide_eq_false_iff_not]
    constructor
    · rintro ⟨e, ⟨⟨_, hfront, hedge, rfl⟩, hfree, hnew⟩, rfl⟩
      exact ⟨hfree, hnew, e, hedge, hfront, rfl⟩
    · rintro ⟨hfree, hnew, e, hedge, hfront, rfl⟩
      exact ⟨e, ⟨⟨_, hfront, hedge, rfl⟩, hfree, hnew⟩, rfl⟩
  refine ⟨?_, hmem, ?_⟩
  · rw [hlocations]
    exact nodup_eraseDups _
  · intro a ha
    obtain ⟨hfree, hnew, _⟩ := (hmem a.location).mp (List.mem_map_of_mem ha)
    simp only [nextLevel, List.mem_map] at ha
    obtain ⟨l, _, rfl⟩ := ha
    rw [List.filter_filter]
    refine List.filter_congr ?_
    intro e _
    by_cases he : e.dst = l
    · simp [he, hfree, hnew]
    · simp [he]

variable {levels : List (List Arrival)} {l : Location}

/-- One more level lies one edge further away. -/
theorem Expands.mem_iff_atDistance {level : List Arrival} (h : g.Expands blocked start levels level)
    (hfrontier : ∀ l, l ∈ frontier start levels ↔ g.AtDistance blocked start levels.length l)
    (hreached : ∀ l, l ∈ reached start levels ↔ g.Within blocked start levels.length l) :
    l ∈ level.map (·.location) ↔ g.AtDistance blocked start (levels.length + 1) l := by
  rw [h.mem_iff, hreached]
  constructor
  · rintro ⟨hfree, hnew, e, hedge, hfront, rfl⟩
    obtain ⟨⟨w, hw, hlength⟩, _⟩ := (hfrontier e.src).mp hfront
    refine ⟨⟨w ++ [e], hw.snoc hedge hfree, by simp [hlength]⟩, ?_⟩
    intro v hv
    by_contra hshort
    exact hnew ⟨v, hv, by omega⟩
  · rintro ⟨⟨w, hw, hlength⟩, hmin⟩
    rcases List.eq_nil_or_concat' w with rfl | ⟨v, e, rfl⟩
    · cases hlength
    · obtain ⟨hv, hedge, rfl, hfree⟩ := hw.unsnoc
      rw [List.length_append, List.length_singleton] at hlength
      refine ⟨hfree, ?_, e, hedge, (hfrontier e.src).mpr ⟨⟨v, hv, by omega⟩, ?_⟩, rfl⟩
      · rintro ⟨u, hu, hshort⟩
        have hlong := hmin u hu
        omega
      · intro u hu
        have hlong := hmin _ (hu.snoc hedge hfree)
        rw [List.length_append, List.length_singleton] at hlong
        omega

namespace Exact

/-- The last level holds the locations at its distance, and all levels together those up to it. -/
theorem distances (hstart : g.device.hasLocation start = true) (hfree : blocked start = false)
    (h : g.Exact blocked start levels) :
    (∀ l, l ∈ frontier start levels ↔ g.AtDistance blocked start levels.length l) ∧
      ∀ l, l ∈ reached start levels ↔ g.Within blocked start levels.length l := by
  induction levels with
  | nil =>
    have hnil : ∀ l, l = start ↔ ∃ w, g.FreeWalk blocked start w l ∧ w.length = 0 := by
      intro l
      constructor
      · rintro rfl
        exact ⟨[], .nil hstart hfree, rfl⟩
      · rintro ⟨w, hw, hlength⟩
        rw [List.length_eq_zero_iff.mp hlength] at hw
        exact Eq.symm hw.walk
    exact ⟨by simp [frontier, AtDistance, hnil], by simp [reached, Within, hnil]⟩
  | cons level levels ih =>
    obtain ⟨hfrontier, hreached⟩ := ih h.1
    have hlevel := fun l => h.2.mem_iff_atDistance (l := l) hfrontier hreached
    refine ⟨hlevel, ?_⟩
    intro l
    rw [reached, List.mem_append, hreached, hlevel, List.length_cons]
    constructor
    · rintro (⟨w, hw, hlength⟩ | ⟨⟨w, hw, hlength⟩, _⟩)
      · exact ⟨w, hw, by omega⟩
      · exact ⟨w, hw, by omega⟩
    · rintro ⟨w, hw, hlength⟩
      by_cases hshort : g.Within blocked start levels.length l
      · exact Or.inl hshort
      · have hmin : ∀ v, g.FreeWalk blocked start v l → levels.length + 1 ≤ v.length := by
          intro v hv
          by_contra hle
          exact hshort ⟨v, hv, by omega⟩
        exact Or.inr ⟨⟨w, hw, Nat.le_antisymm hlength (hmin w hw)⟩, hmin⟩

theorem nodup_frontier (h : g.Exact blocked start levels) : (frontier start levels).Nodup := by
  cases levels with
  | nil => simp [frontier]
  | cons level levels => exact h.2.nodup

theorem nodup_reached (h : g.Exact blocked start levels) : (reached start levels).Nodup := by
  induction levels with
  | nil => simp [reached]
  | cons level levels ih =>
    refine List.nodup_append'.mpr ⟨ih h.1, h.2.nodup, ?_⟩
    intro l hold hnew
    exact ((h.2.mem_iff l).mp hnew).2.1 hold

theorem end_mem_reached (hstart : g.device.hasLocation start = true) (hfree : blocked start = false)
    (h : g.Exact blocked start levels)
    (hnext : g.nextLevel blocked (reached start levels) (frontier start levels) = [])
    {w : List Segment} (hw : g.FreeWalk blocked start w l) : l ∈ reached start levels := by
  obtain ⟨hfrontier, hreached⟩ := h.distances hstart hfree
  induction w using List.reverseRecOn generalizing l with
  | nil => exact (hreached l).mpr ⟨[], hw, Nat.zero_le _⟩
  | append_singleton w e ih =>
    obtain ⟨hinit, hedge, rfl, hend⟩ := hw.unsnoc
    by_contra hnew
    have hsrc : e.src ∈ frontier start levels := by
      obtain ⟨v, hv, hle⟩ := (hreached e.src).mp (ih hinit)
      have hmin : ∀ u, g.FreeWalk blocked start u e.src → levels.length ≤ u.length := by
        intro u hu
        by_contra hshort
        exact hnew ((hreached e.dst).mpr ⟨u ++ [e], hu.snoc hedge hend, by simp; omega⟩)
      exact (hfrontier e.src).mpr ⟨⟨v, hv, Nat.le_antisymm hle (hmin v hv)⟩, hmin⟩
    have hmem := ((nextLevel_expands g blocked start levels).mem_iff e.dst).mpr
      ⟨hend, hnew, e, hedge, hsrc, rfl⟩
    rw [hnext] at hmem
    cases hmem

theorem length_reached_le (hstart : g.device.hasLocation start = true) (hfree : blocked start = false)
    (h : g.Exact blocked start levels) :
    (reached start levels).length ≤ g.device.locations.length := by
  refine (h.nodup_reached.subperm ?_).length_le
  intro l hl
  obtain ⟨w, hw, _⟩ := ((h.distances hstart hfree).2 l).mp hl
  exact Device.mem_locations.mpr hw.finish.1

end Exact

/-- The search either ends with exact levels, the last of which has the target, or no free walk leads
there. It never runs out of steps, because every level reaches a new location. -/
theorem searchLevels_spec {target : Location} (hstart : g.device.hasLocation start = true)
    (hfree : blocked start = false) {fuel : Nat} {levels : List (List Arrival)}
    (h : g.Exact blocked start levels)
    (hfuel : g.device.locations.length < fuel + (reached start levels).length)
    (hmissed : target ∈ reached start levels → target ∈ frontier start levels) :
    (∃ result, g.searchLevels blocked target fuel (reached start levels) (frontier start levels) levels =
        some result ∧ g.Exact blocked start result ∧ target ∈ frontier start result) ∨
      (g.searchLevels blocked target fuel (reached start levels) (frontier start levels) levels = none ∧
        ∀ w, ¬ g.FreeWalk blocked start w target) := by
  induction fuel generalizing levels with
  | zero =>
    have := h.length_reached_le hstart hfree
    omega
  | succ fuel ih =>
    simp only [searchLevels]
    by_cases htarget : target ∈ frontier start levels
    · rw [if_pos (List.contains_iff_mem.mpr htarget)]
      exact Or.inl ⟨levels, rfl, h, htarget⟩
    · rw [if_neg (by simpa using htarget)]
      have hexpands := nextLevel_expands g blocked start levels
      cases hnext : g.nextLevel blocked (reached start levels) (frontier start levels) with
      | nil =>
        refine Or.inr ⟨rfl, ?_⟩
        intro w hw
        exact htarget (hmissed (h.end_mem_reached hstart hfree hnext hw))
      | cons a rest =>
        rw [hnext] at hexpands
        refine @ih ((a :: rest) :: levels) ⟨h, hexpands⟩ ?_ ?_
        · simp only [reached, List.length_append, List.length_map, List.length_cons]
          omega
        · intro hmem
          rcases List.mem_append.mp hmem with hold | hnew
          · exact absurd (hmissed hold) htarget
          · exact hnew

theorem searchLevels_from_start (hstart : g.device.hasLocation start = true)
    (hfree : blocked start = false) (target : Location) :
    (∃ result, g.searchLevels blocked target (g.device.locations.length + 1) [start] [start] [] =
        some result ∧ g.Exact blocked start result ∧ target ∈ frontier start result) ∨
      (g.searchLevels blocked target (g.device.locations.length + 1) [start] [start] [] = none ∧
        ∀ w, ¬ g.FreeWalk blocked start w target) := by
  have hnil : g.Exact blocked start [] := trivial
  exact searchLevels_spec hstart hfree hnil (by omega) fun hmem => hmem

end LaneGraph

end AtomTransport
