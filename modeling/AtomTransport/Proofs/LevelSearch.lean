import AtomTransport.LaneGraph
import AtomTransport.Proofs.Ascending
import Mathlib.Data.List.Induction

/-!
# A search told by its levels

A search remembers how deep every location is that it has met and which edges enter the location from the level
before. The same search can be told as a list of levels, each with its new locations and the edges that enter
them. After every round both say the same about all locations, and the ways back from a location are the ways
through the levels to it.
-/

namespace AtomTransport

open Ascending (get? put get?_put)

theorem eraseDups_concat {α : Type} [DecidableEq α] (xs : List α) (x : α) :
    (xs ++ [x]).eraseDups = if x ∈ xs then xs.eraseDups else xs.eraseDups ++ [x] := by
  rw [List.eraseDups_append, List.removeAll]
  by_cases hx : x ∈ xs <;> simp [hx, List.eraseDups_cons]

/-- A location of one level of the search with the edges that enter it from the level before. -/
structure Arrival where
  location : Location
  incoming : List Segment

namespace LaneGraph

variable (g : LaneGraph) (blocked : Location → Bool) (start : Location)

def nextLevel (seen frontier : List Location) : List Arrival :=
  let entering := (frontier.flatMap g.leaving).filter fun e => !blocked e.dst && !seen.contains e.dst
  (entering.map (·.dst)).eraseDups.map fun l => ⟨l, entering.filter (·.dst = l)⟩

/-- Adds levels until one contains the target, and returns them with the last level first. -/
def searchLevels (target : Location) :
    Nat → List Location → List Location → List (List Arrival) → Option (List (List Arrival))
  | 0, _, _, _ => none
  | fuel + 1, seen, frontier, levels =>
    if frontier.contains target then some levels
    else
      match g.nextLevel blocked seen frontier with
      | [] => none
      | level =>
        let reached := level.map (·.location)
        searchLevels target fuel (seen ++ reached) reached (level :: levels)

def waysTo : List (List Arrival) → Location → List (List Segment)
  | [], _ => [[]]
  | level :: levels, l =>
    match level.find? (·.location = l) with
    | none => []
    | some arrival =>
      arrival.incoming.flatMap fun e => (waysTo levels e.src).map (· ++ [e])

def frontier : List (List Arrival) → List Location
  | [] => [start]
  | level :: _ => level.map (·.location)

def reached : List (List Arrival) → List Location
  | [] => [start]
  | level :: levels => reached levels ++ level.map (·.location)

/-- Every level holds new locations, entered by edges from the level before. -/
def Layered : List (List Arrival) → Prop
  | [] => True
  | level :: levels => Layered levels ∧ ∀ a ∈ level, a.location ∉ reached start levels ∧
      ∀ e ∈ a.incoming, e ∈ g.edges ∧ e.src ∈ frontier start levels ∧ e.dst = a.location ∧
        blocked e.dst = false

def depthIn : List (List Arrival) → Location → Option Nat
  | [], l => if l = start then some 0 else none
  | level :: levels, l =>
    if l ∈ level.map (·.location) then some (levels.length + 1) else depthIn levels l

def incomingIn : List (List Arrival) → Location → List Segment
  | [], _ => []
  | level :: levels, l =>
    match level.find? (·.location = l) with
    | some arrival => arrival.incoming
    | none => incomingIn levels l

variable {g blocked start}

section Levels

variable {levels : List (List Arrival)} {l : Location}

theorem mem_nextLevel {seen front : List Location} {a : Arrival}
    (h : a ∈ g.nextLevel blocked seen front) :
    a.location ∉ seen ∧ ∀ e ∈ a.incoming, e ∈ g.edges ∧ e.src ∈ front ∧ e.dst = a.location ∧
      blocked e.dst = false := by
  simp only [nextLevel, List.mem_map, List.mem_eraseDups, List.mem_filter, List.mem_flatMap] at h
  obtain ⟨l, ⟨e, ⟨_, he⟩, rfl⟩, rfl⟩ := h
  simp only [Bool.and_eq_true, Bool.not_eq_true', List.contains_eq_mem, decide_eq_false_iff_not] at he
  refine ⟨he.2, ?_⟩
  intro e' he'
  simp only [List.mem_filter, List.mem_flatMap, decide_eq_true_eq] at he'
  obtain ⟨⟨⟨l, hl, hleave⟩, hfree⟩, hdst⟩ := he'
  obtain ⟨hedge, hsrc⟩ := List.mem_filter.mp hleave
  have hsrc : e'.src = l := by simpa using hsrc
  rw [hdst]
  exact ⟨hedge, hsrc ▸ hl, rfl, he.1⟩

/-- The search keeps its levels layered, and it stops only when the last level has the target. -/
theorem searchLevels_layered {target : Location} {fuel : Nat} {seen front : List Location}
    {levels result : List (List Arrival)} (hl : Layered g blocked start levels)
    (hf : front = frontier start levels) (hs : ∀ l ∈ reached start levels, l ∈ seen)
    (h : g.searchLevels blocked target fuel seen front levels = some result) :
    Layered g blocked start result ∧ target ∈ frontier start result := by
  induction fuel generalizing seen front levels with
  | zero => simp [searchLevels] at h
  | succ fuel ih =>
    simp only [searchLevels] at h
    split_ifs at h with htarget
    · cases h
      exact ⟨hl, hf ▸ List.contains_iff_mem.mp htarget⟩
    · cases hnext : g.nextLevel blocked seen front with
      | nil => simp [hnext] at h
      | cons a rest =>
        simp only [hnext] at h
        have hl' : Layered g blocked start ((a :: rest) :: levels) := by
          refine ⟨hl, ?_⟩
          intro a' ha'
          rw [← hnext] at ha'
          obtain ⟨hnew, hin⟩ := mem_nextLevel ha'
          exact ⟨fun hmem => hnew (hs _ hmem), hf ▸ hin⟩
        refine ih hl' rfl ?_ h
        intro l hmem
        rcases List.mem_append.mp hmem with hmem | hmem
        · exact List.mem_append_left _ (hs l hmem)
        · exact List.mem_append_right _ hmem

theorem depthIn_eq_none_iff : depthIn start levels l = none ↔ l ∉ reached start levels := by
  induction levels with
  | nil => simp [depthIn, reached]
  | cons level levels ih =>
    rw [depthIn, reached, List.mem_append, not_or, ← ih]
    split_ifs with hl <;> simp [hl]

theorem le_of_depthIn {depth : Nat} (h : depthIn start levels l = some depth) : depth ≤ levels.length := by
  induction levels with
  | nil =>
    unfold depthIn at h
    split_ifs at h
    cases h
    exact Nat.le_refl 0
  | cons level levels ih =>
    unfold depthIn at h
    split_ifs at h
    · cases h
      exact Nat.le_refl _
    · exact Nat.le_succ_of_le (ih h)

theorem depthIn_of_mem_frontier (h : l ∈ frontier start levels) :
    depthIn start levels l = some levels.length := by
  cases levels with
  | nil => exact if_pos (List.mem_singleton.mp h)
  | cons level levels => exact if_pos h

theorem start_mem_reached (levels : List (List Arrival)) : start ∈ reached start levels := by
  induction levels with
  | nil => exact List.mem_singleton_self start
  | cons level levels ih => exact List.mem_append_left _ ih

theorem mem_reached_of_mem_frontier (h : l ∈ frontier start levels) : l ∈ reached start levels := by
  cases levels with
  | nil => exact h
  | cons level levels => exact List.mem_append_right _ h

theorem Layered.of_append {later : List (List Arrival)} (h : Layered g blocked start (later ++ levels)) :
    Layered g blocked start levels := by
  induction later with
  | nil => exact h
  | cons level later ih => exact ih h.1

theorem exists_find?_location {level : List Arrival} (h : l ∈ level.map (·.location)) :
    ∃ a ∈ level, level.find? (·.location = l) = some a ∧ a.location = l := by
  obtain ⟨a, ha, hal⟩ := List.mem_map.mp h
  have hsome : (level.find? (·.location = l)).isSome := List.find?_isSome.mpr ⟨a, ha, decide_eq_true hal⟩
  obtain ⟨b, hb⟩ := Option.isSome_iff_exists.mp hsome
  exact ⟨b, List.mem_of_find?_eq_some hb, hb, by simpa using List.find?_some hb⟩

theorem incomingIn_eq_nil (h : l ∉ reached start levels) : incomingIn levels l = [] := by
  induction levels with
  | nil => rfl
  | cons level levels ih =>
    rw [reached, List.mem_append, not_or] at h
    have hfind : level.find? (·.location = l) = none := by
      rw [List.find?_eq_none]
      intro a ha hal
      exact h.2 (List.mem_map.mpr ⟨a, ha, of_decide_eq_true hal⟩)
    rw [incomingIn, hfind]
    exact ih h.1

theorem incomingIn_append {later : List (List Arrival)} (h : Layered g blocked start (later ++ levels))
    (hl : l ∈ reached start levels) :
    l ∈ reached start (later ++ levels) ∧ incomingIn (later ++ levels) l = incomingIn levels l := by
  induction later with
  | nil => exact ⟨hl, rfl⟩
  | cons level later ih =>
    obtain ⟨hold, heq⟩ := ih h.1
    have hfind : level.find? (·.location = l) = none := by
      rw [List.find?_eq_none]
      intro a ha hal
      exact (h.2 a ha).1 (of_decide_eq_true hal ▸ hold)
    refine ⟨List.mem_append_left _ hold, ?_⟩
    rw [List.cons_append, incomingIn, hfind]
    exact heq

end Levels

structure Finds (start : Location) (levels : List (List Arrival)) (s : Search) : Prop where
  depths : ∀ l, get? l s.depths = depthIn start levels l
  incoming : ∀ l, (get? l s.incoming).getD [] = incomingIn levels l

/-- In the round after some levels a search has met the ends of some edges, each of which enters a new location. -/
structure Meets (start : Location) (levels : List (List Arrival)) (entering : List Segment)
    (step : Search × List Location) : Prop where
  new : ∀ e ∈ entering, e.dst ∉ reached start levels
  next : step.2 = (entering.map (·.dst)).eraseDups
  depths : ∀ l, get? l step.1.depths =
    if l ∈ entering.map (·.dst) then some (levels.length + 1) else depthIn start levels l
  incoming : ∀ l, (get? l step.1.incoming).getD [] =
    if l ∈ entering.map (·.dst) then entering.filter (·.dst = l) else incomingIn levels l

namespace Meets

variable {levels : List (List Arrival)} {entering : List Segment} {step : Search × List Location} {e : Segment}

theorem push_incoming (h : Meets start levels entering step) (hnew : e.dst ∉ reached start levels) (l : Location) :
    (get? l (put e.dst ((get? e.dst step.1.incoming).getD [] ++ [e]) step.1.incoming)).getD [] =
      if l ∈ (entering ++ [e]).map (·.dst) then (entering ++ [e]).filter (·.dst = l)
      else incomingIn levels l := by
  rw [get?_put]
  by_cases hl : l = e.dst
  · subst hl
    have hrow : (get? e.dst step.1.incoming).getD [] = entering.filter (·.dst = e.dst) := by
      rw [h.incoming]
      split_ifs with hmet
      · rfl
      · rw [incomingIn_eq_nil hnew, eq_comm, List.filter_eq_nil_iff]
        intro e' he' heq
        exact hmet (List.mem_map.mpr ⟨e', he', of_decide_eq_true heq⟩)
    simp [hrow]
  · rw [if_neg hl, h.incoming]
    simp [hl, Ne.symm hl]

theorem new_concat (h : Meets start levels entering step) (hnew : e.dst ∉ reached start levels) :
    ∀ e' ∈ entering ++ [e], e'.dst ∉ reached start levels := by
  rw [List.forall_mem_append, List.forall_mem_singleton]
  exact ⟨h.new, hnew⟩

theorem follow_first (h : Meets start levels entering step) (hfree : blocked e.dst = false)
    (hnew : e.dst ∉ reached start levels) (hmet : e.dst ∉ entering.map (·.dst)) :
    Meets start levels (entering ++ [e]) (LaneGraph.follow blocked (levels.length + 1) step e) := by
  have hdepth := h.depths e.dst
  rw [if_neg hmet, depthIn_eq_none_iff.mpr hnew] at hdepth
  have hstep : LaneGraph.follow blocked (levels.length + 1) step e =
      (⟨put e.dst (levels.length + 1) step.1.depths,
        put e.dst ((get? e.dst step.1.incoming).getD [] ++ [e]) step.1.incoming⟩, step.2 ++ [e.dst]) := by
    simp [LaneGraph.follow, hfree, hdepth]
  rw [hstep]
  refine ⟨h.new_concat hnew, ?_, fun l => ?_, h.push_incoming hnew⟩
  · rw [h.next, List.map_append, List.map_singleton, eraseDups_concat, if_neg hmet]
  · rw [get?_put, h.depths]
    by_cases hl : l = e.dst <;> simp [hl]

theorem follow_again (h : Meets start levels entering step) (hfree : blocked e.dst = false)
    (hnew : e.dst ∉ reached start levels) (hmet : e.dst ∈ entering.map (·.dst)) :
    Meets start levels (entering ++ [e]) (LaneGraph.follow blocked (levels.length + 1) step e) := by
  have hdepth := h.depths e.dst
  rw [if_pos hmet] at hdepth
  have hstep : LaneGraph.follow blocked (levels.length + 1) step e = ({ step.1 with
      incoming := put e.dst ((get? e.dst step.1.incoming).getD [] ++ [e]) step.1.incoming }, step.2) := by
    simp [LaneGraph.follow, hfree, hdepth]
  rw [hstep]
  refine ⟨h.new_concat hnew, ?_, fun l => ?_, h.push_incoming hnew⟩
  · rw [h.next, List.map_append, List.map_singleton, eraseDups_concat, if_pos hmet]
  · have hmem : l ∈ (entering ++ [e]).map (·.dst) ↔ l ∈ entering.map (·.dst) := by
      rw [List.map_append, List.map_singleton, List.mem_append, List.mem_singleton, or_iff_left_of_imp]
      rintro rfl
      exact hmet
    simp only [hmem]
    exact h.depths l

/-- An edge to a location of an earlier level is passed over, because that location has another depth. -/
theorem follow_old (h : Meets start levels entering step) (hold : e.dst ∈ reached start levels) :
    LaneGraph.follow blocked (levels.length + 1) step e = step := by
  have hmet : e.dst ∉ entering.map (·.dst) := by
    intro hmem
    obtain ⟨e', he', heq⟩ := List.mem_map.mp hmem
    exact h.new e' he' (heq ▸ hold)
  obtain ⟨depth, hin⟩ := Option.ne_none_iff_exists'.mp (mt depthIn_eq_none_iff.mp (not_not.mpr hold))
  have hne : depth ≠ levels.length + 1 := Nat.ne_of_lt (Nat.lt_succ_of_le (le_of_depthIn hin))
  have hdepth := h.depths e.dst
  rw [if_neg hmet, hin] at hdepth
  simp [LaneGraph.follow, hdepth, hne]

theorem follow (h : Meets start levels entering step) (blocked : Location → Bool) (e : Segment) :
    Meets start levels
      (if !blocked e.dst && !(reached start levels).contains e.dst then entering ++ [e] else entering)
      (LaneGraph.follow blocked (levels.length + 1) step e) := by
  cases hfree : blocked e.dst with
  | true => simpa [LaneGraph.follow, hfree] using h
  | false =>
    by_cases hold : e.dst ∈ reached start levels
    · simpa [hold, h.follow_old hold] using h
    · rw [if_pos (by simpa using hold)]
      by_cases hmet : e.dst ∈ entering.map (·.dst)
      · exact h.follow_again hfree hold hmet
      · exact h.follow_first hfree hold hmet

theorem foldl_follow (h : Meets start levels entering step) (blocked : Location → Bool) (es : List Segment) :
    Meets start levels
      (entering ++ es.filter fun e => !blocked e.dst && !(reached start levels).contains e.dst)
      (es.foldl (LaneGraph.follow blocked (levels.length + 1)) step) := by
  induction es generalizing entering step with
  | nil => simpa using h
  | cons e es ih =>
    have hrest := ih (h.follow blocked e)
    rw [List.foldl_cons, List.filter_cons]
    split_ifs at hrest ⊢ with hadmit
    · simpa using hrest
    · exact hrest

end Meets

namespace Finds

variable {levels : List (List Arrival)} {s : Search} {target l : Location}

theorem initial (start : Location) : Finds start [] ⟨[(start, 0)], []⟩ where
  depths _ := rfl
  incoming _ := rfl

theorem depth_eq_none (h : Finds start levels s) : get? l s.depths = none ↔ l ∉ reached start levels := by
  rw [h.depths, depthIn_eq_none_iff]

theorem meets (h : Finds start levels s) : Meets start levels [] (s, []) := by
  refine ⟨by simp, rfl, fun l => ?_, fun l => ?_⟩
  · simpa using h.depths l
  · simpa using h.incoming l

/-- A round of a search finds the next level. -/
theorem round (h : Finds start levels s) (g : LaneGraph) (blocked : Location → Bool) :
    let level := g.nextLevel blocked (reached start levels) (frontier start levels)
    let step := (frontier start levels).foldl
      (fun step l => (g.leaving l).foldl (LaneGraph.follow blocked (levels.length + 1)) step) (s, [])
    step.2 = level.map (·.location) ∧ Finds start (level :: levels) step.1 := by
  intro level step
  have hmeets := h.meets.foldl_follow blocked ((frontier start levels).flatMap g.leaving)
  rw [List.foldl_flatMap, List.nil_append] at hmeets
  have hlocations : level.map (·.location) = step.2 := by
    rw [hmeets.next]
    simp [level, nextLevel, Function.comp_def]
  refine ⟨hlocations.symm, fun l => ?_, fun l => ?_⟩
  · have hmem : l ∈ level.map (·.location) ↔ l ∈ (((frontier start levels).flatMap g.leaving).filter fun e =>
        !blocked e.dst && !(reached start levels).contains e.dst).map (·.dst) := by
      rw [hlocations, hmeets.next, List.mem_eraseDups]
    simp only [depthIn, hmem]
    exact hmeets.depths l
  · rw [incomingIn]
    refine (hmeets.incoming l).trans ?_
    split_ifs with hmet
    · rw [← List.mem_eraseDups, ← hmeets.next] at hmet
      obtain ⟨a, ha, hfind, hal⟩ := exists_find?_location (hlocations ▸ hmet)
      obtain ⟨_, _, rfl⟩ := List.mem_map.mp ha
      rw [hfind, ← hal]
    · have hfind : level.find? (·.location = l) = none := by
        rw [List.find?_eq_none]
        intro a ha hal
        apply hmet
        rw [← List.mem_eraseDups, ← hmeets.next]
        exact hlocations ▸ List.mem_map.mpr ⟨a, ha, of_decide_eq_true hal⟩
      rw [hfind]

theorem explore_nil (fuel level : Nat) : g.explore blocked target fuel level s [] = s := by
  cases fuel <;> simp [LaneGraph.explore]

/-- The search by maps finds what the search by levels returns. If that returns nothing, the target is not
met. -/
theorem explore (h : Finds start levels s) (g : LaneGraph) (blocked : Location → Bool)
    (hmissed : target ∈ reached start levels → target ∈ frontier start levels) (fuel : Nat) :
    match g.searchLevels blocked target (fuel + 1) (reached start levels) (frontier start levels) levels with
    | some result =>
      Finds start result (g.explore blocked target fuel levels.length s (frontier start levels))
    | none => get? target
        (g.explore blocked target fuel levels.length s (frontier start levels)).depths = none := by
  induction fuel generalizing s levels with
  | zero =>
    simp only [searchLevels, LaneGraph.explore]
    split_ifs with htarget
    · exact h
    · have hunmet := h.depth_eq_none.mpr (mt hmissed (by simpa using htarget))
      cases g.nextLevel blocked (reached start levels) (frontier start levels) with
      | nil => exact hunmet
      | cons a rest => exact hunmet
  | succ fuel ih =>
    rw [searchLevels, LaneGraph.explore]
    by_cases htarget : target ∈ frontier start levels
    · have hmet : (get? target s.depths).isSome = true := by
        rw [h.depths, depthIn_of_mem_frontier htarget]
        rfl
      rw [if_pos (List.contains_iff_mem.mpr htarget), hmet, Bool.or_true, if_pos rfl]
      exact h
    · have hunmet := h.depth_eq_none.mpr (mt hmissed htarget)
      obtain ⟨hstep, hfinds⟩ := h.round g blocked
      rw [if_neg (by simpa using htarget), hunmet, Option.isSome_none, Bool.or_false]
      dsimp only
      rw [hstep]
      cases hnext : g.nextLevel blocked (reached start levels) (frontier start levels) with
      | nil =>
        rw [hnext] at hfinds
        simp only [List.map_nil, explore_nil]
        split_ifs
        · exact hunmet
        · exact hfinds.depth_eq_none.mpr (by simpa [reached] using mt hmissed htarget)
      | cons a rest =>
        have hfrontier : ¬ (frontier start levels).isEmpty = true := by
          intro hempty
          rw [List.isEmpty_iff.mp hempty] at hnext
          cases hnext
        rw [if_neg hfrontier]
        rw [hnext] at hfinds
        refine ih hfinds fun hmem => ?_
        rcases List.mem_append.mp hmem with hold | hnew
        · exact absurd (hmissed hold) htarget
        · exact hnew

/-- The ways back from a location are the ways through the levels up to it, even if the search has found more
levels, and whatever more depth is allowed. -/
theorem enumerate_eq {later : List (List Arrival)} (h : Finds start (later ++ levels) s)
    (hlayered : Layered g blocked start (later ++ levels)) (hl : l ∈ frontier start levels) {depth : Nat}
    (hdepth : levels.length ≤ depth) : enumerate s.incoming start depth l = waysTo levels l := by
  induction levels generalizing later l depth with
  | nil =>
    obtain rfl : l = start := List.mem_singleton.mp hl
    cases depth <;> simp [enumerate, waysTo]
  | cons level levels ih =>
    obtain ⟨depth, rfl⟩ := Nat.exists_eq_add_of_le' (Nat.le_trans (Nat.le_add_left 1 _) hdepth)
    obtain ⟨a, ha, hfind, rfl⟩ := exists_find?_location hl
    obtain ⟨hnew, hentering⟩ := hlayered.of_append.2 a ha
    have hne : a.location ≠ start := fun heq => hnew (heq ▸ start_mem_reached levels)
    have hincoming : (get? a.location s.incoming).getD [] = a.incoming := by
      rw [h.incoming, (incomingIn_append hlayered (mem_reached_of_mem_frontier hl)).2, incomingIn, hfind]
    rw [enumerate, if_neg hne, hincoming, waysTo, hfind]
    refine List.flatMap_congr fun e he => ?_
    have hsplit : later ++ level :: levels = (later ++ [level]) ++ levels := by simp
    rw [ih (hsplit ▸ h) (hsplit ▸ hlayered) (hentering e he).2.1 (Nat.le_of_succ_le_succ hdepth)]

end Finds

/-- Between free existing ends the paths are the ways through the levels of the search. -/
theorem shortestPaths_eq {finish : Location}
    (hends : (blocked start || blocked finish || !g.device.hasLocation start ||
      !g.device.hasLocation finish) = false) :
    g.shortestPaths start finish blocked =
      match g.searchLevels blocked finish (g.device.locations.length + 1) [start] [start] [] with
      | none => []
      | some levels => (waysTo levels finish).map (⟨start, ·⟩) := by
  have hmissed : finish ∈ reached start [] → finish ∈ frontier start [] := id
  have hfinds := (Finds.initial start).explore g blocked hmissed g.device.locations.length
  simp only [shortestPaths, hends, Bool.false_eq_true, if_false]
  simp only [reached, frontier, List.length_nil] at hfinds
  cases hsearch : g.searchLevels blocked finish (g.device.locations.length + 1) [start] [start] [] with
  | none =>
    rw [hsearch] at hfinds
    simp only [hfinds]
  | some levels =>
    rw [hsearch] at hfinds
    have hnil : Layered g blocked start [] := trivial
    obtain ⟨hlayered, hfinish⟩ := searchLevels_layered hnil rfl (fun l hl => hl) hsearch
    have hdepth := (hfinds.depths finish).trans (depthIn_of_mem_frontier hfinish)
    have hall : Finds start ([] ++ levels) _ := hfinds
    have hways := hall.enumerate_eq hlayered hfinish (Nat.le_refl _)
    simp only [hdepth, hways]

end LaneGraph

end AtomTransport
