import AtomTransport.Proofs.Device
import AtomTransport.Proofs.LevelSearch

/-!
# Walks through the lane graph

A walk is a list of edges, each starting where the one before it ends. Every path that the search by
levels finds is a walk from the start to the end that enters no blocked location and visits no
location twice: its levels are disjoint, and each edge of the path leads one level further.
-/

namespace AtomTransport

def Walk (edges : List Segment) : Location → List Segment → Location → Prop
  | a, [], b => a = b
  | a, s :: rest, b => s ∈ edges ∧ s.src = a ∧ Walk edges s.dst rest b

namespace Walk

variable {edges : List Segment} {a b c : Location}

theorem append {v w : List Segment} (hv : Walk edges a v b) (hw : Walk edges b w c) :
    Walk edges a (v ++ w) c := by
  induction v generalizing a with
  | nil =>
    obtain rfl : a = b := hv
    exact hw
  | cons s v ih => exact ⟨hv.1, hv.2.1, ih hv.2.2⟩

theorem split {v w : List Segment} (h : Walk edges a (v ++ w) c) :
    ∃ b, Walk edges a v b ∧ Walk edges b w c := by
  induction v generalizing a with
  | nil => exact ⟨a, rfl, h⟩
  | cons s v ih =>
    obtain ⟨b, hv, hw⟩ := ih h.2.2
    exact ⟨b, ⟨h.1, h.2.1, hv⟩, hw⟩

theorem mem {w : List Segment} (h : Walk edges a w b) {s : Segment} (hs : s ∈ w) : s ∈ edges := by
  obtain ⟨v, v', rfl⟩ := List.append_of_mem hs
  obtain ⟨_, _, h'⟩ := h.split
  exact h'.1

theorem finish_eq {w : List Segment} (h : Walk edges a w b) : (Path.mk a w).finish = b := by
  rcases List.eq_nil_or_concat' w with rfl | ⟨v, s, rfl⟩
  · exact h
  · obtain ⟨m, _, hs⟩ := h.split
    have hb : s.dst = b := hs.2.2
    simpa [Path.finish] using hb

theorem end_mem {w : List Segment} (h : Walk edges a w b) (hw : w ≠ []) : ∃ s ∈ w, s.dst = b := by
  rcases List.eq_nil_or_concat' w with rfl | ⟨v, s, rfl⟩
  · exact absurd rfl hw
  · obtain ⟨_, _, hs⟩ := h.split
    exact ⟨s, by simp, hs.2.2⟩

end Walk

structure Path.Travels (edges : List Segment) (blocked : Location → Bool) (src dst : Location)
    (p : Path) : Prop where
  start_eq : p.start = src
  walk : Walk edges src p.segments dst
  free : ∀ s ∈ p.segments, blocked s.dst = false
  simple : p.locations.Nodup

theorem foldl_choose_mem {α : Type} (better : α → α → Prop) [∀ a b, Decidable (better a b)] (a : α)
    (xs : List α) : xs.foldl (fun b x => if better x b then x else b) a ∈ a :: xs := by
  induction xs generalizing a with
  | nil => exact List.mem_cons_self
  | cons x xs ih =>
    rw [List.foldl_cons]
    rcases List.mem_cons.mp (ih (if better x a then x else a)) with heq | hmem
    · rw [heq]
      split_ifs <;> simp
    · exact List.mem_cons_of_mem _ (List.mem_cons_of_mem _ hmem)

namespace LaneGraph

variable {g : LaneGraph} {blocked : Location → Bool} {start : Location}

/-- Every way through layered levels is a free walk that stays in the reached locations and meets
none of them twice. -/
theorem walk_of_mem_waysTo {levels : List (List Arrival)} (hl : Layered g blocked start levels)
    {l : Location} (hf : l ∈ frontier start levels) {w : List Segment} (hw : w ∈ waysTo levels l) :
    Walk g.edges start w l ∧ (∀ s ∈ w, blocked s.dst = false) ∧
      (start :: w.map (·.dst)).Nodup ∧ ∀ m ∈ start :: w.map (·.dst), m ∈ reached start levels := by
  induction levels generalizing l w with
  | nil =>
    simp only [waysTo, List.mem_singleton] at hw
    simp only [frontier, List.mem_singleton] at hf
    subst hw hf
    simp [Walk, reached]
  | cons level levels ih =>
    simp only [waysTo] at hw
    cases hfind : level.find? (·.location = l) with
    | none => simp [hfind] at hw
    | some a =>
      simp only [hfind, List.mem_flatMap, List.mem_map] at hw
      obtain ⟨e, he, w', hw', rfl⟩ := hw
      have hal : a.location = l := by simpa using List.find?_some hfind
      have hmem := List.mem_of_find?_eq_some hfind
      obtain ⟨hnew, hin⟩ := hl.2 a hmem
      obtain ⟨hedge, hsrc, hdst, hfree⟩ := hin e he
      obtain ⟨hwalk, hblocked, hnodup, hreached⟩ := ih hl.1 hsrc hw'
      have hlast : e.dst = l := hdst.trans hal
      have hout : e.dst ∉ start :: w'.map (·.dst) := fun hm => hnew (hdst ▸ hreached _ hm)
      refine ⟨hwalk.append ⟨hedge, rfl, hlast⟩, ?_, ?_, ?_⟩
      · intro s hs
        rcases List.mem_append.mp hs with hs | hs
        · exact hblocked s hs
        · rw [List.mem_singleton.mp hs]
          exact hfree
      · rw [List.map_append, ← List.cons_append]
        exact List.nodup_append'.mpr ⟨hnodup, by simp, by simpa using hout⟩
      · intro m hm
        rw [List.map_append, ← List.cons_append] at hm
        rcases List.mem_append.mp hm with hm | hm
        · exact List.mem_append_left _ (hreached m hm)
        · rw [List.map_singleton, List.mem_singleton] at hm
          rw [hm, hdst]
          exact List.mem_append_right _ (List.mem_map_of_mem hmem)

theorem travels_of_mem_shortestPaths {finish : Location} {p : Path}
    (h : p ∈ g.shortestPaths start finish blocked) :
    p.Travels g.edges blocked start finish := by
  by_cases hends : (blocked start || blocked finish || !g.device.hasLocation start ||
      !g.device.hasLocation finish) = true
  · rw [shortestPaths, if_pos hends] at h
    cases h
  · rw [shortestPaths_eq (by simpa using hends)] at h
    cases hs : g.searchLevels blocked finish (g.device.locations.length + 1) [start] [start] [] with
    | none => simp [hs] at h
    | some levels =>
      simp only [hs, List.mem_map] at h
      obtain ⟨w, hw, rfl⟩ := h
      have hnil : Layered g blocked start [] := trivial
      obtain ⟨hl, hf⟩ := searchLevels_layered hnil rfl (fun l hl => hl) hs
      obtain ⟨hwalk, hfree, hnodup, _⟩ := walk_of_mem_waysTo hl hf hw
      exact ⟨rfl, hwalk, hfree, hnodup⟩

theorem mem_of_best? {score : Path → Binary64} {ps : List Path} {p : Path}
    (h : best? score ps = some p) : p ∈ ps := by
  cases ps with
  | nil => simp [best?] at h
  | cons q rest =>
    simp only [best?, Option.some.injEq] at h
    exact h ▸ foldl_choose_mem (fun q b => (score q).lt (score b) = true) q rest

/-- Whatever the heuristic prefers, the path that is found can be travelled. -/
theorem travels_of_findPath? {h : Heuristic} {accepted : List (List Lane)} {finish : Location}
    {p : Path} (hp : g.findPath? h accepted start finish blocked = some p) :
    p.Travels g.edges blocked start finish :=
  travels_of_mem_shortestPaths (mem_of_best? hp)

end LaneGraph

end AtomTransport
