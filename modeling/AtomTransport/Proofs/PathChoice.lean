import AtomTransport.Proofs.ShortestPaths
import Mathlib.Data.List.MinMax

/-!
# The choice among shortest paths

A heuristic whose scores are numbers orders all paths. The path that is found is then the first of the
shortest paths with the lowest score, so that it exists whenever a free walk does, its length does not
depend on the heuristic, and blocking more locations never helps.
-/

namespace AtomTransport

namespace Binary64

theorem lt_iff {x y : Binary64} (hx : x.isNaN = false) (hy : y.isNaN = false) :
    x.lt y = true ↔ x.orderKey < y.orderKey := by
  simp [lt, hx, hy]

theorem magnitude_ofMagnitude {m : Nat} (h : m < Nat.pow 2 63) (negative : Bool) :
    (ofMagnitude negative m).magnitude = m := by
  have hpow : Nat.pow 2 63 = 9223372036854775808 := rfl
  rw [hpow] at h
  have hbits : (ofMagnitude negative m).bits.toNat =
      m + if negative then 9223372036854775808 else 0 := by
    refine Nat.mod_eq_of_lt ?_
    cases negative <;> simp <;> omega
  rw [magnitude, hbits, hpow]
  cases negative <;> simp <;> omega

theorem isNaN_ofRatio (negative : Bool) (num den : Nat) : (ofRatio negative num den).isNaN = false := by
  have hle : roundMagnitude num den ≤ infinityMagnitude := Nat.min_le_left _ _
  have hbound : infinityMagnitude < Nat.pow 2 63 := by decide
  rw [isNaN, ofRatio, magnitude_ofMagnitude (Nat.lt_of_le_of_lt hle hbound), decide_eq_false_iff_not]
  omega

end Binary64

def Heuristic.Comparable (h : Heuristic) : Prop :=
  ∀ accepted locations lanes, (h.score accepted locations lanes).isNaN = false

theorem Heuristic.comparable_weighted (busWeights : List Int) (siteWeights : List (Location × Int)) :
    (weighted busWeights siteWeights).Comparable :=
  fun _ _ _ => Binary64.isNaN_ofRatio _ _ _

namespace LaneGraph

variable {g : LaneGraph} {blocked : Location → Bool} {start finish : Location}

/-- The path that is chosen has the lowest score, and those with the same score stand behind it. -/
theorem best?_spec {score : Path → Binary64} (hscore : ∀ p, (score p).isNaN = false) {ps : List Path}
    {p : Path} (h : best? score ps = some p) :
    (∀ q ∈ ps, (score p).orderKey ≤ (score q).orderKey) ∧
      ∀ q ∈ ps, (score q).orderKey ≤ (score p).orderKey → ps.idxOf p ≤ ps.idxOf q := by
  have key : ∀ (ps : List Path) (b : Path),
      ps.foldl (List.argAux fun q b => (score q).orderKey < (score b).orderKey) (some b) =
        some (ps.foldl (fun b q => if (score q).lt (score b) then q else b) b) := by
    intro ps
    induction ps with
    | nil => exact fun _ => rfl
    | cons q ps ih =>
      intro b
      rw [List.foldl_cons, List.foldl_cons, ← ih]
      simp only [List.argAux, Binary64.lt_iff (hscore q) (hscore b)]
      split_ifs <;> rfl
  have hargmin : best? score ps = ps.argmin fun p => (score p).orderKey := by
    cases ps with
    | nil => rfl
    | cons p ps => exact (key ps p).symm
  rw [hargmin] at h
  exact (List.mem_argmin_iff.mp h).2

theorem FreeWalk.exists_shortest {w : List Segment} (h : g.FreeWalk blocked start w finish) :
    ∃ v, g.Shortest blocked start v finish := by
  classical
  have hex : ∃ n v, g.FreeWalk blocked start v finish ∧ v.length = n := ⟨w.length, w, h, rfl⟩
  obtain ⟨v, hv, hlength⟩ := Nat.find_spec hex
  refine ⟨v, hv, ?_⟩
  intro u hu
  rw [hlength]
  exact Nat.find_min' hex ⟨u, hu, rfl⟩

theorem FreeWalk.mono {blocked' : Location → Bool} {w : List Segment}
    (hle : ∀ l, blocked l = true → blocked' l = true) (h : g.FreeWalk blocked' start w finish) :
    g.FreeWalk blocked start w finish := by
  have hfree : ∀ l, blocked' l = false → blocked l = false := by
    intro l hl
    by_contra hblocked
    rw [hle l (by simpa using hblocked)] at hl
    cases hl
  exact ⟨h.exists_start, hfree _ h.free_start, h.walk, fun s hs => hfree _ (h.free s hs)⟩

variable {h : Heuristic} {accepted : List (List Lane)}

theorem findPath?_eq_none_iff : g.findPath? h accepted start finish blocked = none ↔
    ∀ w, ¬ g.FreeWalk blocked start w finish := by
  have hnil : g.findPath? h accepted start finish blocked = none ↔
      g.shortestPaths start finish blocked = [] := by
    unfold findPath?
    cases g.shortestPaths start finish blocked <;> simp [best?]
  rw [hnil, List.eq_nil_iff_forall_not_mem]
  constructor
  · intro hnone w hw
    obtain ⟨v, hv⟩ := hw.exists_shortest
    exact hnone ⟨start, v⟩ (mem_shortestPaths_iff.mpr ⟨rfl, hv⟩)
  · intro hnone p hp
    exact hnone _ (mem_shortestPaths_iff.mp hp).2.1

theorem shortest_of_findPath? {p : Path} (hp : g.findPath? h accepted start finish blocked = some p) :
    p.start = start ∧ g.Shortest blocked start p.segments finish :=
  mem_shortestPaths_iff.mp (mem_of_best? hp)

/-- With fewer blocked locations a path is still found, and it is no longer than before. -/
theorem exists_findPath?_of_unblocked (h : Heuristic) (accepted : List (List Lane))
    {blocked' : Location → Bool} {h' : Heuristic} {accepted' : List (List Lane)} {p' : Path}
    (hle : ∀ l, blocked l = true → blocked' l = true)
    (hp' : g.findPath? h' accepted' start finish blocked' = some p') :
    ∃ p, g.findPath? h accepted start finish blocked = some p ∧ p.length ≤ p'.length := by
  have hfree := (shortest_of_findPath? hp').2.1.mono hle
  cases hp : g.findPath? h accepted start finish blocked with
  | none => exact absurd hfree (findPath?_eq_none_iff.mp hp _)
  | some p => exact ⟨p, rfl, (shortest_of_findPath? hp).2.2 _ hfree⟩

theorem map_length_findPath? (h h' : Heuristic) (accepted accepted' : List (List Lane)) :
    (g.findPath? h' accepted' start finish blocked).map Path.length =
      (g.findPath? h accepted start finish blocked).map Path.length := by
  have hself : ∀ l, blocked l = true → blocked l = true := fun _ hl => hl
  cases hp : g.findPath? h accepted start finish blocked with
  | none =>
    rw [findPath?_eq_none_iff.mpr (findPath?_eq_none_iff.mp hp)]
  | some p =>
    obtain ⟨p', hp', hle⟩ := exists_findPath?_of_unblocked h' accepted' hself hp
    obtain ⟨p'', hp'', hle'⟩ := exists_findPath?_of_unblocked h accepted hself hp'
    obtain rfl : p = p'' := Option.some.inj (hp.symm.trans hp'')
    rw [hp', Option.map_some, Option.map_some, Nat.le_antisymm hle hle']

/-- The path that is found is the best of the shortest ones. There is none only if no free walk joins the
ends; otherwise it is a shortest free walk, no other shortest one has a lower score, and those with the
same score stand behind it. Its length is the same under any heuristic, and it does not grow when locations
are unblocked. -/
theorem findPath?_optimal (hc : h.Comparable) (g : LaneGraph) (accepted : List (List Lane))
    (start finish : Location) (blocked : Location → Bool) :
    (g.findPath? h accepted start finish blocked = none ↔
      ∀ w, ¬ g.FreeWalk blocked start w finish) ∧
    (∀ p, g.findPath? h accepted start finish blocked = some p →
      p.start = start ∧ g.Shortest blocked start p.segments finish ∧
      (∀ q : Path, q.start = start → g.Shortest blocked start q.segments finish →
        (h.score accepted q.locations q.lanes).lt (h.score accepted p.locations p.lanes) = false) ∧
      ∀ q ∈ g.shortestPaths start finish blocked,
        (h.score accepted p.locations p.lanes).lt (h.score accepted q.locations q.lanes) = false →
        (g.shortestPaths start finish blocked).idxOf p ≤
          (g.shortestPaths start finish blocked).idxOf q) ∧
    (∀ h' accepted', (g.findPath? h' accepted' start finish blocked).map Path.length =
      (g.findPath? h accepted start finish blocked).map Path.length) ∧
    ∀ blocked' h' accepted' p', (∀ l, blocked l = true → blocked' l = true) →
      g.findPath? h' accepted' start finish blocked' = some p' →
      ∃ p, g.findPath? h accepted start finish blocked = some p ∧ p.length ≤ p'.length := by
  refine ⟨findPath?_eq_none_iff, ?_, fun h' accepted' => map_length_findPath? h h' accepted accepted',
    fun _ _ _ _ => exists_findPath?_of_unblocked h accepted⟩
  intro p hp
  obtain ⟨hstart, hshortest⟩ := shortest_of_findPath? hp
  obtain ⟨hmin, hfirst⟩ := best?_spec (fun q => hc accepted q.locations q.lanes) hp
  have hlt : ∀ p q : Path, (h.score accepted p.locations p.lanes).lt
      (h.score accepted q.locations q.lanes) = false ↔
      (h.score accepted q.locations q.lanes).orderKey ≤
        (h.score accepted p.locations p.lanes).orderKey := by
    intro p q
    rw [← Bool.not_eq_true, Binary64.lt_iff (hc _ _ _) (hc _ _ _), not_lt]
  refine ⟨hstart, hshortest, ?_, ?_⟩
  · intro q hq hq'
    exact (hlt q p).mpr (hmin q (mem_shortestPaths_iff.mpr ⟨hq, hq'⟩))
  · intro q hq hle
    exact hfirst q hq ((hlt p q).mp hle)

/-- Of four shortest paths the last two have the lowest score, and the first of these is found. -/
theorem findPath?_optimal_braided : ∃ p, (Heuristic.weighted [1, 0, 1] []).Comparable ∧
    overBraided.findPath? (.weighted [1, 0, 1] []) [] ⟨0, 0⟩ ⟨0, 3⟩ (fun _ => false) = some p ∧
    p.locations = [⟨0, 0⟩, ⟨0, 2⟩, ⟨0, 3⟩] ∧
    overBraided.Shortest (fun _ => false) ⟨0, 0⟩ p.segments ⟨0, 3⟩ ∧
    ∀ q ∈ overBraided.shortestPaths ⟨0, 0⟩ ⟨0, 3⟩ (fun _ => false),
      ((Heuristic.weighted [1, 0, 1] []).score [] p.locations p.lanes).lt
        ((Heuristic.weighted [1, 0, 1] []).score [] q.locations q.lanes) = false →
      (overBraided.shortestPaths ⟨0, 0⟩ ⟨0, 3⟩ (fun _ => false)).idxOf p ≤
        (overBraided.shortestPaths ⟨0, 0⟩ ⟨0, 3⟩ (fun _ => false)).idxOf q := by
  have hfound : (overBraided.findPath? (.weighted [1, 0, 1] []) [] ⟨0, 0⟩ ⟨0, 3⟩
      (fun _ => false)).any (fun p => p.locations = [⟨0, 0⟩, ⟨0, 2⟩, ⟨0, 3⟩]) = true := by
    decide +kernel
  obtain ⟨p, hp, hlocations⟩ := (Option.any_eq_true _ _).mp hfound
  have hcomparable := Heuristic.comparable_weighted [1, 0, 1] []
  obtain ⟨_, hshortest, _, hfirst⟩ := (findPath?_optimal hcomparable _ _ _ _ _).2.1 p hp
  exact ⟨p, hcomparable, hp, of_decide_eq_true hlocations, hshortest, hfirst⟩

end LaneGraph

end AtomTransport
