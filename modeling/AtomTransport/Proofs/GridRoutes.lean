import AtomTransport.Proofs.Grid
import AtomTransport.Proofs.PathChoice
import AtomTransport.Proofs.Route

/-!
# Routes on a grid

On a grid any location is at most three lanes away from any other: a site lane changes the side of the
word, and a word lane carries a right site to another word. A walk is on the side where it started after
an even number of site lanes, and it keeps its site if it has none. So a walk that crosses words twice is
never shortest, and every shortest path between two locations can be split into a route, whichever of them
a heuristic prefers.
-/

namespace AtomTransport

namespace LaneGraph

variable {g : LaneGraph} {blocked : Location → Bool} {a : Location} {n : Nat}

theorem Within.snoc {e : Segment} (h : g.Within blocked a n e.src) (he : e ∈ g.edges)
    (hfree : blocked e.dst = false) : g.Within blocked a (n + 1) e.dst := by
  obtain ⟨w, hw, hlength⟩ := h
  refine ⟨w ++ [e], hw.snoc he hfree, ?_⟩
  rw [List.length_append, List.length_singleton]
  omega

end LaneGraph

namespace Device

variable {words columns : Nat} {d : Device} {a b c : Location} {w : List Segment}

theorem length_eq_add_crossings (w : List Segment) : w.length =
    w.countP (·.lane.kind = .site) + (w.filter (·.lane.kind = .word)).length := by
  rw [← List.countP_eq_length_filter, List.length_eq_countP_add_countP fun s => s.lane.kind = .site]
  congr 1
  refine List.countP_congr fun s _ => ?_
  cases s.lane.kind <;> simp

def SameSide (columns : Nat) (a b : Location) : Prop := a.site < columns ↔ b.site < columns

def Near (d : Device) (n : Nat) (a b : Location) : Prop :=
  (LaneGraph.ofDevice d).Within (fun _ => false) a n b

theorem Near.refl (ha : d.hasLocation a = true) : d.Near 0 a a :=
  ⟨[], .nil ha rfl, Nat.le_refl 0⟩

theorem Near.length_le {n : Nat} (h : d.Near n a b)
    (hshort : (LaneGraph.ofDevice d).Shortest (fun _ => false) a w b) : w.length ≤ n := by
  obtain ⟨v, hv, hle⟩ := h
  exact (hshort.2 v hv).trans hle

section Reach

variable (h : grid words columns = .ok d)
include h

theorem Near.step {n : Nat} (hnear : d.Near n a b) (hc : d.hasLocation c = true) (kind : LaneKind)
    (hlane : GridLane columns kind b c) : d.Near (n + 1) a c := by
  obtain ⟨w, hw, -⟩ := id hnear
  obtain ⟨e, he, -, rfl, rfl⟩ := (exists_edge_grid_iff h).mpr ⟨hw.finish.1, hc, hlane⟩
  exact LaneGraph.Within.snoc hnear he rfl

/-- The other side of a word is one lane away, and two lanes lead to the other side of another word. -/
theorem near_of_not_sameSide (ha : d.hasLocation a = true) (hb : d.hasLocation b = true)
    (hside : ¬ SameSide columns a b) : d.Near (if a.word = b.word then 1 else 2) a b := by
  have hwords := (hasLocation_grid_iff h).mp ha
  have hwords' := (hasLocation_grid_iff h).mp hb
  unfold SameSide at hside
  split_ifs with hword
  · exact (Near.refl ha).step h hb .site ⟨hword, by omega⟩
  · by_cases hleft : a.site < columns
    · have hmid : d.hasLocation ⟨a.word, b.site⟩ = true :=
        (hasLocation_grid_iff h).mpr ⟨hwords.1, hwords'.2⟩
      have hnear : d.Near 1 a ⟨a.word, b.site⟩ :=
        (Near.refl ha).step h hmid .site ⟨rfl, by simp only; omega⟩
      exact hnear.step h hb .word ⟨rfl, by simp only; omega, hword⟩
    · have hmid : d.hasLocation ⟨b.word, a.site⟩ = true :=
        (hasLocation_grid_iff h).mpr ⟨hwords'.1, hwords.2⟩
      have hnear : d.Near 1 a ⟨b.word, a.site⟩ :=
        (Near.refl ha).step h hmid .word ⟨rfl, by omega, hword⟩
      exact hnear.step h hb .site ⟨rfl, by simp only; omega⟩

theorem near_of_sameSide (ha : d.hasLocation a = true) (hb : d.hasLocation b = true)
    (hside : SameSide columns a b) :
    d.Near (if a.word = b.word then 2 else 3) a b := by
  have hwords := (hasLocation_grid_iff h).mp hb
  unfold SameSide at hside
  obtain ⟨site, hsite, hother⟩ : ∃ site < 2 * columns, ¬ (site < columns ↔ b.site < columns) := by
    by_cases hleft : b.site < columns
    · exact ⟨columns, by omega, by omega⟩
    · exact ⟨0, by omega, by omega⟩
  have hmid : d.hasLocation ⟨b.word, site⟩ = true := (hasLocation_grid_iff h).mpr ⟨hwords.1, hsite⟩
  have hnear := near_of_not_sameSide h (b := ⟨b.word, site⟩) ha hmid (by unfold SameSide; simp only; omega)
  have hlast := hnear.step h hb .site ⟨rfl, by simp only; omega⟩
  split_ifs with hword
  · simpa only [if_pos hword] using hlast
  · simpa only [if_neg hword] using hlast

theorem near_three (ha : d.hasLocation a = true) (hb : d.hasLocation b = true) : d.Near 3 a b := by
  by_cases hside : SameSide columns a b
  · obtain ⟨w, hw, hlength⟩ := near_of_sameSide h ha hb hside
    refine ⟨w, hw, ?_⟩
    split_ifs at hlength <;> omega
  · obtain ⟨w, hw, hlength⟩ := near_of_not_sameSide h ha hb hside
    refine ⟨w, hw, ?_⟩
    split_ifs at hlength <;> omega

theorem gridLane_of_mem {e : Segment} (he : e ∈ d.edges) : GridLane columns e.lane.kind e.src e.dst :=
  ((exists_edge_grid_iff h).mp ⟨e, he, rfl, rfl, rfl⟩).2.2

/-- Every site lane changes the side, and only site lanes change the site. -/
theorem sites_of_walk (hw : Walk d.edges a w b) :
    (SameSide columns a b ↔ w.countP (·.lane.kind = .site) % 2 = 0) ∧
      (w.countP (·.lane.kind = .site) = 0 → a.site = b.site) := by
  unfold SameSide
  induction w generalizing a with
  | nil =>
    obtain rfl : a = b := hw
    simp
  | cons e w ih =>
    obtain ⟨he, rfl, hw⟩ := hw
    obtain ⟨hside, hsite⟩ := ih hw
    have hlane := gridLane_of_mem h he
    cases hkind : e.lane.kind with
    | site =>
      rw [hkind] at hlane
      have hturn := hlane.2
      rw [List.countP_cons_of_pos (by simp [hkind])]
      omega
    | word =>
      rw [hkind] at hlane
      have hkeep := hlane.1
      rw [List.countP_cons_of_neg (by simp [hkind])]
      omega

theorem word_of_walk (hw : Walk d.edges a w b) (hsites : ∀ s ∈ w, s.lane.kind = .site) :
    a.word = b.word := by
  induction w generalizing a with
  | nil => exact congrArg Location.word hw
  | cons e w ih =>
    obtain ⟨he, rfl, hw⟩ := hw
    rw [List.forall_mem_cons] at hsites
    have hlane := gridLane_of_mem h he
    rw [hsites.1] at hlane
    exact hlane.1.trans (ih hw hsites.2)

theorem wordPair?_of_walk {r : Route} (hr : Route.ofPath? ⟨a, w⟩ = some r) (hw : Walk d.edges a w b) :
    r.wordPair? = if a.word = b.word then none else some (a.word, b.word) := by
  obtain ⟨halign, hcross, hsettle⟩ := Route.kinds_of_ofPath? hr
  have hsegments : r.segments = w := congrArg Path.segments (Route.toPath_of_ofPath? hr).2
  rw [← hsegments, Route.segments] at hw
  obtain ⟨m', hw, hlast⟩ := hw.split
  obtain ⟨m, hfirst, hmiddle⟩ := hw.split
  have hstart := word_of_walk h hfirst halign
  have hend := word_of_walk h hlast hsettle
  rw [Route.wordPair?]
  cases hcase : r.cross with
  | none =>
    rw [hcase] at hmiddle
    obtain rfl : m = m' := hmiddle
    rw [if_pos (hstart.trans hend)]
    rfl
  | some s =>
    rw [hcase] at hmiddle hcross
    obtain ⟨hs, rfl, rfl⟩ := hmiddle
    have hlane := gridLane_of_mem h hs
    rw [hcross s (by simp)] at hlane
    rw [hstart, ← hend, if_neg hlane.2.2]
    rfl

theorem near_of_crossings (hw : Walk d.edges a w b) (hab : a ≠ b)
    (hcrossings : w.countP (·.lane.kind = .site) = 0) (ha : d.hasLocation a = true)
    (hb : d.hasLocation b = true) : d.Near 1 a b := by
  have hsite := (sites_of_walk h hw).2 hcrossings
  have hword : a.word ≠ b.word := by
    intro hword
    exact hab (Location.mk.injEq .. ▸ ⟨hword, hsite⟩)
  have hright : columns ≤ a.site := by
    cases w with
    | nil => exact absurd hw hab
    | cons e w =>
      obtain ⟨he, rfl, -⟩ := hw
      have hlane := gridLane_of_mem h he
      cases hkind : e.lane.kind with
      | site => simp [hkind] at hcrossings
      | word =>
        rw [hkind] at hlane
        exact hlane.2.1
  exact (Near.refl ha).step h hb .word ⟨hsite, hright, hword⟩

/-- No shortest walk crosses words twice. -/
theorem crossings_of_shortest (hab : a ≠ b)
    (hshort : (LaneGraph.ofDevice d).Shortest (fun _ => false) a w b) :
    (w.filter (·.lane.kind = .word)).length ≤ 1 := by
  have hwalk : Walk d.edges a w b := hshort.1.walk
  have ha := hshort.1.exists_start
  have hb := hshort.1.finish.1
  have hthree := (near_three h ha hb).length_le hshort
  have hcount := length_eq_add_crossings w
  by_contra hcross
  by_cases hnone : w.countP (·.lane.kind = .site) = 0
  · have hone := (near_of_crossings h hwalk hab hnone ha hb).length_le hshort
    omega
  · have hother : ¬ SameSide columns a b := by
      rw [(sites_of_walk h hwalk).1]
      omega
    have htwo := (near_of_not_sameSide h ha hb hother).length_le hshort
    split_ifs at htwo <;> omega

theorem length_of_route (hab : a ≠ b) (hword : a.word = b.word) {r : Route}
    (hr : Route.ofPath? ⟨a, w⟩ = some r)
    (hshort : (LaneGraph.ofDevice d).Shortest (fun _ => false) a w b) :
    (SameSide columns a b → r.length = 2) ∧ (¬ SameSide columns a b → r.length = 1) := by
  have hwalk : Walk d.edges a w b := hshort.1.walk
  have ha := hshort.1.exists_start
  have hb := hshort.1.finish.1
  have hlength : r.length = w.length := congrArg Path.length (Route.toPath_of_ofPath? hr).2
  have hne : w.length ≠ 0 := by
    intro hnil
    rw [List.eq_nil_of_length_eq_zero hnil] at hwalk
    exact hab hwalk
  have hpair := wordPair?_of_walk h hr hwalk
  rw [if_pos hword] at hpair
  have hcross : w.filter (·.lane.kind = .word) = [] := by
    rw [Route.crossings_of_ofPath? hr, Option.map_eq_none_iff.mp hpair]
    rfl
  have hcount := length_eq_add_crossings w
  rw [hcross, List.length_nil, Nat.add_zero] at hcount
  have hparity := (sites_of_walk h hwalk).1
  rw [hlength]
  constructor
  · intro hside
    have hle := (near_of_sameSide h ha hb hside).length_le hshort
    rw [if_pos hword] at hle
    have heven := hparity.mp hside
    omega
  · intro hside
    have hle := (near_of_not_sameSide h ha hb hside).length_le hshort
    rw [if_pos hword] at hle
    omega

end Reach

/-- Every grid is a device, as long as its identifiers have at most twenty bits, and any two of its locations
are joined by a route of at most three lanes, whatever the heuristic prefers. No shortest path between them
crosses words twice, so that the route crosses exactly if the words are different, and then from the one to
the other. Inside a word it has one lane to the other side and two lanes to another site of the same side. -/
theorem grid_routable (words columns : Nat) (hwords : 1 ≤ words) (hwordIds : words ≤ 2 ^ 20)
    (hsiteIds : 2 * columns ≤ 2 ^ 20) :
    ∃ d, grid words columns = .ok d ∧
      (∀ l, d.checkLocation l = .ok () ↔ l.word < words ∧ l.site < 2 * columns) ∧
      ∀ a b, d.checkLocation a = .ok () → d.checkLocation b = .ok () → a ≠ b →
        (∀ p ∈ (LaneGraph.ofDevice d).shortestPaths a b (fun _ => false),
          (p.segments.filter (·.lane.kind = .word)).length ≤ 1) ∧
        ∀ h, ∃ r, Route.plan (.ofDevice d) h a b (fun _ => false) = .ok r ∧
          r.start = a ∧ r.finish = b ∧ r.length ≤ 3 ∧
          r.wordPair? = (if a.word = b.word then none else some (a.word, b.word)) ∧
          (a.word = b.word → SameSide columns a b → r.length = 2) ∧
          (a.word = b.word → ¬ SameSide columns a b → r.length = 1) := by
  obtain ⟨d, hd⟩ := exists_grid hwords hwordIds hsiteIds
  refine ⟨d, hd, fun l => by rw [checkLocation_eq_ok_iff, hasLocation_grid_iff hd], ?_⟩
  intro a b ha hb hab
  have hthree := near_three hd (checkLocation_eq_ok_iff.mp ha) (checkLocation_eq_ok_iff.mp hb)
  refine ⟨?_, ?_⟩
  · intro p hp
    exact crossings_of_shortest hd hab (LaneGraph.mem_shortestPaths_iff.mp hp).2
  · intro h
    cases hp : (LaneGraph.ofDevice d).findPath? h [] a b (fun _ => false) with
    | none =>
      obtain ⟨v, hv, -⟩ := hthree
      exact absurd hv (LaneGraph.findPath?_eq_none_iff.mp hp v)
    | some p =>
      obtain ⟨start, w⟩ := p
      obtain ⟨rfl, hshort⟩ := LaneGraph.shortest_of_findPath? hp
      obtain ⟨r, hr⟩ := Route.exists_ofPath?_iff.mpr (crossings_of_shortest hd hab hshort)
      have hpath := (Route.toPath_of_ofPath? hr).2
      have hwalk : Walk d.edges start w b := hshort.1.walk
      have hfinish : r.finish = b := by
        rw [Route.finish, hpath]
        exact hwalk.finish_eq
      have hlength : r.length ≤ 3 := by
        rw [show r.length = w.length from congrArg Path.length hpath]
        exact hthree.length_le hshort
      exact ⟨r, Route.plan_eq_ok ha hb hp hr, congrArg Path.start hpath, hfinish, hlength,
        wordPair?_of_walk hd hr hwalk,
        fun hword => (length_of_route hd hab hword hr hshort).1,
        fun hword => (length_of_route hd hab hword hr hshort).2⟩

/-- On three words of eight sites an atom goes from the left of the first word to the left of the last one,
along the left side of the middle word, and across it. -/
theorem grid_routable_three_words : ∃ d, grid 3 4 = .ok d ∧
    (∃ r, Route.plan (.ofDevice d) .busReuse ⟨0, 1⟩ ⟨2, 3⟩ (fun _ => false) = .ok r ∧ r.length ≤ 3 ∧
      r.wordPair? = some (0, 2)) ∧
    (∃ r, Route.plan (.ofDevice d) .zero ⟨1, 0⟩ ⟨1, 3⟩ (fun _ => false) = .ok r ∧ r.length = 2 ∧
      r.wordPair? = none) ∧
    ∃ r, Route.plan (.ofDevice d) .busReuse ⟨1, 7⟩ ⟨1, 2⟩ (fun _ => false) = .ok r ∧ r.length = 1 ∧
      r.wordPair? = none := by
  obtain ⟨d, hd, hlocations, hroutes⟩ := grid_routable 3 4 (by omega) (by omega) (by omega)
  refine ⟨d, hd, ?_, ?_, ?_⟩
  · obtain ⟨r, hr, -, -, hlength, hpair, -⟩ := (hroutes ⟨0, 1⟩ ⟨2, 3⟩ ((hlocations _).mpr (by decide))
      ((hlocations _).mpr (by decide)) (by decide)).2 .busReuse
    exact ⟨r, hr, hlength, hpair⟩
  · obtain ⟨r, hr, -, -, -, hpair, hsame, -⟩ := (hroutes ⟨1, 0⟩ ⟨1, 3⟩ ((hlocations _).mpr (by decide))
      ((hlocations _).mpr (by decide)) (by decide)).2 .zero
    exact ⟨r, hr, hsame rfl (by unfold SameSide; decide), hpair⟩
  · obtain ⟨r, hr, -, -, -, hpair, -, hother⟩ := (hroutes ⟨1, 7⟩ ⟨1, 2⟩ ((hlocations _).mpr (by decide))
      ((hlocations _).mpr (by decide)) (by decide)).2 .busReuse
    exact ⟨r, hr, hother rfl (by unfold SameSide; decide), hpair⟩

end Device

end AtomTransport
