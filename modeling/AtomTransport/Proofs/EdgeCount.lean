import AtomTransport.Proofs.LaneTables

/-!
# How often an edge occurs

The lane graph has one forward and one backward edge for every pair of a site bus in every word that
rides site buses, and for every pair of a word bus on every site that rides word buses, wherever both ends
exist. As an equation: a segment occurs as often in the graph as the buses list it.
-/

namespace AtomTransport

theorem count_flatMap_place {β : Type} [DecidableEq β] {b : β} {f : Nat → List β} {x : Nat}
    (h : ∀ y, y ≠ x → (f y).count b = 0) (xs : List Nat) :
    (xs.flatMap f).count b = xs.count x * (f x).count b := by
  induction xs with
  | nil => simp
  | cons y xs ih =>
    rw [List.flatMap_cons, List.count_append, ih]
    by_cases hy : y = x
    · rw [hy, List.count_cons_self, Nat.succ_mul, Nat.add_comm]
    · rw [h y hy, List.count_cons_of_ne hy, Nat.zero_add]

theorem count_flatMap_zipIdx {α β : Type} [DecidableEq β] {b : β} {f : α × Nat → List β} {i : Nat}
    (h : ∀ x j, j ≠ i → (f (x, j)).count b = 0) (xs : List α) :
    (xs.zipIdx.flatMap f).count b = (xs[i]?.map fun x => (f (x, i)).count b).getD 0 := by
  have key : ∀ (xs : List α) (n : Nat), n ≤ i → ((xs.zipIdx n).flatMap f).count b =
      (xs[i - n]?.map fun x => (f (x, i)).count b).getD 0 := by
    intro xs
    induction xs with
    | nil => simp
    | cons x xs ih =>
      intro n hn
      rw [List.zipIdx_cons, List.flatMap_cons, List.count_append]
      by_cases hni : n = i
      · subst hni
        have hrest : ((xs.zipIdx (n + 1)).flatMap f).count b = 0 := by
          rw [List.count_eq_zero, List.mem_flatMap]
          rintro ⟨⟨y, j⟩, hy, hb⟩
          have hj := List.le_snd_of_mem_zipIdx hy
          exact List.count_eq_zero.mp (h y j (by omega)) hb
        simp [hrest]
      · have hsucc : i - n = i - (n + 1) + 1 := by omega
        rw [h x n hni, Nat.zero_add, ih (n + 1) (by omega), hsucc, List.getElem?_cons_succ]
  simpa using key xs 0 (Nat.zero_le i)

theorem count_flatMap_countP {α β : Type} [DecidableEq β] {b : β} {f : α → List β} {p : α → Bool}
    {c : Nat} (h : ∀ x, (f x).count b = if p x then c else 0) (xs : List α) :
    (xs.flatMap f).count b = c * xs.countP p := by
  induction xs with
  | nil => simp
  | cons x xs ih =>
    rw [List.flatMap_cons, List.count_append, ih, h x, List.countP_cons]
    split_ifs
    · rw [Nat.mul_add, Nat.mul_one, Nat.add_comm]
    · rw [Nat.zero_add, Nat.add_zero]

namespace Device

variable (d : Device)

def listings (lane : Lane) : Nat :=
  match lane.kind with
  | .site => d.blueprint.siteBusWords.count lane.word
  | .word => d.blueprint.wordBusSites.count lane.site

def joins (e : Segment) (pair : Nat × Nat) : Bool :=
  pair.1 = e.lane.entry && e.lane.ends (e.lane.landing pair.2) = (e.src, e.dst)

/-- The number of bus pairs that give a segment. Both of its ends have to exist. -/
def multiplicity (e : Segment) : Nat :=
  if d.hasLocation e.src && d.hasLocation e.dst then
    d.listings e.lane *
      (((d.buses e.lane.kind)[e.lane.bus]?).map fun bus => bus.pairs.countP (joins e)).getD 0
  else 0

variable {d} {e : Segment}

theorem mem_laneEdges (forward : Lane) (hforward : forward.direction = .forward) (l : Location) :
    e ∈ d.laneEdges forward forward.source l ↔ forward = { e.lane with direction := .forward } ∧
      e.lane.ends l = (e.src, e.dst) ∧ d.hasLocation e.src = true ∧ d.hasLocation e.dst = true := by
  obtain ⟨⟨kind, word, site, i, dir⟩, src, dst⟩ := e
  constructor
  · intro he
    obtain ⟨hsrc, hdst⟩ := hasLocation_of_mem_laneEdges he
    obtain ⟨kind', word', site', i', dir'⟩ := forward
    cases hforward
    unfold laneEdges at he
    split_ifs at he
    · rcases List.mem_pair.mp he with heq | heq <;> cases heq
      · exact ⟨rfl, rfl, hsrc, hdst⟩
      · exact ⟨rfl, rfl, hsrc, hdst⟩
    · cases he
  · rintro ⟨rfl, hends, hsrc, hdst⟩
    cases dir with
    | forward =>
      obtain ⟨rfl, rfl⟩ : (⟨word, site⟩ : Location) = src ∧ l = dst := Prod.mk.inj hends
      rw [laneEdges, if_pos (Bool.and_eq_true _ _ ▸ ⟨hsrc, hdst⟩)]
      exact List.mem_cons_self
    | backward =>
      obtain ⟨rfl, rfl⟩ : l = src ∧ (⟨word, site⟩ : Location) = dst := Prod.mk.inj hends
      rw [laneEdges, if_pos (Bool.and_eq_true _ _ ▸ ⟨hdst, hsrc⟩)]
      exact List.mem_cons_of_mem _ List.mem_cons_self

theorem nodup_laneEdges {forward : Lane} (hforward : forward.direction = .forward) (src dst : Location) :
    (d.laneEdges forward src dst).Nodup := by
  have hreverse : forward ≠ forward.reverse := by
    intro heq
    have hdirection := congrArg Lane.direction heq
    rw [Lane.reverse, hforward] at hdirection
    cases hdirection
  unfold laneEdges
  split_ifs
  · simp [hreverse]
  · exact List.nodup_nil

/-- A pair gives a segment one edge, if it joins the ends of the segment and these exist. -/
theorem count_boarding (pair : Nat × Nat) :
    (d.laneEdges (e.lane.boarding pair.1) (e.lane.boarding pair.1).source
      (e.lane.landing pair.2)).count e =
      if joins e pair then (if d.hasLocation e.src && d.hasLocation e.dst then 1 else 0) else 0 := by
  have hforward : (e.lane.boarding pair.1).direction = .forward := by
    unfold Lane.boarding
    cases e.lane.kind <;> rfl
  have hentry : e.lane.boarding pair.1 = { e.lane with direction := .forward } ↔
      pair.1 = e.lane.entry := by
    obtain ⟨⟨kind, word, site, i, dir⟩, src, dst⟩ := e
    cases kind <;> simp [Lane.boarding, Lane.entry]
  rw [(nodup_laneEdges hforward _ _).count, ← ite_and]
  simp only [mem_laneEdges _ hforward, hentry, joins, Bool.and_eq_true, decide_eq_true_eq, and_assoc]

theorem count_siteEdges {word site i : Nat} {dir : Direction} {src dst : Location} :
    d.siteEdges.count ⟨⟨.site, word, site, i, dir⟩, src, dst⟩ =
      d.multiplicity ⟨⟨.site, word, site, i, dir⟩, src, dst⟩ := by
  rw [siteEdges, count_flatMap_place (x := word), count_flatMap_zipIdx (i := i)]
  · cases hbus : (d.buses .site)[i]? with
    | none => simp [multiplicity, hbus]
    | some bus =>
      have hpairs := count_flatMap_countP
        (count_boarding (d := d) (e := ⟨⟨.site, word, site, i, dir⟩, src, dst⟩)) bus.pairs
      simp only [multiplicity, hbus, Option.map_some, Option.getD_some, listings]
      refine (congrArg _ hpairs).trans ?_
      split_ifs <;> simp
  · intro bus j hj
    rw [List.count_eq_zero, List.mem_flatMap]
    rintro ⟨pair, _, he⟩
    have hlane := ((mem_laneEdges ⟨.site, word, pair.1, j, .forward⟩ rfl _).mp he).1
    exact hj (congrArg Lane.bus hlane)
  · intro w hw
    simp only [List.count_eq_zero, List.mem_flatMap]
    rintro ⟨bus, _, pair, _, he⟩
    have hlane := ((mem_laneEdges ⟨.site, w, pair.1, bus.2, .forward⟩ rfl _).mp he).1
    exact hw (congrArg Lane.word hlane)

theorem count_wordEdges {word site i : Nat} {dir : Direction} {src dst : Location} :
    d.wordEdges.count ⟨⟨.word, word, site, i, dir⟩, src, dst⟩ =
      d.multiplicity ⟨⟨.word, word, site, i, dir⟩, src, dst⟩ := by
  rw [wordEdges, count_flatMap_zipIdx (i := i)]
  · cases hbus : (d.buses .word)[i]? with
    | none => simp [multiplicity, hbus]
    | some bus =>
      have hsites : ∀ pair : Nat × Nat, (d.blueprint.wordBusSites.flatMap fun n =>
          d.laneEdges ⟨.word, pair.1, n, i, .forward⟩ ⟨pair.1, n⟩ ⟨pair.2, n⟩).count
            ⟨⟨.word, word, site, i, dir⟩, src, dst⟩ =
          if joins ⟨⟨.word, word, site, i, dir⟩, src, dst⟩ pair then d.blueprint.wordBusSites.count site *
            (if d.hasLocation src && d.hasLocation dst then 1 else 0) else 0 := by
        intro pair
        rw [count_flatMap_place (x := site)]
        · refine (congrArg _ (count_boarding pair)).trans ?_
          split_ifs <;> simp
        · intro n hn
          rw [List.count_eq_zero]
          intro he
          have hlane := ((mem_laneEdges ⟨.word, pair.1, n, i, .forward⟩ rfl _).mp he).1
          exact hn (congrArg Lane.site hlane)
      have hpairs := count_flatMap_countP hsites bus.pairs
      simp only [multiplicity, hbus, Option.map_some, Option.getD_some, listings]
      refine hpairs.trans ?_
      split_ifs <;> simp
  · intro bus j hj
    simp only [List.count_eq_zero, List.mem_flatMap]
    rintro ⟨pair, _, n, _, he⟩
    have hlane := ((mem_laneEdges ⟨.word, pair.1, n, j, .forward⟩ rfl _).mp he).1
    exact hj (congrArg Lane.bus hlane)

/-- The graph of a device has every segment as often as its buses list it. -/
theorem count_edges (d : Device) (e : Segment) : d.edges.count e = d.multiplicity e := by
  obtain ⟨⟨kind, word, site, i, dir⟩, src, dst⟩ := e
  rw [edges, List.count_append]
  cases kind with
  | site =>
    have hother : d.wordEdges.count ⟨⟨.site, word, site, i, dir⟩, src, dst⟩ = 0 := by
      simp only [List.count_eq_zero, wordEdges, List.mem_flatMap]
      rintro ⟨bus, _, pair, _, n, _, he⟩
      have hlane := ((mem_laneEdges ⟨.word, pair.1, n, bus.2, .forward⟩ rfl _).mp he).1
      cases congrArg Lane.kind hlane
    rw [count_siteEdges, hother, Nat.add_zero]
  | word =>
    have hother : d.siteEdges.count ⟨⟨.word, word, site, i, dir⟩, src, dst⟩ = 0 := by
      simp only [List.count_eq_zero, siteEdges, List.mem_flatMap]
      rintro ⟨w, _, bus, _, pair, _, he⟩
      have hlane := ((mem_laneEdges ⟨.site, w, pair.1, bus.2, .forward⟩ rfl _).mp he).1
      cases congrArg Lane.kind hlane
    rw [count_wordEdges, hother, Nat.zero_add]

end Device

end AtomTransport
