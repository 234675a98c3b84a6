import AtomTransport.Proofs.History

/-!
# Filling a device

New atoms are numbered after the largest qubit, whatever gaps there are among the smaller ones, so their
numbers are never taken. A filling succeeds exactly when its locations are free and different, and
otherwise stops at the first one that is not. The atoms that were there stay as they are.
-/

namespace AtomTransport.AtomMaps

variable {g : LaneGraph} {a a' : AtomMaps} {first : Qubit} {locations : List Location}

def IsNext (a : AtomMaps) (first : Qubit) : Prop :=
  a.isEmpty = true ∧ first = 0 ∨
    ∃ q l, a.locationOf? q = some l ∧ (∀ r m, a.locationOf? r = some m → r ≤ q) ∧ first = q + 1

/-- There is a new atom for every location, numbered in order and without moves, and the old atoms are as
before. -/
structure Filled (first : Qubit) (locations : List Location) (a a' : AtomMaps) : Prop where
  added : ∀ (j : Nat) l, locations[j]? = some l → a'.qubitAt? l = some (first + j) ∧
    a'.atomOf? (first + j) = some { qubit := first + j, location := l, moves := 0, lastLane := none }
  kept : ∀ q x, a.atomOf? q = some x → a'.atomOf? q = some x ∧ a'.qubitAt? x.location = some q
  known : ∀ q l, a'.locationOf? q = some l → a.locationOf? q = some l ∨ ∃ j, q = first + j ∧
    locations[j]? = some l
  occupied : ∀ l, l ∈ a'.occupied ↔ l ∈ a.occupied ∨ l ∈ locations

theorem mem_fresh {x : Atom} : x ∈ fresh first locations ↔
    ∃ j l, locations[j]? = some l ∧ x = { qubit := first + j, location := l } := by
  simp only [fresh, List.mem_map, Prod.exists, List.mk_mem_zipIdx_iff_le_and_getElem?_sub]
  constructor
  · rintro ⟨l, q, ⟨hle, hl⟩, rfl⟩
    exact ⟨q - first, l, hl, by rw [Nat.add_sub_cancel' hle]⟩
  · rintro ⟨j, l, hl, rfl⟩
    exact ⟨l, first + j, ⟨Nat.le_add_right _ _, by rwa [Nat.add_sub_cancel_left]⟩, rfl⟩

namespace WellFormed

theorem le_last (h : a.WellFormed) {q : Qubit} {l : Location} (hlast : a.locations.getLast? = some (q, l)) :
    ∀ r m, a.locationOf? r = some m → r ≤ q := by
  obtain ⟨rest, hlocations⟩ := List.getLast?_eq_some_iff.mp hlast
  have hsorted := h.locations
  rw [Ascending.Sorted, hlocations, List.map_append, List.pairwise_append] at hsorted
  intro r m hr
  have hmem : (r, m) ∈ a.locations := Ascending.mem_of_get? hr
  rw [hlocations, List.mem_append, List.mem_singleton] at hmem
  rcases hmem with hmem | heq
  · exact Nat.le_of_lt (hsorted.2.2 _ (List.mem_map_of_mem hmem) _ (by simp))
  · exact Nat.le_of_eq (congrArg Prod.fst heq)

theorem isNext_nextQubit (h : a.WellFormed) : a.IsNext a.nextQubit := by
  unfold nextQubit
  cases hlast : a.locations.getLast? with
  | none => exact Or.inl ⟨by simpa [isEmpty] using hlast, rfl⟩
  | some last =>
    have hmem := List.mem_of_getLast? hlast
    exact Or.inr ⟨last.1, last.2, (Ascending.get?_eq_some_iff h.locations.nodup).mpr hmem, h.le_last hlast, rfl⟩

theorem lt_nextQubit (h : a.WellFormed) : ∀ x ∈ a.list, x.qubit < a.nextQubit := by
  intro x hx
  obtain ⟨hl, _⟩ := h.mem_list.mp hx
  rcases h.isNext_nextQubit with ⟨hempty, _⟩ | ⟨q, l, _, hle, hnext⟩
  · rw [isEmpty, List.isEmpty_iff] at hempty
    rw [locationOf?, hempty] at hl
    cases hl
  · rw [hnext]
    exact Nat.lt_succ_of_le (hle _ _ hl)

theorem mem_occupied (h : a.WellFormed) {l : Location} : l ∈ a.occupied ↔ l ∈ a.list.map (·.location) := by
  rw [occupied, ← not_iff_not, ← h.qubitAt?_eq_none, qubitAt?, Ascending.get?_eq_none_iff]

theorem filled (hc : a.WellFormed) (hc' : a'.WellFormed) (hlist : a'.list = a.list ++ fresh first locations) :
    Filled first locations a a' := by
  constructor
  case added =>
    intro j l hl
    have hmem : { qubit := first + j, location := l } ∈ a'.list :=
      hlist ▸ List.mem_append_right _ (mem_fresh.mpr ⟨j, l, hl, rfl⟩)
    exact ⟨hc'.qubitAt?_eq_some.mpr (hc'.mem_list.mp hmem).1, hc'.atomOf?_eq_some.mpr ⟨hmem, rfl⟩⟩
  case kept =>
    intro q x hx
    obtain ⟨hmem, rfl⟩ := hc.atomOf?_eq_some.mp hx
    have hmem' : x ∈ a'.list := hlist ▸ List.mem_append_left _ hmem
    exact ⟨hc'.atomOf?_eq_some.mpr ⟨hmem', rfl⟩, hc'.qubitAt?_eq_some.mpr (hc'.mem_list.mp hmem').1⟩
  case known =>
    intro q l hq
    obtain ⟨x, hx, rfl, rfl⟩ := hc'.locationOf?_eq_some.mp hq
    rcases List.mem_append.mp (hlist ▸ hx) with hx | hx
    · exact Or.inl (hc.locationOf?_eq_some.mpr ⟨x, hx, rfl, rfl⟩)
    · obtain ⟨j, l, hl, rfl⟩ := mem_fresh.mp hx
      exact Or.inr ⟨j, rfl, hl⟩
  case occupied =>
    intro l
    rw [hc'.mem_occupied, hc.mem_occupied, hlist, List.map_append, List.mem_append, map_location_fresh]

end WellFormed

/-- A filling succeeds exactly when its locations are different and free. It fails at the first one that is
occupied or repeats an earlier one, and never because of a qubit. If it succeeds, the new qubits follow the
largest one in the order of the locations, and the atoms that were there are as before. -/
theorem fill_exact (h : Reachable g a) (locations : List Location) :
    ((∃ a', a.fill locations = .ok a') ↔
      locations.Nodup ∧ ∀ l ∈ locations, a.qubitAt? l = none) ∧
    (∀ e, a.fill locations = .error e → ∃ before l after, locations = before ++ l :: after ∧
      before.Nodup ∧ (∀ m ∈ before, a.qubitAt? m = none) ∧ (l ∈ before ∨ a.qubitAt? l ≠ none) ∧
      e = .occupiedSite l) ∧
    ∀ a', a.fill locations = .ok a' → ∃ first, a.IsNext first ∧ Filled first locations a a' := by
  have hc := h.wellFormed
  simp only [fill]
  rcases hc.fillWith_cases hc.lt_nextQubit locations with
    ⟨hnodup, hfree, next, hfill, hlist⟩ | ⟨before, l, after, hsplit, hnodup, hfree, hl, hfill⟩
  · simp only [hfill]
    refine ⟨⟨fun _ => ⟨hnodup, hfree⟩, fun _ => ⟨_, rfl⟩⟩, nofun, ?_⟩
    intro a' ha'
    cases ha'
    exact ⟨a.nextQubit, hc.isNext_nextQubit, hc.filled (hc.fillWith hfill) hlist⟩
  · simp only [hfill]
    refine ⟨⟨nofun, ?_⟩, ?_, nofun⟩
    · rintro ⟨hnodup', hfree'⟩
      rw [hsplit] at hnodup' hfree'
      rcases hl with hl | hl
      · exact absurd List.mem_cons_self ((List.nodup_append'.mp hnodup').2.2 hl)
      · exact absurd (hfree' l (List.mem_append_right _ List.mem_cons_self)) hl
    · intro e he
      cases he
      exact ⟨before, l, after, hsplit, hnodup, hfree, hl, rfl⟩

def gapped : AtomMaps where
  qubits := [(⟨0, 0⟩, 9), (⟨0, 1⟩, 4)]
  locations := [(4, ⟨0, 1⟩), (9, ⟨0, 0⟩)]
  counts := [(4, 0), (9, 0)]

/-- Past the gap a filling goes on with the qubit `10`; another one stops at a location that it has filled
itself, before it comes to one that was occupied. -/
theorem fill_exact_gapped :
    (∃ a' first, gapped.fill [⟨1, 1⟩, ⟨0, 2⟩] = .ok a' ∧ gapped.IsNext first ∧
      Filled first [⟨1, 1⟩, ⟨0, 2⟩] gapped a' ∧ a'.qubitAt? ⟨0, 2⟩ = some 11) ∧
    gapped.fill [⟨1, 0⟩, ⟨0, 2⟩, ⟨1, 0⟩, ⟨0, 0⟩] = .error (.occupiedSite ⟨1, 0⟩) ∧
      ∃ before l after, [⟨1, 0⟩, ⟨0, 2⟩, ⟨1, 0⟩, ⟨0, 0⟩] = before ++ l :: after ∧ before.Nodup ∧
        (∀ m ∈ before, gapped.qubitAt? m = none) ∧ (l ∈ before ∨ gapped.qubitAt? l ≠ none) ∧
        AtomError.occupiedSite ⟨1, 0⟩ = .occupiedSite l := by
  have hreachable : Reachable carousel gapped :=
    ⟨0, .fillWith [(⟨0, 0⟩, 9), (⟨0, 1⟩, 4)] .empty (by decide +kernel)⟩
  have herror : gapped.fill [⟨1, 0⟩, ⟨0, 2⟩, ⟨1, 0⟩, ⟨0, 0⟩] = .error (.occupiedSite ⟨1, 0⟩) := by
    decide +kernel
  obtain ⟨a', hfill, hqubit⟩ := exists_ok_of_any (x := gapped.fill [⟨1, 1⟩, ⟨0, 2⟩])
    (P := fun a' => a'.qubitAt? ⟨0, 2⟩ = some 11) (by decide +kernel)
  obtain ⟨first, hnext, hfilled⟩ := (fill_exact hreachable [⟨1, 1⟩, ⟨0, 2⟩]).2.2 a' hfill
  exact ⟨⟨a', first, hfill, hnext, hfilled, of_decide_eq_true hqubit⟩, herror,
    (fill_exact hreachable _).2.1 _ herror⟩

end AtomTransport.AtomMaps
