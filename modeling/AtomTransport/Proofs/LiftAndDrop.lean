import AtomTransport.AtomMaps
import AtomTransport.Proofs.OrderedMaps

/-!
# Fillings and moves keep the maps together

The four maps of the atoms fit together when the two between locations and qubits are inverse to each other,
exactly the present qubits have a count, and only present qubits have a last lane. While atoms are lifted the
two maps are inverse but for the lifted ones: each atom leaves the map of the locations when it is lifted, and
comes back into it when it is dropped. So an atom may go to a location that another one has left.
-/

namespace AtomTransport.AtomMaps

open Ascending (Sorted get? put erase get?_put get?_erase mem_of_get? get?_eq_none_iff map_fst_put)

variable {g : LaneGraph} {m m' : AtomMaps} {hops : List Hop} {lanes : List Lane} {l : Location}
  {q : Qubit} {lifted : List Qubit}

/-- The maps between locations and qubits are inverse to each other, but for the atoms that are lifted. -/
def InverseBut (lifted : List Qubit) (m : AtomMaps) : Prop :=
  ∀ l q, m.qubitAt? l = some q ↔ m.locationOf? q = some l ∧ q ∉ lifted

/-- The keys of all maps are in order, the present qubits have counts, and no others have last lanes. -/
structure Aligned (m : AtomMaps) : Prop where
  qubits : Sorted m.qubits
  locations : Sorted m.locations
  lastLanes : Sorted m.lastLanes
  counted : m.counts.map (·.1) = m.locations.map (·.1)
  ridden : ∀ q lane, m.lastLane? q = some lane → ∃ l, m.locationOf? q = some l

structure WellFormed (m : AtomMaps) : Prop extends m.Aligned where
  inverse : m.InverseBut []

theorem WellFormed.qubitAt?_eq_some (h : m.WellFormed) :
    m.qubitAt? l = some q ↔ m.locationOf? q = some l := by
  simpa using h.inverse l q

theorem WellFormed.empty : WellFormed {} where
  qubits := List.Pairwise.nil
  locations := List.Pairwise.nil
  lastLanes := List.Pairwise.nil
  inverse _ _ := ⟨nofun, fun h => nomatch h.1⟩
  counted := rfl
  ridden := nofun

theorem InverseBut.put (h : m.InverseBut (q :: lifted)) (hq : q ∉ lifted) (hl : m.qubitAt? l = none)
    (hqubits : m'.qubits = Ascending.put l q m.qubits)
    (hlocations : m'.locations = Ascending.put q l m.locations) : m'.InverseBut lifted := by
  intro k r
  have hkr := h k r
  simp only [qubitAt?, locationOf?] at hl hkr ⊢
  rw [hqubits, hlocations, get?_put, get?_put]
  by_cases hr : r = q
  · subst hr
    by_cases hk : k = l
    · simp [hk, hq]
    · simpa [hk, Ne.symm hk] using hkr
  · by_cases hk : k = l
    · subst hk
      simpa [hr, Ne.symm hr, hl] using hkr
    · simpa [hr, hk] using hkr

section Fill

theorem WellFormed.place (h : m.WellFormed) (hplace : m.place l q = .ok m') : m'.WellFormed := by
  unfold AtomMaps.place at hplace
  split at hplace
  · cases hplace
  next hl =>
    split at hplace
    · cases hplace
    next hq =>
      cases hplace
      rw [Option.not_isSome_iff_eq_none] at hl hq
      have hlifted : m.InverseBut [q] := by
        intro k r
        rw [h.qubitAt?_eq_some, List.mem_singleton, iff_self_and]
        rintro hr rfl
        cases hq.symm.trans hr
      refine ⟨⟨h.qubits.put _ _, h.locations.put _ _, h.lastLanes, ?_, ?_⟩,
        hlifted.put List.not_mem_nil hl rfl rfl⟩
      · rw [map_fst_put, map_fst_put, h.counted]
      · intro r lane hr
        obtain ⟨k, hk⟩ := h.ridden r lane hr
        refine ⟨k, ?_⟩
        have hne : r ≠ q := by
          rintro rfl
          cases hq.symm.trans hk
        simpa [locationOf?, get?_put, hne] using hk

theorem WellFormed.fillWith {atoms : List (Location × Qubit)} (h : m.WellFormed)
    (hfill : m.fillWith atoms = .ok m') : m'.WellFormed := by
  induction atoms generalizing m with
  | nil =>
    cases hfill
    exact h
  | cons e atoms ih =>
    cases hplace : m.place e.1 e.2 with
    | error cause => simp [AtomMaps.fillWith, hplace, bind, Except.bind] at hfill
    | ok next =>
      simp only [AtomMaps.fillWith, hplace, bind, Except.bind] at hfill
      exact ih (h.place hplace) hfill

end Fill

section Hops

theorem hop_eq_ok {lane : Lane} {h : Hop} (hhop : m.hop g lane = .ok h) :
    h.lane = lane ∧ g.endpoints? h.lane = some (h.src, h.dst) ∧ m.qubitAt? h.src = some h.qubit := by
  unfold hop at hhop
  split at hhop
  · split at hhop <;> cases hhop
  next src dst hends =>
    split at hhop
    · cases hhop
    next q hq =>
      cases hhop
      exact ⟨rfl, hends, hq⟩

/-- The hops of a move belong to its lanes one by one, and no two of them to one qubit. -/
theorem hops_spec {moving : List Qubit} (h : m.hops g lanes moving = .ok hops) :
    hops.map (·.lane) = lanes ∧ (hops.map (·.qubit)).Nodup ∧ (∀ h ∈ hops, h.qubit ∉ moving) ∧
      ∀ h ∈ hops, g.endpoints? h.lane = some (h.src, h.dst) ∧ m.qubitAt? h.src = some h.qubit := by
  induction lanes generalizing moving hops with
  | nil =>
    cases h
    exact ⟨rfl, List.nodup_nil, by simp, by simp⟩
  | cons lane lanes ih =>
    cases hfirst : m.hop g lane with
    | error cause => simp [AtomMaps.hops, hfirst, bind, Except.bind] at h
    | ok first =>
      simp only [AtomMaps.hops, hfirst, bind, Except.bind] at h
      split at h
      · cases h
      next hmoving =>
        cases hrest : m.hops g lanes (first.qubit :: moving) with
        | error cause => simp [hrest] at h
        | ok rest =>
          simp only [hrest] at h
          cases h
          obtain ⟨hlane, hends, hqubit⟩ := hop_eq_ok hfirst
          obtain ⟨hlanes, hnodup, hnew, hall⟩ := ih hrest
          refine ⟨by rw [List.map_cons, hlane, hlanes], ?_, ?_, ?_⟩
          · refine List.nodup_cons.mpr ⟨?_, hnodup⟩
            intro hin
            obtain ⟨h, hh, heq⟩ := List.mem_map.mp hin
            exact hnew h hh (List.mem_cons.mpr (Or.inl heq))
          · refine List.forall_mem_cons.mpr ⟨by simpa using hmoving, ?_⟩
            intro h hh hin
            exact hnew h hh (List.mem_cons_of_mem _ hin)
          · exact List.forall_mem_cons.mpr ⟨⟨hends, hqubit⟩, hall⟩

end Hops

section Lift

@[simp] theorem locations_lift (hops : List Hop) : (m.lift hops).locations = m.locations := by
  induction hops generalizing m with
  | nil => rfl
  | cons h hops ih => exact ih

@[simp] theorem lastLanes_lift (hops : List Hop) : (m.lift hops).lastLanes = m.lastLanes := by
  induction hops generalizing m with
  | nil => rfl
  | cons h hops ih => exact ih

@[simp] theorem counts_lift (hops : List Hop) : (m.lift hops).counts = m.counts := by
  induction hops generalizing m with
  | nil => rfl
  | cons h hops ih => exact ih

theorem sorted_lift (h : Sorted m.qubits) (hops : List Hop) : Sorted (m.lift hops).qubits := by
  induction hops generalizing m with
  | nil => exact h
  | cons hop hops ih => exact ih (m := { m with qubits := erase hop.src m.qubits }) (h.erase _)

theorem InverseBut.erase (h : m.InverseBut lifted) (hl : m.locationOf? q = some l) (hq : q ∉ lifted)
    (hqubits : m'.qubits = Ascending.erase l m.qubits) (hlocations : m'.locations = m.locations) :
    m'.InverseBut (lifted ++ [q]) := by
  intro k r
  have hkr := h k r
  have hat : m.qubitAt? l = some q := (h l q).mpr ⟨hl, hq⟩
  simp only [qubitAt?, locationOf?] at hl hkr hat ⊢
  rw [hqubits, hlocations, get?_erase, List.mem_append, List.mem_singleton]
  by_cases hk : k = l
  · subst hk
    rw [hat, Option.some.injEq] at hkr
    rw [if_pos rfl]
    refine ⟨fun hnone => absurd hnone.symm (Option.some_ne_none r), ?_⟩
    rintro ⟨hr, hout⟩
    exact absurd (Or.inr (hkr.mpr ⟨hr, fun hin => hout (Or.inl hin)⟩).symm) hout
  · rw [if_neg hk, hkr]
    have hne : r = q → get? r m.locations ≠ some k := by
      rintro rfl hr
      exact hk (Option.some.inj (hr.symm.trans hl))
    constructor
    · rintro ⟨hr, hout⟩
      exact ⟨hr, fun hin => hin.elim hout fun heq => hne heq hr⟩
    · rintro ⟨hr, hout⟩
      exact ⟨hr, fun hin => hout (Or.inl hin)⟩

/-- After the first loop of a move the maps are inverse but for the atoms of its hops. -/
theorem InverseBut.lift (h : m.InverseBut lifted) (hn : (hops.map (·.qubit)).Nodup)
    (hall : ∀ h ∈ hops, m.locationOf? h.qubit = some h.src ∧ h.qubit ∉ lifted) :
    (m.lift hops).InverseBut (lifted ++ hops.map (·.qubit)) := by
  induction hops generalizing m lifted with
  | nil => simpa [AtomMaps.lift] using h
  | cons first hops ih =>
    rw [List.forall_mem_cons] at hall
    obtain ⟨hnew, hn⟩ := List.nodup_cons.mp hn
    have hstep : InverseBut (lifted ++ [first.qubit]) { m with qubits := Ascending.erase first.src m.qubits } :=
      h.erase hall.1.1 hall.1.2 rfl rfl
    have hrest := ih hstep hn fun hop hh => ⟨(hall.2 hop hh).1, ?_⟩
    · rwa [List.append_assoc] at hrest
    · rw [List.mem_append, List.mem_singleton, not_or]
      exact ⟨(hall.2 hop hh).2, fun heq => hnew (List.mem_map.mpr ⟨hop, hh, heq⟩)⟩

end Lift

section Drop

theorem drop_cons_eq_ok {h : Hop} (hdrop : m.drop (h :: hops) = .ok m') :
    m.qubitAt? h.dst = none ∧ (m.land h).drop hops = .ok m' := by
  unfold drop at hdrop
  split at hdrop
  · cases hdrop
  next hfree => exact ⟨Option.not_isSome_iff_eq_none.mp hfree, hdrop⟩

/-- After the second loop the maps are inverse again. -/
theorem InverseBut.drop (h : m.InverseBut (hops.map (·.qubit))) (hn : (hops.map (·.qubit)).Nodup)
    (hdrop : m.drop hops = .ok m') : m'.InverseBut [] := by
  induction hops generalizing m with
  | nil =>
    cases hdrop
    exact h
  | cons first hops ih =>
    obtain ⟨hnew, hn⟩ := List.nodup_cons.mp hn
    obtain ⟨hfree, hdrop⟩ := drop_cons_eq_ok hdrop
    exact ih (h.put hnew hfree rfl rfl) hn hdrop

theorem Aligned.land (h : m.Aligned) (hop : Hop) : (m.land hop).Aligned where
  qubits := h.qubits.put _ _
  locations := h.locations.put _ _
  lastLanes := h.lastLanes.put _ _
  counted := by
    change (Ascending.put _ _ _).map (·.1) = (Ascending.put _ _ _).map (·.1)
    rw [map_fst_put, map_fst_put, h.counted]
  ridden q lane hlane := by
    change get? q (Ascending.put _ _ _) = _ at hlane
    change ∃ l, get? q (Ascending.put _ _ _) = _
    rw [get?_put] at hlane ⊢
    by_cases hq : q = hop.qubit
    · exact ⟨hop.dst, if_pos hq⟩
    · rw [if_neg hq] at hlane ⊢
      exact h.ridden q lane hlane

theorem Aligned.drop (h : m.Aligned) (hdrop : m.drop hops = .ok m') : m'.Aligned := by
  induction hops generalizing m with
  | nil =>
    cases hdrop
    exact h
  | cons first hops ih => exact ih (h.land first) (drop_cons_eq_ok hdrop).2

end Drop

section Move

/-- A move lifts the atoms of its hops, drops them, and accepts the maps if they are inverse. -/
theorem move_eq_ok (h : m.move g lanes = .ok m') :
    ∃ hops, m.hops g lanes [] = .ok hops ∧ (m.lift hops).drop hops = .ok m' := by
  unfold move at h
  split at h
  · cases h
  · cases hhops : m.hops g lanes [] with
    | error cause => simp [hhops, bind, Except.bind] at h
    | ok hops =>
      cases hdrop : (m.lift hops).drop hops with
      | error cause => simp [hhops, hdrop, bind, Except.bind] at h
      | ok next =>
        simp only [hhops, hdrop, bind, Except.bind] at h
        split at h
        · cases h
          exact ⟨hops, rfl, hdrop⟩
        · cases h

theorem WellFormed.aligned_lift (h : m.WellFormed) (hops : List Hop) : (m.lift hops).Aligned where
  qubits := sorted_lift h.qubits hops
  locations := by simpa using h.locations
  lastLanes := by simpa using h.lastLanes
  counted := by simpa using h.counted
  ridden := by simpa [lastLane?, locationOf?] using h.ridden

theorem WellFormed.lift_drop (h : m.WellFormed) (hhops : m.hops g lanes [] = .ok hops)
    (hdrop : (m.lift hops).drop hops = .ok m') : m'.WellFormed := by
  obtain ⟨_, hn, _, hall⟩ := hops_spec hhops
  have hlift : (m.lift hops).InverseBut (hops.map (·.qubit)) := by
    rw [← List.nil_append (hops.map (·.qubit))]
    refine h.inverse.lift hn fun hop hh => ⟨?_, List.not_mem_nil⟩
    exact h.qubitAt?_eq_some.mp (hall hop hh).2
  exact ⟨(h.aligned_lift hops).drop hdrop, hlift.drop hn hdrop⟩

theorem WellFormed.move (h : m.WellFormed) (hmove : m.move g lanes = .ok m') : m'.WellFormed := by
  obtain ⟨hops, hhops, hdrop⟩ := move_eq_ok hmove
  exact h.lift_drop hhops hdrop

end Move

end AtomTransport.AtomMaps
