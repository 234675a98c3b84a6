import AtomTransport.Proofs.History
import AtomTransport.Proofs.LaneTables

/-!
# Moves as simultaneous relocations

A move lifts the atoms at the starts of its lanes one after another and drops them one after another. The
outcome is that of one simultaneous step: `Movable` says when the step is possible and `Relocates` what it
does, and neither speaks of an order of the lanes. So the lanes may be given in any order, also where they
form chains or rings. The graph has every lane in both directions, and the reverse of a possible step is
possible after it and leads back.
-/

namespace AtomTransport

namespace Device

variable {d : Device} {lanes : List Lane}

theorem pairwise_of_conflict? (h : d.conflict? lanes = none) :
    lanes.Pairwise fun x y => d.compatible x y = true := by
  induction lanes with
  | nil => exact List.Pairwise.nil
  | cons lane lanes ih =>
    rw [conflict?] at h
    split at h
    · cases h
    next hfind =>
      refine List.pairwise_cons.mpr ⟨?_, ih h⟩
      simpa using hfind

end Device

namespace LaneGraph

variable (g : LaneGraph)

def start? (lane : Lane) : Option Location := (g.endpoints? lane).map (·.1)

def finish? (lane : Lane) : Option Location := (g.endpoints? lane).map (·.2)

variable {g} in
theorem start?_of_endpoints? {lane : Lane} {ends : Location × Location}
    (h : g.endpoints? lane = some ends) : g.start? lane = some ends.1 := by
  rw [start?, h, Option.map_some]

variable {g} in
theorem finish?_of_endpoints? {lane : Lane} {ends : Location × Location}
    (h : g.endpoints? lane = some ends) : g.finish? lane = some ends.2 := by
  rw [finish?, h, Option.map_some]

/-- The landings of a lane do not depend on its direction, so the same one counts both ways. -/
theorem endpoints?_reverse (lane : Lane) :
    g.endpoints? lane.reverse = (g.endpoints? lane).map Prod.swap := by
  have hlandings : g.device.landings lane.reverse = g.device.landings lane := rfl
  have hends : lane.reverse.ends = Prod.swap ∘ lane.ends := by
    funext l
    obtain ⟨_, _, _, _, dir⟩ := lane
    cases dir <;> rfl
  rw [endpoints?_eq, endpoints?_eq, hlandings, hends, Option.map_map]

theorem start?_reverse (lane : Lane) : g.start? lane.reverse = g.finish? lane := by
  rw [start?, endpoints?_reverse, Option.map_map]
  rfl

theorem finish?_reverse (lane : Lane) : g.finish? lane.reverse = g.start? lane := by
  rw [finish?, endpoints?_reverse, Option.map_map]
  rfl

end LaneGraph

namespace AtomMaps

def Rides (g : LaneGraph) (m : AtomMaps) (lane : Lane) (q : Qubit) : Prop :=
  ∃ l, g.start? lane = some l ∧ m.qubitAt? l = some q

/-- All atoms at the starts of the lanes can move at once: the lanes are pairwise compatible, each of them
exists and starts at an occupied location, no two start or end at one location, and each ends at a location
that is free or that another atom leaves. -/
structure Movable (g : LaneGraph) (m : AtomMaps) (lanes : List Lane) : Prop where
  compatible : lanes.Pairwise fun x y => g.device.compatible x y = true
  present : ∀ lane ∈ lanes, ∃ ends, g.endpoints? lane = some ends
  occupied : ∀ lane ∈ lanes, ∀ l, g.start? lane = some l → ∃ q, m.qubitAt? l = some q
  starts : (lanes.map g.start?).Nodup
  ends : (lanes.map g.finish?).Nodup
  free : ∀ lane ∈ lanes, ∀ l, g.finish? lane = some l →
    m.qubitAt? l = none ∨ ∃ other ∈ lanes, g.start? other = some l

/-- The atoms at the starts of the lanes have gone to their ends, with one more move and the lane as the
last one; the others are as before. -/
structure Relocates (g : LaneGraph) (lanes : List Lane) (m m' : AtomMaps) : Prop where
  moved : ∀ lane ∈ lanes, ∀ q, m.Rides g lane q → ∃ l, g.finish? lane = some l ∧
    m'.locationOf? q = some l ∧ m'.moves q = m.moves q + 1 ∧ m'.lastLane? q = some lane
  stayed : ∀ q, (∀ lane ∈ lanes, ¬ m.Rides g lane q) → m'.locationOf? q = m.locationOf? q ∧
    m'.moves q = m.moves q ∧ m'.lastLane? q = m.lastLane? q
  found : ∀ q l, m'.qubitAt? l = some q ↔ m'.locationOf? q = some l

variable {g : LaneGraph} {m m' r : AtomMaps} {lanes lanes' : List Lane} {hops : List Hop} {n : Nat}

theorem WellFormed.ext_lookups (h : m.WellFormed) (h' : m'.WellFormed)
    (heq : ∀ q, m.locationOf? q = m'.locationOf? q ∧ m.moves q = m'.moves q ∧ m.lastLane? q = m'.lastLane? q) :
    m = m' := by
  have hlocations : m.locations = m'.locations := h.locations.ext h'.locations fun q => (heq q).1
  apply h.ext h'
  rw [list, list, hlocations]
  exact List.map_congr_left fun e _ => by rw [(heq e.1).2.1, (heq e.1).2.2]

section Hops

variable (hlanes : hops.map (·.lane) = lanes)
  (hends : ∀ h ∈ hops, g.endpoints? h.lane = some (h.src, h.dst))
include hlanes hends

theorem map_start?_of_hops : lanes.map g.start? = (hops.map (·.src)).map some := by
  rw [← hlanes, List.map_map, List.map_map]
  apply List.map_congr_left
  intro h hh
  exact LaneGraph.start?_of_endpoints? (hends h hh)

theorem map_finish?_of_hops : lanes.map g.finish? = (hops.map (·.dst)).map some := by
  rw [← hlanes, List.map_map, List.map_map]
  apply List.map_congr_left
  intro h hh
  exact LaneGraph.finish?_of_endpoints? (hends h hh)

end Hops

theorem nodup_map_some {α : Type} {xs : List α} : (xs.map some).Nodup ↔ xs.Nodup :=
  List.nodup_map_iff fun _ _ => Option.some.inj

/-- Atoms land on different locations where nobody stands. -/
theorem free_of_landing {standing : List Location} (h : landing standing hops = .ok ()) :
    (hops.map (·.dst)).Nodup ∧ ∀ h ∈ hops, h.dst ∉ standing := by
  induction hops generalizing standing with
  | nil => exact ⟨List.nodup_nil, by simp⟩
  | cons first hops ih =>
    unfold landing at h
    split_ifs at h with hfree
    obtain ⟨hnodup, hnew⟩ := ih h
    simp only [List.mem_cons, not_or] at hnew
    refine ⟨List.nodup_cons.mpr ⟨?_, hnodup⟩, List.forall_mem_cons.mpr ⟨by simpa using hfree, ?_⟩⟩
    · intro hin
      obtain ⟨h, hh, heq⟩ := List.mem_map.mp hin
      exact (hnew h hh).1 heq
    · intro h hh
      exact (hnew h hh).2

theorem WellFormed.movable (h : m.WellFormed) (hmove : m.move g lanes = .ok m') : m.Movable g lanes := by
  have hcompatible : g.device.conflict? lanes = none := by
    unfold AtomMaps.move at hmove
    split at hmove
    · cases hmove
    · assumption
  obtain ⟨hops, hhops, hland, _⟩ := h.move_eq_ok hmove
  obtain ⟨hlanes, hqubits, _, hall⟩ := hops_spec hhops
  obtain ⟨hdst, hfree⟩ := free_of_landing hland
  have hstarts := map_start?_of_hops hlanes fun h hh => (hall h hh).1
  have hfinishes := map_finish?_of_hops hlanes fun h hh => (hall h hh).1
  have hhop : ∀ lane ∈ lanes, ∃ h ∈ hops, h.lane = lane := by
    intro lane hlane
    rw [← hlanes] at hlane
    exact List.mem_map.mp hlane
  constructor
  case compatible => exact Device.pairwise_of_conflict? hcompatible
  case present =>
    intro lane hlane
    obtain ⟨hop, hh, rfl⟩ := hhop lane hlane
    exact ⟨_, (hall hop hh).1⟩
  case occupied =>
    intro lane hlane l hl
    obtain ⟨hop, hh, rfl⟩ := hhop lane hlane
    rw [LaneGraph.start?_of_endpoints? (hall hop hh).1, Option.some.injEq] at hl
    exact ⟨hop.qubit, hl ▸ (hall hop hh).2⟩
  case starts =>
    rw [hstarts, nodup_map_some]
    refine List.Nodup.map_on ?_ hqubits.of_map
    intro hop hh hop' hh' heq
    apply List.inj_on_of_nodup_map hqubits hh hh'
    have hq := (hall hop hh).2
    rw [heq, (hall hop' hh').2] at hq
    exact (Option.some.inj hq).symm
  case ends =>
    rw [hfinishes, nodup_map_some]
    exact hdst
  case free =>
    intro lane hlane l hl
    obtain ⟨hop, hh, rfl⟩ := hhop lane hlane
    rw [LaneGraph.finish?_of_endpoints? (hall hop hh).1, Option.some.injEq] at hl
    subst hl
    cases hq : m.qubitAt? hop.dst with
    | none => exact Or.inl rfl
    | some q =>
      -- The atom on the end does not stand there when the others land, so it hops too.
      obtain ⟨x, hx, _, hxl⟩ := h.locationOf?_eq_some.mp (h.qubitAt?_eq_some.mp hq)
      rcases h.relocate_cases hhops hx with ⟨other, hother, _, hsrc, _⟩ | ⟨_, hstands, _⟩
      · refine Or.inr ⟨other.lane, hlanes ▸ List.mem_map_of_mem hother, ?_⟩
        rw [LaneGraph.start?_of_endpoints? (hall other hother).1, hsrc, hxl]
      · exact absurd (hxl ▸ hstands) (hfree hop hh)

theorem Movable.exists_hops (h : m.Movable g lanes) :
    ∃ hops : List Hop, hops.map (·.lane) = lanes ∧ ∀ h ∈ hops, m.hop g h.lane = .ok h := by
  have hhop : ∀ lane ∈ lanes, ∃ hop, m.hop g lane = .ok hop := by
    intro lane hlane
    obtain ⟨⟨src, dst⟩, hends⟩ := h.present lane hlane
    obtain ⟨q, hq⟩ := h.occupied lane hlane src (LaneGraph.start?_of_endpoints? hends)
    exact ⟨⟨lane, q, src, dst⟩, by simp only [hop, hends, hq]⟩
  cases hmap : lanes.mapM (m.hop g) with
  | error e =>
    obtain ⟨lane, hlane, he⟩ := mapM_eq_error hmap
    obtain ⟨hop, hok⟩ := hhop lane hlane
    cases hok.symm.trans he
  | ok hops =>
    have hall := mapM_eq_ok.mp hmap
    have hlanes : lanes = hops.map (·.lane) := by
      rw [← List.forall₂_eq_eq_eq, List.forall₂_map_right_iff]
      exact hall.imp fun lane hop hok => (hop_eq_ok hok).1.symm
    refine ⟨hops, hlanes.symm, fun hop hmem => ?_⟩
    obtain ⟨lane, _, hok⟩ := exists_of_forall₂ hall.flip hmem
    rw [(hop_eq_ok hok).1]
    exact hok

theorem Movable.exists_move (hmovable : m.Movable g lanes) (h : m.WellFormed) :
    ∃ m', m.move g lanes = .ok m' := by
  obtain ⟨hops, hlanes, hhop⟩ := hmovable.exists_hops
  have hends : ∀ h ∈ hops, g.endpoints? h.lane = some (h.src, h.dst) := fun h hh =>
    (hop_eq_ok (hhop h hh)).2.1
  have hsrc : (hops.map (·.src)).Nodup := by
    rw [← nodup_map_some, ← map_start?_of_hops hlanes hends]
    exact hmovable.starts
  have hdst : (hops.map (·.dst)).Nodup := by
    rw [← nodup_map_some, ← map_finish?_of_hops hlanes hends]
    exact hmovable.ends
  have hqubits : (hops.map (·.qubit)).Nodup := by
    refine List.Nodup.map_on ?_ hsrc.of_map
    intro hop hh hop' hh' heq
    apply List.inj_on_of_nodup_map hsrc hh hh'
    have hl := h.qubitAt?_eq_some.mp (hop_eq_ok (hhop hop hh)).2.2
    rw [heq, h.qubitAt?_eq_some.mp (hop_eq_ok (hhop hop' hh')).2.2] at hl
    exact (Option.some.inj hl).symm
  have hhops : m.hops g lanes [] = .ok hops := hlanes ▸ hops_of_hop hhop hqubits
  have hstanding : ∀ h ∈ hops, h.dst ∉ m.standing hops := by
    intro hop hmem hin
    obtain ⟨x, hx, hxl⟩ := List.mem_map.mp hin
    obtain ⟨hx, hstays⟩ := List.mem_filter.mp hx
    simp only [Bool.not_eq_true', List.any_eq_false, decide_eq_true_eq] at hstays
    have hlane : hop.lane ∈ lanes := hlanes ▸ List.mem_map_of_mem hmem
    rcases hmovable.free hop.lane hlane hop.dst (LaneGraph.finish?_of_endpoints? (hends hop hmem)) with
      hnone | ⟨other, hother, hstart⟩
    · exact h.qubitAt?_eq_none.mp hnone (List.mem_map.mpr ⟨x, hx, hxl⟩)
    · rw [← hlanes] at hother
      obtain ⟨hop', hmem', rfl⟩ := List.mem_map.mp hother
      rw [LaneGraph.start?_of_endpoints? (hends hop' hmem'), Option.some.injEq] at hstart
      exact hstays hop' hmem' (hstart.trans hxl.symm)
  obtain ⟨m', hmove, _⟩ := h.exists_move (Device.conflict?_eq_none hmovable.compatible) hhops
    (landing_eq_ok hdst hstanding)
  exact ⟨m', hmove⟩

theorem WellFormed.relocates (h : m.WellFormed) (hmove : m.move g lanes = .ok m') :
    Relocates g lanes m m' := by
  have h' := h.move hmove
  obtain ⟨hops, hhops, _, hlist⟩ := h.move_eq_ok hmove
  obtain ⟨hlanes, hqubits, _, hall⟩ := hops_spec hhops
  have hnext : ∀ x ∈ m.list, relocate hops x ∈ m'.list := fun x hx => hlist ▸ List.mem_map_of_mem hx
  constructor
  case moved =>
    rintro lane hlane q ⟨l, hstart, hq⟩
    rw [← hlanes] at hlane
    obtain ⟨hop, hhop, rfl⟩ := List.mem_map.mp hlane
    obtain ⟨hends, hqubit⟩ := hall hop hhop
    rw [LaneGraph.start?_of_endpoints? hends, Option.some.injEq] at hstart
    subst hstart
    rw [hqubit, Option.some.injEq] at hq
    subst hq
    have hx := h.record_mem (h.qubitAt?_eq_some.mp hqubit)
    refine ⟨hop.dst, LaneGraph.finish?_of_endpoints? hends, ?_⟩
    rcases h.relocate_cases hhops hx with ⟨hop', hhop', hsame, _, heq⟩ | ⟨hout, _⟩
    · obtain rfl : hop' = hop := List.inj_on_of_nodup_map hqubits hhop' hhop hsame
      exact h'.mem_list.mp (heq ▸ hnext _ hx)
    · exact absurd (List.mem_map_of_mem hhop) hout
  case stayed =>
    intro q hstays
    cases hl : m.locationOf? q with
    | none =>
      have hl' : m'.locationOf? q = none := by
        have hpresent := h'.present_iff (q := q)
        rw [h.qubits_move hmove, ← h.present_iff, hl] at hpresent
        rw [Option.eq_none_iff_forall_ne_some]
        simpa using hpresent
      rw [hl', h.moves_eq_zero hl, h'.moves_eq_zero hl', h.lastLane?_eq_none hl, h'.lastLane?_eq_none hl']
      exact ⟨rfl, rfl, rfl⟩
    | some l =>
      have hx := h.record_mem hl
      rcases h.relocate_cases hhops hx with ⟨hop, hhop, hxq, _, _⟩ | ⟨_, _, heq⟩
      · obtain ⟨hends, hqubit⟩ := hall hop hhop
        have hrides : m.Rides g hop.lane q :=
          ⟨hop.src, LaneGraph.start?_of_endpoints? hends, hqubit.trans (congrArg some hxq)⟩
        exact absurd hrides (hstays hop.lane (hlanes ▸ List.mem_map_of_mem hhop))
      · exact h'.mem_list.mp (heq ▸ hnext _ hx)
  case found => exact fun q l => h'.qubitAt?_eq_some

section Order

variable {blueprint : Blueprint}

theorem Movable.perm (hdevice : Device.ofBlueprint blueprint = .ok g.device) (h : m.Movable g lanes)
    (hperm : lanes.Perm lanes') : m.Movable g lanes' where
  compatible := (hperm.pairwise_iff fun hxy => by rwa [Device.compatible_comm hdevice]).mp h.compatible
  present lane hlane := h.present lane (hperm.mem_iff.mpr hlane)
  occupied lane hlane := h.occupied lane (hperm.mem_iff.mpr hlane)
  starts := (hperm.map g.start?).nodup_iff.mp h.starts
  ends := (hperm.map g.finish?).nodup_iff.mp h.ends
  free lane hlane l hl := by
    refine (h.free lane (hperm.mem_iff.mpr hlane) l hl).imp_right ?_
    rintro ⟨other, hother, hstart⟩
    exact ⟨other, hperm.mem_iff.mp hother, hstart⟩

theorem Relocates.eq_of_perm (h : Relocates g lanes m m') (h' : Relocates g lanes' m r)
    (hm' : m'.WellFormed) (hr : r.WellFormed) (hperm : lanes.Perm lanes') : m' = r := by
  apply hm'.ext_lookups hr
  intro q
  by_cases hq : ∃ lane ∈ lanes, m.Rides g lane q
  · obtain ⟨lane, hlane, hrides⟩ := hq
    obtain ⟨l, hl, hat, hmoves, hlast⟩ := h.moved lane hlane q hrides
    obtain ⟨l', hl', hat', hmoves', hlast'⟩ := h'.moved lane (hperm.mem_iff.mp hlane) q hrides
    rw [hat, hat', Option.some.inj (hl.symm.trans hl'), hmoves, hmoves', hlast, hlast']
    exact ⟨rfl, rfl, rfl⟩
  · have hstays : ∀ lane ∈ lanes, ¬ m.Rides g lane q := fun lane hlane hrides => hq ⟨lane, hlane, hrides⟩
    obtain ⟨hat, hmoves, hlast⟩ := h.stayed q hstays
    obtain ⟨hat', hmoves', hlast'⟩ := h'.stayed q fun lane hlane => hstays lane (hperm.mem_iff.mpr hlane)
    rw [hat, hat', hmoves, hmoves', hlast, hlast']
    exact ⟨rfl, rfl, rfl⟩

theorem WellFormed.move_perm (hdevice : Device.ofBlueprint blueprint = .ok g.device)
    (h : m.WellFormed) (hperm : lanes.Perm lanes') (hmove : m.move g lanes = .ok m') :
    m.move g lanes' = .ok m' := by
  obtain ⟨r, hr⟩ := ((h.movable hmove).perm hdevice hperm).exists_move h
  rw [(h.relocates hmove).eq_of_perm (h.relocates hr) (h.move hmove) (h.move hr) hperm]
  exact hr

end Order

/-- A move succeeds exactly when all its atoms can move at once; then these have moved and the others have
not. The order of the lanes matters neither for success nor for the outcome. A count of 32 bits that is not
full grows by one as a number too. -/
theorem move_simultaneous {blueprint : Blueprint} (hdevice : Device.ofBlueprint blueprint = .ok g.device)
    (h : Reachable g m) (lanes : List Lane) :
    ((∃ m', m.move g lanes = .ok m') ↔ m.Movable g lanes) ∧
    (∀ m', m.move g lanes = .ok m' → Relocates g lanes m m' ∧
      ∀ lane ∈ lanes, ∀ q, m.Rides g lane q → (m.moves q).toNat + 1 < 2 ^ 32 →
        (m'.moves q).toNat = (m.moves q).toNat + 1) ∧
    ∀ lanes', lanes.Perm lanes' → ∀ m', m.move g lanes = .ok m' ↔ m.move g lanes' = .ok m' := by
  have hm := h.wellFormed
  refine ⟨⟨?_, fun hmovable => hmovable.exists_move hm⟩, fun m' hmove => ⟨hm.relocates hmove, ?_⟩, ?_⟩
  · rintro ⟨m', hmove⟩
    exact hm.movable hmove
  · intro lane hlane q hrides hcount
    obtain ⟨_, _, _, hmoves, _⟩ := (hm.relocates hmove).moved lane hlane q hrides
    rw [hmoves, toNat_succ hcount]
  · intro lanes' hperm m'
    exact ⟨hm.move_perm hdevice hperm, hm.move_perm hdevice hperm.symm⟩

theorem ofBlueprint_carousel : Device.ofBlueprint carousel.device.blueprint = .ok carousel.device := by
  decide +kernel

/-- On a full carousel the lanes may be given from the last to the first. -/
theorem move_simultaneous_carousel :
    ∃ m m', fillWith {} [(⟨0, 0⟩, 4), (⟨0, 1⟩, 9), (⟨0, 2⟩, 1)] = .ok m ∧
      m.Movable carousel carouselLanes ∧ m.move carousel carouselLanes.reverse = .ok m' ∧
      Relocates carousel carouselLanes m m' ∧ m'.locationOf? 1 = some ⟨0, 0⟩ := by
  obtain ⟨m, hfill, hmove⟩ := exists_ok_of_any (x := fillWith {} [(⟨0, 0⟩, 4), (⟨0, 1⟩, 9), (⟨0, 2⟩, 1)])
    (P := fun m => (m.move carousel carouselLanes).toOption.any (·.locationOf? 1 = some ⟨0, 0⟩))
    (by decide +kernel)
  obtain ⟨m', hmove, hfirst⟩ := exists_ok_of_any hmove
  obtain ⟨hsuccess, hrelocates, horder⟩ :=
    move_simultaneous ofBlueprint_carousel ⟨0, .fillWith _ .empty hfill⟩ carouselLanes
  exact ⟨m, m', hfill, hsuccess.mp ⟨m', hmove⟩, (horder _ (List.reverse_perm _).symm m').mp hmove,
    (hrelocates m' hmove).1, of_decide_eq_true hfirst⟩

section Back

variable {blueprint : Blueprint}

/-- After a move the reverse of a lane has the atom that has come along the lane. -/
theorem Relocates.rides_reverse_iff (h : Relocates g lanes m m') (hm : m.Movable g lanes) {lane : Lane}
    (hlane : lane ∈ lanes) {q : Qubit} : m'.Rides g lane.reverse q ↔ m.Rides g lane q := by
  have hback : ∀ {r}, m.Rides g lane r → ∃ l, g.finish? lane = some l ∧ m'.qubitAt? l = some r := by
    intro r hr
    obtain ⟨l, hl, hat, _⟩ := h.moved lane hlane r hr
    exact ⟨l, hl, (h.found r l).mpr hat⟩
  unfold Rides at hback ⊢
  rw [g.start?_reverse]
  constructor
  · rintro ⟨l, hl, hq⟩
    obtain ⟨ends, hends⟩ := hm.present lane hlane
    have hstart := LaneGraph.start?_of_endpoints? hends
    obtain ⟨r, hr⟩ := hm.occupied lane hlane ends.1 hstart
    obtain ⟨l', hl', hr'⟩ := hback ⟨ends.1, hstart, hr⟩
    rw [← Option.some.inj (hl.symm.trans hl'), hq, Option.some.injEq] at hr'
    exact ⟨ends.1, hstart, hr' ▸ hr⟩
  · exact hback

/-- What has moved at once can move back at once: no start of a lane is blocked, since only an atom of the
move can have come there, and that one leaves too. -/
theorem Movable.back (hmovable : m.Movable g lanes) (h : Relocates g lanes m m') (hm : m.WellFormed) :
    m'.Movable g (lanes.map Lane.reverse) where
  compatible := by
    rw [List.pairwise_map]
    simpa only [Device.compatible_reverse] using hmovable.compatible
  present := by
    rw [List.forall_mem_map]
    intro lane hlane
    obtain ⟨ends, hends⟩ := hmovable.present lane hlane
    exact ⟨ends.swap, by rw [g.endpoints?_reverse, hends, Option.map_some]⟩
  occupied := by
    rw [List.forall_mem_map]
    intro lane hlane l hl
    obtain ⟨ends, hends⟩ := hmovable.present lane hlane
    have hstart := LaneGraph.start?_of_endpoints? hends
    obtain ⟨q, hq⟩ := hmovable.occupied lane hlane ends.1 hstart
    obtain ⟨l', hl', hq'⟩ := (h.rides_reverse_iff hmovable hlane).mpr ⟨ends.1, hstart, hq⟩
    exact ⟨q, Option.some.inj (hl.symm.trans hl') ▸ hq'⟩
  starts := by
    rw [List.map_map, show g.start? ∘ Lane.reverse = g.finish? from funext g.start?_reverse]
    exact hmovable.ends
  ends := by
    rw [List.map_map, show g.finish? ∘ Lane.reverse = g.start? from funext g.finish?_reverse]
    exact hmovable.starts
  free := by
    rw [List.forall_mem_map]
    intro lane hlane l hl
    rw [g.finish?_reverse] at hl
    cases hq : m'.qubitAt? l with
    | none => exact Or.inl rfl
    | some q =>
      by_cases hrides : ∃ other ∈ lanes, m.Rides g other q
      · obtain ⟨other, hother, hrides⟩ := hrides
        obtain ⟨l', hl', hq'⟩ := (h.rides_reverse_iff hmovable hother).mpr hrides
        rw [h.found, (h.found q l).mp hq, Option.some.injEq] at hq'
        exact Or.inr ⟨other.reverse, List.mem_map_of_mem hother, hq' ▸ hl'⟩
      · have hstays : ∀ other ∈ lanes, ¬ m.Rides g other q :=
          fun other hother hr => hrides ⟨other, hother, hr⟩
        rw [h.found, (h.stayed q hstays).1] at hq
        exact absurd ⟨l, hl, hm.qubitAt?_eq_some.mpr hq⟩ (hstays lane hlane)

/-- The atoms of a move that has been taken back are at the starts of their lanes again, and the others are as
before. -/
theorem Relocates.comeback (h : Relocates g lanes m m') (hm : m.Movable g lanes) {back : List Lane}
    (hback : back.Perm (lanes.map Lane.reverse)) (hreturn : Relocates g back m' r) :
    (∀ lane ∈ lanes, ∀ q, m.Rides g lane q → ∃ l, g.start? lane = some l ∧ r.locationOf? q = some l ∧
      r.moves q = m.moves q + 2 ∧ r.lastLane? q = some lane.reverse) ∧
    ∀ q, (∀ lane ∈ lanes, ¬ m.Rides g lane q) → r.locationOf? q = m.locationOf? q ∧
      r.moves q = m.moves q ∧ r.lastLane? q = m.lastLane? q := by
  constructor
  · intro lane hlane q hrides
    have hreversed : lane.reverse ∈ back := hback.mem_iff.mpr (List.mem_map_of_mem hlane)
    obtain ⟨_, _, _, hmoves, _⟩ := h.moved lane hlane q hrides
    obtain ⟨l, hl, hat', hmoves', hlast'⟩ :=
      hreturn.moved lane.reverse hreversed q ((h.rides_reverse_iff hm hlane).mpr hrides)
    refine ⟨l, g.finish?_reverse lane ▸ hl, hat', ?_, hlast'⟩
    rw [hmoves', hmoves, UInt32.add_assoc]
    rfl
  · intro q hstays
    have hout : ∀ reversed ∈ back, ¬ m'.Rides g reversed q := by
      intro reversed hreversed hrides
      obtain ⟨lane, hlane, rfl⟩ := List.mem_map.mp (hback.mem_iff.mp hreversed)
      exact hstays lane hlane ((h.rides_reverse_iff hm hlane).mp hrides)
    obtain ⟨hat, hmoves, hlast⟩ := h.stayed q hstays
    obtain ⟨hat', hmoves', hlast'⟩ := hreturn.stayed q hout
    exact ⟨hat'.trans hat, hmoves'.trans hmoves, hlast'.trans hlast⟩

/-- A move along the reverse lanes, in any order, brings the atoms back: the layout is the old one, the
atoms of the move have moved twice more and have the reverse lane as the last one, and the others are as
before. A count of 32 bits that is not almost full has grown by two as a number too. -/
theorem move_reverse_restores (hdevice : Device.ofBlueprint blueprint = .ok g.device) (h : Reachable g m)
    (hmove : m.move g lanes = .ok m') {back : List Lane} (hback : back.Perm (lanes.map Lane.reverse)) :
    ∃ r, m'.move g back = .ok r ∧ r.sameLayout m = true ∧
      (∀ lane ∈ lanes, ∀ q, m.Rides g lane q →
        r.moves q = m.moves q + 2 ∧ r.lastLane? q = some lane.reverse ∧
          ((m.moves q).toNat + 2 < 2 ^ 32 → (r.moves q).toNat = (m.moves q).toNat + 2)) ∧
      ∀ q, (∀ lane ∈ lanes, ¬ m.Rides g lane q) → r.locationOf? q = m.locationOf? q ∧
        r.moves q = m.moves q ∧ r.lastLane? q = m.lastLane? q := by
  have hm := h.wellFormed
  have hm' := hm.move hmove
  have hmovable := hm.movable hmove
  have hthere := hm.relocates hmove
  obtain ⟨r, hr⟩ := ((hmovable.back hthere hm).perm hdevice hback.symm).exists_move hm'
  obtain ⟨hmoved, hstayed⟩ := hthere.comeback hmovable hback (hm'.relocates hr)
  have hlocation : ∀ q, r.locationOf? q = m.locationOf? q := by
    intro q
    by_cases hrides : ∃ lane ∈ lanes, m.Rides g lane q
    · obtain ⟨lane, hlane, l, hl, hq⟩ := hrides
      obtain ⟨l', hl', hat, _⟩ := hmoved lane hlane q ⟨l, hl, hq⟩
      rw [hat, hm.qubitAt?_eq_some.mp hq]
      exact hl'.symm.trans hl
    · exact (hstayed q fun lane hlane hr => hrides ⟨lane, hlane, hr⟩).1
  refine ⟨r, hr, ?_, ?_, hstayed⟩
  · rw [sameLayout, decide_eq_true_eq, (hm'.move hr).qubits_eq_iff hm]
    exact (hm'.move hr).locations.ext hm.locations hlocation
  · intro lane hlane q hrides
    obtain ⟨_, _, _, hmoves, hlast⟩ := hmoved lane hlane q hrides
    refine ⟨hmoves, hlast, fun hcount => ?_⟩
    rw [hmoves, UInt32.toNat_add]
    exact Nat.mod_eq_of_lt hcount

/-- Two atoms of the carousel go on by one site each, the first to where the second was, and come back. -/
theorem move_reverse_restores_carousel :
    ∃ m m' r, fillWith {} [(⟨0, 0⟩, 4), (⟨0, 1⟩, 9)] = .ok m ∧
      m.move carousel [⟨.site, 0, 0, 0, .forward⟩, ⟨.site, 0, 1, 0, .forward⟩] = .ok m' ∧
      m'.sameLayout m = false ∧
      m'.move carousel [⟨.site, 0, 1, 0, .backward⟩, ⟨.site, 0, 0, 0, .backward⟩] = .ok r ∧
      r.sameLayout m = true := by
  obtain ⟨m, hfill, hmove⟩ := exists_ok_of_any (x := fillWith {} [(⟨0, 0⟩, 4), (⟨0, 1⟩, 9)])
    (P := fun m => (m.move carousel [⟨.site, 0, 0, 0, .forward⟩, ⟨.site, 0, 1, 0, .forward⟩]).toOption.any
      fun m' => !m'.sameLayout m)
    (by decide +kernel)
  obtain ⟨m', hmove, haway⟩ := exists_ok_of_any hmove
  obtain ⟨r, hr, hlayout, _⟩ := move_reverse_restores ofBlueprint_carousel ⟨0, .fillWith _ .empty hfill⟩ hmove
    (List.Perm.swap _ _ _)
  exact ⟨m, m', r, hfill, hmove, by simpa using haway, hr, hlayout⟩

end Back

end AtomMaps

end AtomTransport
