import AtomTransport.Proofs.Layout
import AtomTransport.Proofs.ParallelStep

/-!
# Atoms that realise a placement

The atoms of a state realise a placement when they carry the qubits from `0` on and stand where the
placement has them, after as many lanes. Filling an empty device realises the first placement, and a
possible step of a placement is a possible move of the atoms that realise it.
-/

namespace AtomTransport

theorem Device.conflict?_eq_none {d : Device} {lanes : List Lane}
    (h : lanes.Pairwise (fun a b => d.compatible a b = true)) : d.conflict? lanes = none := by
  induction lanes with
  | nil => rfl
  | cons lane lanes ih =>
    obtain ⟨hlane, hlanes⟩ := List.pairwise_cons.mp h
    have hfind : lanes.find? (fun other => !d.compatible lane other) = none := by
      rw [List.find?_eq_none]
      intro other hother
      simp [hlane other hother]
    rw [conflict?, hfind]
    exact ih hlanes

namespace AtomMaps

section Errors

variable {g : LaneGraph} {m : AtomMaps} {lanes : List Lane} {hops : List Hop}

theorem hop_eq_error {lane : Lane} {e : AtomError} (h : m.hop g lane = .error e) :
    (∃ c, g.device.checkLane lane = .error c ∧ e = .address c) ∨ ∃ l, e = .emptySource lane l := by
  unfold hop at h
  split at h
  next hends =>
    split at h
    next c hc =>
      cases h
      exact Or.inl ⟨c, hc, rfl⟩
    next hc =>
      obtain ⟨ends, hends'⟩ := g.exists_endpoints? hc
      rw [hends] at hends'
      cases hends'
  · split at h
    · cases h
      exact Or.inr ⟨_, rfl⟩
    · cases h

theorem hops_eq_error {moving : List Qubit} {e : AtomError} (h : m.hops g lanes moving = .error e) :
    (∃ lane ∈ lanes, m.hop g lane = .error e) ∨ ∃ q, e = .duplicateQubit q := by
  induction lanes generalizing moving with
  | nil => cases h
  | cons lane lanes ih =>
    rcases bind_eq_error.mp h with hlane | ⟨first, _, h⟩
    · exact Or.inl ⟨lane, List.mem_cons_self, hlane⟩
    split_ifs at h
    · cases h
      exact Or.inr ⟨_, rfl⟩
    rcases bind_eq_error.mp h with hrest | ⟨_, _, h⟩
    · rcases ih hrest with ⟨other, hother, he⟩ | hq
      · exact Or.inl ⟨other, List.mem_cons_of_mem _ hother, he⟩
      · exact Or.inr hq
    · cases h

theorem landing_eq_error {standing : List Location} {e : AtomError} (h : landing standing hops = .error e) :
    ∃ lane l, e = .occupiedDestination lane l := by
  induction hops generalizing standing with
  | nil => cases h
  | cons first hops ih =>
    unfold landing at h
    split_ifs at h
    · cases h
      exact ⟨_, _, rfl⟩
    · exact ih h

theorem fillWith_eq_error {atoms : List (Location × Qubit)} {e : AtomError}
    (h : m.fillWith atoms = .error e) : (∃ l, e = .occupiedSite l) ∨ ∃ q, e = .duplicateQubit q := by
  induction atoms generalizing m with
  | nil => cases h
  | cons first atoms ih =>
    rcases bind_eq_error.mp h with hplace | ⟨mid, _, hrest⟩
    · unfold place at hplace
      split_ifs at hplace
      · cases hplace
        exact Or.inl ⟨_, rfl⟩
      · cases hplace
        exact Or.inr ⟨_, rfl⟩
    · exact ih hrest

end Errors

section Fill

variable {m : AtomMaps}

def fresh (first : Qubit) (locations : List Location) : List Atom :=
  (locations.zipIdx first).map fun e => { qubit := e.2, location := e.1 }

@[simp] theorem map_qubit_fresh (first : Qubit) (locations : List Location) :
    (fresh first locations).map (·.qubit) = List.range' first locations.length := by
  simp [fresh, Function.comp_def]

@[simp] theorem map_location_fresh (first : Qubit) (locations : List Location) :
    (fresh first locations).map (·.location) = locations := by
  simp [fresh, Function.comp_def]

/-- Filling with numbers above those of all atoms adds all new atoms, or stops at the first location that is
occupied or repeats an earlier one. -/
theorem WellFormed.fillWith_cases (h : m.WellFormed) {first : Qubit} (hbelow : ∀ x ∈ m.list, x.qubit < first)
    (locations : List Location) :
    (locations.Nodup ∧ (∀ l ∈ locations, m.qubitAt? l = none) ∧
      ∃ m', m.fillWith (locations.zipIdx first) = .ok m' ∧ m'.list = m.list ++ fresh first locations) ∨
    ∃ before l after, locations = before ++ l :: after ∧
      before.Nodup ∧ (∀ k ∈ before, m.qubitAt? k = none) ∧
      (l ∈ before ∨ m.qubitAt? l ≠ none) ∧
      m.fillWith (locations.zipIdx first) = .error (.occupiedSite l) := by
  induction locations generalizing m first with
  | nil => exact Or.inl ⟨List.nodup_nil, by simp, m, rfl, by simp [fresh]⟩
  | cons l locations ih =>
    rw [List.zipIdx_cons, AtomMaps.fillWith]
    cases hl : m.qubitAt? l with
    | some q =>
      refine Or.inr ⟨[], l, locations, rfl, List.nodup_nil, by simp, Or.inr (by simp [hl]), ?_⟩
      rw [AtomMaps.place, hl, Option.isSome_some, if_pos rfl, error_bind]
    | none =>
      obtain ⟨next, hplace, hlist⟩ := h.place_eq_append hbelow hl
      have hnext : ∀ x ∈ next.list, x.qubit < first + 1 := by
        rw [hlist, List.forall_mem_append]
        exact ⟨fun x hx => Nat.lt_succ_of_lt (hbelow x hx), by simp⟩
      have hfree : ∀ k, next.qubitAt? k = none ↔ k ≠ l ∧ m.qubitAt? k = none := by
        intro k
        rw [(h.place hplace).qubitAt?_eq_none, h.qubitAt?_eq_none, hlist]
        simp [and_comm]
      rw [hplace, ok_bind]
      rcases ih (h.place hplace) hnext with
        ⟨hnodup, hrest, m', hfill, hm'⟩ | ⟨before, k, after, rfl, hnodup, hrest, hk, hfill⟩
      · simp only [hfree] at hrest
        refine Or.inl ⟨List.nodup_cons.mpr ⟨fun hin => (hrest l hin).1 rfl, hnodup⟩,
          List.forall_mem_cons.mpr ⟨hl, fun k hk => (hrest k hk).2⟩, m', hfill, ?_⟩
        rw [hm', hlist, List.append_assoc]
        rfl
      · simp only [hfree] at hrest
        refine Or.inr ⟨l :: before, k, after, rfl,
          List.nodup_cons.mpr ⟨fun hin => (hrest l hin).1 rfl, hnodup⟩,
          List.forall_mem_cons.mpr ⟨hl, fun k hk => (hrest k hk).2⟩, ?_, hfill⟩
        rw [Ne, hfree, not_and_or, not_not] at hk
        rcases hk with hk | rfl | hk
        · exact Or.inl (List.mem_cons_of_mem _ hk)
        · exact Or.inl List.mem_cons_self
        · exact Or.inr hk

end Fill

section Landing

variable {g : LaneGraph} {m : AtomMaps} {hops : List Hop}

/-- If the atom at the start of every lane can hop, and no two of these hops belong to one qubit, they all
hop together. -/
theorem hops_of_hop (hhop : ∀ h ∈ hops, m.hop g h.lane = .ok h) (hqubits : (hops.map (·.qubit)).Nodup) :
    m.hops g (hops.map (·.lane)) [] = .ok hops := by
  have key : ∀ moving : List Qubit, (∀ h' ∈ hops, h'.qubit ∉ moving) →
      m.hops g (hops.map (·.lane)) moving = .ok hops := by
    induction hops with
    | nil => exact fun _ _ => rfl
    | cons h' hops ih =>
      intro moving hmoving
      rw [List.forall_mem_cons] at hhop hmoving
      obtain ⟨hnew, hqubits⟩ := List.nodup_cons.mp hqubits
      have hrest : ∀ h'' ∈ hops, h''.qubit ∉ h'.qubit :: moving := by
        intro h'' hh
        rw [List.mem_cons, not_or]
        exact ⟨fun heq => hnew (List.mem_map.mpr ⟨h'', hh, heq⟩), hmoving.2 h'' hh⟩
      simp only [List.map_cons, AtomMaps.hops, hhop.1, ok_bind, List.contains_eq_mem, hmoving.1,
        decide_false, Bool.false_eq_true, if_false, ih hhop.2 hqubits _ hrest]
  exact key [] (by simp)

theorem landing_eq_ok {standing : List Location} (hends : (hops.map (·.dst)).Nodup)
    (hfree : ∀ h ∈ hops, h.dst ∉ standing) : landing standing hops = .ok () := by
  induction hops generalizing standing with
  | nil => rfl
  | cons h hops ih =>
    rw [List.forall_mem_cons] at hfree
    obtain ⟨hnew, hends⟩ := List.nodup_cons.mp hends
    have hrest : ∀ h' ∈ hops, h'.dst ∉ h.dst :: standing := by
      intro h' hh
      rw [List.mem_cons, not_or]
      exact ⟨fun heq => hnew (List.mem_map.mpr ⟨h', hh, heq⟩), hfree.2 h' hh⟩
    simp only [landing, List.contains_eq_mem, hfree.1, decide_false, Bool.false_eq_true, if_false]
    exact ih hends hrest

end Landing

end AtomMaps

namespace Atoms

open AtomMaps (fresh relocate relocate_qubit)

/-- The atoms stand where a placement has them, and have travelled as far. -/
structure Realizes (a : Atoms) (p : Placement) : Prop where
  qubits : a.list.map (·.qubit) = List.range p.layout.length
  locations : a.list.map (·.location) = p.layout
  travelled : a.list.map (·.moves) = p.moves

namespace Realizes

variable {a : Atoms} {p : Placement}

theorem getElem? (h : a.Realizes p) {q : Qubit} {x : Atom} (hx : a.list[q]? = some x) :
    x.qubit = q ∧ p.layout[q]? = some x.location ∧ p.moves[q]? = some x.moves := by
  refine ⟨?_, ?_, ?_⟩
  · have hq : (a.list.map (·.qubit))[q]? = some x.qubit := by rw [List.getElem?_map, hx]; rfl
    rw [h.qubits] at hq
    obtain ⟨_, hq⟩ := List.getElem?_eq_some_iff.mp hq
    rw [List.getElem_range] at hq
    exact hq.symm
  · rw [← h.locations, List.getElem?_map, hx]
    rfl
  · rw [← h.travelled, List.getElem?_map, hx]
    rfl

theorem atom_of_layout (h : a.Realizes p) {q : Qubit} {l : Location} (hl : p.layout[q]? = some l) :
    ∃ x, a.list[q]? = some x ∧ x.location = l := by
  rw [← h.locations, List.getElem?_map, Option.map_eq_some_iff] at hl
  exact hl

theorem locationOf? (h : a.Realizes p) (q : Qubit) : a.locationOf? q = p.layout[q]? := by
  refine Option.ext fun l => ?_
  rw [a.wellFormed.locationOf?_eq_some]
  constructor
  · rintro ⟨x, hx, rfl, rfl⟩
    obtain ⟨r, hr⟩ := List.mem_iff_getElem?.mp hx
    obtain ⟨rfl, hl, _⟩ := h.getElem? hr
    exact hl
  · intro hl
    obtain ⟨x, hx, hxl⟩ := h.atom_of_layout hl
    exact ⟨x, List.mem_of_getElem? hx, (h.getElem? hx).1, hxl⟩

theorem moves_eq (h : a.Realizes p) {q : Qubit} (hq : q < p.layout.length) :
    p.moves[q]? = some (a.moves q) := by
  obtain ⟨x, hx, _⟩ := h.atom_of_layout (List.getElem?_eq_getElem hq)
  obtain ⟨rfl, _, hmoves⟩ := h.getElem? hx
  rw [hmoves, (a.wellFormed.mem_list.mp (List.mem_of_getElem? hx)).2.1]

theorem qubitAt?_eq_some (h : a.Realizes p) {q : Qubit} {l : Location} :
    a.qubitAt? l = some q ↔ p.layout[q]? = some l := by
  rw [a.wellFormed.qubitAt?_eq_some, h.locationOf?]

theorem qubitAt?_eq_none (h : a.Realizes p) {l : Location} : a.qubitAt? l = none ↔ l ∉ p.layout := by
  rw [a.wellFormed.qubitAt?_eq_none, h.locations]

end Realizes

section Fill

theorem Realizes.fillWith {a : Atoms} {layout occupied : List Location} (locations : List Location)
    (h : a.Realizes ⟨occupied, layout, List.replicate layout.length 0⟩)
    (hn : (layout ++ locations).Nodup) :
    ∃ a', a.fillWith (locations.zipIdx layout.length) = .ok a' ∧
      a'.Realizes ⟨occupied, layout ++ locations,
        List.replicate (layout ++ locations).length 0⟩ := by
  obtain ⟨hqubits, hlocations, htravelled⟩ := h
  simp only at hqubits hlocations htravelled
  have hbelow : ∀ x ∈ a.list, x.qubit < layout.length := by
    intro x hx
    have hmem : x.qubit ∈ a.list.map (·.qubit) := List.mem_map_of_mem hx
    rwa [hqubits, List.mem_range] at hmem
  obtain ⟨_, hnodup, hdisjoint⟩ := List.nodup_append'.mp hn
  rcases a.wellFormed.fillWith_cases hbelow locations with
    ⟨_, _, m, hfill, hlist⟩ | ⟨before, l, after, rfl, _, _, hl, _⟩
  · refine ⟨⟨m, a.wellFormed.fillWith hfill⟩, pack_eq_ok.mpr hfill, ?_, ?_, ?_⟩ <;> simp only [hlist]
    · have hrange := List.range'_append_1 (s := 0) (m := layout.length) (n := locations.length)
      simpa [hqubits, List.range_eq_range'] using hrange
    · simp [hlocations]
    · have hmoves : (fresh layout.length locations).map (·.moves) = List.replicate locations.length 0 := by
        simp [fresh, Function.comp_def, List.map_const']
      simp [htravelled, hmoves]
  · rw [Ne, a.wellFormed.qubitAt?_eq_none, not_not, hlocations] at hl
    rcases hl with hl | hl
    · exact absurd List.mem_cons_self ((List.nodup_append'.mp hnodup).2.2 hl)
    · exact absurd (List.mem_append_right _ List.mem_cons_self) (hdisjoint hl)

theorem realizes_fill {layout : List Location} (hn : layout.Nodup) (occupied : List Location) :
    ∃ a, fill {} layout = .ok a ∧ a.Realizes ⟨occupied, layout, List.replicate layout.length 0⟩ := by
  have hempty : ({} : Atoms).Realizes ⟨occupied, [], List.replicate 0 0⟩ := ⟨rfl, rfl, rfl⟩
  obtain ⟨a, hfill, ha⟩ := hempty.fillWith layout (by simpa using hn)
  exact ⟨a, hfill, by simpa using ha⟩

end Fill

section Move

variable {g : LaneGraph} {a : Atoms} {p : Placement} {hops : List Hop}

theorem hops_eq_ok (hs : g.device.SingleSource) (h : a.Realizes p) (hstep : ParallelStep g p hops) :
    a.hops g (hops.map (·.lane)) [] = .ok hops := by
  apply AtomMaps.hops_of_hop _ hstep.qubits
  intro h' hh
  have hends := g.endpoints?_of_mem hs (hstep.edges h' hh)
  have hqubit := h.qubitAt?_eq_some.mpr (hstep.departs h' hh)
  simp only at hends
  simp only [AtomMaps.hop, hends, hqubit]

theorem Realizes.relocate (h : a.Realizes p) (hstep : ParallelStep g p hops) {a' : Atoms}
    (hlist : a'.list = a.list.map (AtomMaps.relocate hops)) : a'.Realizes (p.hopAll hops) := by
  have hat : ∀ (q : Qubit) (x : Atom), a.list[q]? = some x →
      (p.hopAll hops).layout[q]? = some (AtomMaps.relocate hops x).location ∧
        (p.hopAll hops).moves[q]? = some (AtomMaps.relocate hops x).moves := by
    intro q x hx
    obtain ⟨rfl, hlayout, hmoves⟩ := h.getElem? hx
    unfold AtomMaps.relocate
    split
    next hop hfind =>
      have hmem := List.mem_of_find?_eq_some hfind
      have heq : hop.qubit = x.qubit := by simpa using List.find?_some hfind
      have hlt : hop.qubit < p.layout.length :=
        (List.getElem?_eq_some_iff.mp (hstep.departs hop hmem)).1
      have hnew := Placement.hopAll_of_mem hstep.qubits hmem hlt
      rw [heq, hmoves] at hnew
      exact hnew
    next hfind =>
      have hout : x.qubit ∉ hops.map (·.qubit) := by
        intro hin
        obtain ⟨hop, hhop, heq⟩ := List.mem_map.mp hin
        simpa [heq] using List.find?_eq_none.mp hfind hop hhop
      rw [(Placement.hopAll_of_notMem hout).1, (Placement.hopAll_of_notMem hout).2]
      exact ⟨hlayout, hmoves⟩
  have hlength : a.list.length = p.layout.length := by
    rw [← List.length_map (f := (·.location)), h.locations]
  have hlength' : a.list.length = p.moves.length := by
    rw [← List.length_map (f := (·.moves)), h.travelled]
  refine ⟨?_, ?_, ?_⟩ <;> rw [hlist]
  · rw [List.map_map, Placement.length_hopAll, ← h.qubits]
    exact List.map_congr_left fun x _ => relocate_qubit hops x
  · refine List.ext_getElem? fun q => ?_
    rw [List.map_map, List.getElem?_map]
    cases hx : a.list[q]? with
    | none =>
      rw [List.getElem?_eq_none_iff, hlength] at hx
      exact (List.getElem?_eq_none (by rw [Placement.length_hopAll]; exact hx)).symm
    | some x => exact (hat q x hx).1.symm
  · refine List.ext_getElem? fun q => ?_
    rw [List.map_map, List.getElem?_map]
    cases hx : a.list[q]? with
    | none =>
      rw [List.getElem?_eq_none_iff, hlength'] at hx
      exact (List.getElem?_eq_none (by rw [Placement.length_moves_hopAll]; exact hx)).symm
    | some x => exact (hat q x hx).2.symm

/-- A possible step of the placement is a possible move of its atoms. -/
theorem Realizes.move (hs : g.device.SingleSource) (h : a.Realizes p) (hstep : ParallelStep g p hops) :
    ∃ a', a.move g (hops.map (·.lane)) = .ok a' ∧ a'.Realizes (p.hopAll hops) := by
  have hstanding : ∀ h' ∈ hops, h'.dst ∉ a.standing hops := by
    intro h' hh hin
    obtain ⟨x, hx, hl⟩ := List.mem_map.mp hin
    obtain ⟨hmem, hstays⟩ := List.mem_filter.mp hx
    obtain ⟨q, hq⟩ := List.mem_iff_getElem?.mp hmem
    obtain ⟨_, hlayout, _⟩ := h.getElem? hq
    have hout : q ∉ hops.map (·.qubit) := by
      intro hin
      obtain ⟨hop, hhop, rfl⟩ := List.mem_map.mp hin
      rw [hstep.departs hop hhop, Option.some.injEq] at hlayout
      simp only [Bool.not_eq_true', List.any_eq_false, decide_eq_true_eq] at hstays
      exact hstays hop hhop hlayout
    exact hstep.dst_ne_of_stays hh hout hlayout hl.symm
  obtain ⟨a', hmove, hlist⟩ := exists_move (Device.conflict?_eq_none hstep.compatible)
    (hops_eq_ok hs h hstep) (AtomMaps.landing_eq_ok hstep.ends_nodup hstanding)
  exact ⟨a', hmove, h.relocate hstep hlist⟩

end Move

end Atoms

end AtomTransport
