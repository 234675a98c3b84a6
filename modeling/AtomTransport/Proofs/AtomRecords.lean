import AtomTransport.Atoms
import AtomTransport.Proofs.Ascending
import AtomTransport.Proofs.Failure
import Mathlib.Data.Prod.Basic

/-!
# Atoms as records

Maps that fit together hold one record for every atom, in the order of the qubits, and nothing else. The loops
of a move over the maps come to one simultaneous step on the records: the atoms of the hops go to the ends,
and the move fails exactly when one of them does not find its end free.
-/

namespace AtomTransport

namespace Ascending

variable {α β γ : Type} [DecidableEq α]

theorem get?_eq_find? (k : α) (m : List (α × β)) : get? k m = (m.find? fun e => e.1 = k).map (·.2) := by
  induction m with
  | nil => rfl
  | cons e m ih =>
    by_cases hk : k = e.1
    · simp [get?, hk]
    · simp [get?, hk, Ne.symm hk, ih]

end Ascending

theorem find?_key_eq_some {α κ : Type} [DecidableEq κ] {key : α → κ} {xs : List α}
    (hn : (xs.map key).Nodup) {k : κ} {x : α} :
    xs.find? (fun y => key y = k) = some x ↔ x ∈ xs ∧ key x = k := by
  constructor
  · intro hx
    exact ⟨List.mem_of_find?_eq_some hx, by simpa using List.find?_some hx⟩
  · rintro ⟨hx, rfl⟩
    cases hfind : xs.find? (fun y => key y = key x) with
    | none => simpa using List.find?_eq_none.mp hfind x hx
    | some y =>
      have hkey : key y = key x := by simpa using List.find?_some hfind
      rw [List.inj_on_of_nodup_map hn (List.mem_of_find?_eq_some hfind) hx hkey]

namespace AtomMaps

open Ascending (Sorted get? put get?_put mem_of_get? get?_eq_some_iff get?_eq_none_iff)

variable {g : LaneGraph} {m m' : AtomMaps} {hops : List Hop} {lanes : List Lane} {l : Location} {q : Qubit}
  {x : Atom}

def atomOf? (m : AtomMaps) (q : Qubit) : Option Atom := m.list.find? (·.qubit = q)

def relocate (hops : List Hop) (a : Atom) : Atom :=
  match hops.find? (·.qubit = a.qubit) with
  | some h => { a with location := h.dst, moves := a.moves + 1, lastLane := some h.lane }
  | none => a

def standing (m : AtomMaps) (hops : List Hop) : List Location :=
  (m.list.filter fun a => !hops.any (·.src = a.location)).map (·.location)

/-- Whether the hopping atoms find free locations one after another. -/
def landing : List Location → List Hop → Except AtomError Unit
  | _, [] => .ok ()
  | standing, h :: rest =>
    if standing.contains h.dst then .error (.occupiedDestination h.lane h.dst)
    else landing (h.dst :: standing) rest

@[simp] theorem map_qubit_list (m : AtomMaps) : m.list.map (·.qubit) = m.locations.map (·.1) := by
  simp [list, Function.comp_def]

theorem layout_eq (m : AtomMaps) : m.layout = m.list.map fun x => (x.qubit, x.location) := by
  simp [layout, list, Function.comp_def]

theorem atomOf?_eq (m : AtomMaps) (q : Qubit) :
    m.atomOf? q = (m.locationOf? q).map fun l => ⟨q, l, m.moves q, m.lastLane? q⟩ := by
  rw [atomOf?, list, List.find?_map, locationOf?, Ascending.get?_eq_find?, Function.comp_def]
  cases hfind : m.locations.find? (fun e => e.1 = q) with
  | none => rfl
  | some e =>
    have hkey : e.1 = q := by simpa using List.find?_some hfind
    simp [hkey]

@[simp] theorem relocate_qubit (hops : List Hop) (x : Atom) : (relocate hops x).qubit = x.qubit := by
  unfold relocate
  split <;> rfl

namespace WellFormed

theorem nodup_qubits (h : m.WellFormed) : (m.list.map (·.qubit)).Nodup := by
  rw [map_qubit_list]
  exact h.locations.nodup

theorem locationOf?_eq_some (h : m.WellFormed) :
    m.locationOf? q = some l ↔ ∃ x ∈ m.list, x.qubit = q ∧ x.location = l := by
  rw [locationOf?, get?_eq_some_iff h.locations.nodup]
  simp only [list, List.mem_map]
  constructor
  · intro hmem
    exact ⟨_, ⟨(q, l), hmem, rfl⟩, rfl, rfl⟩
  · rintro ⟨_, ⟨e, he, rfl⟩, rfl, rfl⟩
    exact he

theorem moves_eq_zero (h : m.WellFormed) (hq : m.locationOf? q = none) : m.moves q = 0 := by
  rw [locationOf?, get?_eq_none_iff, ← h.counted, ← get?_eq_none_iff] at hq
  rw [moves, hq, Option.getD_none]

theorem lastLane?_eq_none (h : m.WellFormed) (hq : m.locationOf? q = none) : m.lastLane? q = none := by
  cases hlane : m.lastLane? q with
  | none => rfl
  | some lane =>
    obtain ⟨l, hl⟩ := h.ridden q lane hlane
    cases hq.symm.trans hl

theorem atomOf?_eq_some (h : m.WellFormed) : m.atomOf? q = some x ↔ x ∈ m.list ∧ x.qubit = q :=
  find?_key_eq_some h.nodup_qubits

theorem mem_list (h : m.WellFormed) : x ∈ m.list ↔
    m.locationOf? x.qubit = some x.location ∧ m.moves x.qubit = x.moves ∧
      m.lastLane? x.qubit = x.lastLane := by
  obtain ⟨q, l, n, lane⟩ := x
  have hx := h.atomOf?_eq_some (q := q) (x := ⟨q, l, n, lane⟩)
  rw [and_iff_left rfl, atomOf?_eq, Option.map_eq_some_iff] at hx
  simp only [← hx, Atom.mk.injEq, true_and]
  constructor
  · rintro ⟨l, hl, rfl, hmoves, hlane⟩
    exact ⟨hl, hmoves, hlane⟩
  · rintro ⟨hl, hmoves, hlane⟩
    exact ⟨l, hl, rfl, hmoves, hlane⟩

theorem record_mem (h : m.WellFormed) (hl : m.locationOf? q = some l) :
    ⟨q, l, m.moves q, m.lastLane? q⟩ ∈ m.list :=
  h.mem_list.mpr ⟨hl, rfl, rfl⟩

theorem qubitAt?_eq_none (h : m.WellFormed) : m.qubitAt? l = none ↔ l ∉ m.list.map (·.location) := by
  rw [Option.eq_none_iff_forall_ne_some, List.mem_map]
  simp only [ne_eq, h.qubitAt?_eq_some, h.locationOf?_eq_some]
  constructor
  · rintro hnone ⟨x, hx, hl⟩
    exact hnone x.qubit ⟨x, hx, rfl, hl⟩
  · rintro hout q ⟨x, hx, _, hl⟩
    exact hout ⟨x, hx, hl⟩

theorem qubits_eq_iff (h : m.WellFormed) (h' : m'.WellFormed) :
    m.qubits = m'.qubits ↔ m.locations = m'.locations := by
  constructor
  · intro heq
    refine h.locations.ext h'.locations fun q => Option.ext fun l => ?_
    change m.locationOf? q = some l ↔ m'.locationOf? q = some l
    rw [← h.qubitAt?_eq_some, ← h'.qubitAt?_eq_some, qubitAt?, qubitAt?, heq]
  · intro heq
    refine h.qubits.ext h'.qubits fun l => Option.ext fun q => ?_
    change m.qubitAt? l = some q ↔ m'.qubitAt? l = some q
    rw [h.qubitAt?_eq_some, h'.qubitAt?_eq_some, locationOf?, locationOf?, heq]

theorem sorted_counts (h : m.WellFormed) : Sorted m.counts := by
  rw [Sorted, h.counted]
  exact h.locations

theorem get?_counts (h : m.WellFormed) (q : Qubit) : get? q m.counts = (m.atomOf? q).map (·.moves) := by
  have hkeys : get? q m.counts = none ↔ m.locationOf? q = none := by
    rw [locationOf?, get?_eq_none_iff, get?_eq_none_iff, h.counted]
  rw [atomOf?_eq, Option.map_map]
  cases hl : m.locationOf? q with
  | none => exact hkeys.mpr hl
  | some l =>
    cases hcount : get? q m.counts with
    | none => cases hl.symm.trans (hkeys.mp hcount)
    | some n => simp [moves, hcount]

theorem lastLane?_eq (h : m.WellFormed) (q : Qubit) : m.lastLane? q = (m.atomOf? q).bind (·.lastLane) := by
  rw [atomOf?_eq]
  cases hl : m.locationOf? q with
  | none => exact h.lastLane?_eq_none hl
  | some l => rfl

theorem ext (h : m.WellFormed) (h' : m'.WellFormed) (heq : m.list = m'.list) : m = m' := by
  have hatom : ∀ q, m.atomOf? q = m'.atomOf? q := by
    intro q
    rw [atomOf?, atomOf?, heq]
  have hlocations : m.locations = m'.locations := by
    change m.layout = m'.layout
    rw [layout_eq, layout_eq, heq]
  have hlastLanes : m.lastLanes = m'.lastLanes := by
    refine h.lastLanes.ext h'.lastLanes fun q => ?_
    change m.lastLane? q = m'.lastLane? q
    rw [h.lastLane?_eq, h'.lastLane?_eq, hatom]
  have hcounts : m.counts = m'.counts := by
    refine h.sorted_counts.ext h'.sorted_counts fun q => ?_
    rw [h.get?_counts, h'.get?_counts, hatom]
  rw [AtomMaps.mk.injEq]
  exact ⟨(h.qubits_eq_iff h').mpr hlocations, hlocations, hlastLanes, hcounts⟩

end WellFormed

section Fill

theorem place_eq_ok (h : m.place l q = .ok m') : m.qubitAt? l = none ∧ m.locationOf? q = none ∧
    m' = { m with
      qubits := put l q m.qubits
      locations := put q l m.locations
      counts := put q 0 m.counts } := by
  unfold place at h
  split_ifs at h with hl hq
  cases h
  exact ⟨Option.not_isSome_iff_eq_none.mp hl, Option.not_isSome_iff_eq_none.mp hq, rfl⟩

theorem WellFormed.mem_list_place (h : m.WellFormed) (hplace : m.place l q = .ok m') :
    x ∈ m'.list ↔ x = { qubit := q, location := l } ∨ x ∈ m.list := by
  rw [(h.place hplace).mem_list, h.mem_list]
  obtain ⟨_, hq, rfl⟩ := place_eq_ok hplace
  obtain ⟨r, k, n, lane⟩ := x
  have hlane := h.lastLane?_eq_none hq
  simp only [locationOf?, moves, lastLane?, get?_put, Atom.mk.injEq] at hq hlane ⊢
  by_cases hr : r = q
  · simp [hr, hq, hlane, eq_comm]
  · simp [hr]

theorem WellFormed.place_eq_append (h : m.WellFormed) (hbelow : ∀ x ∈ m.list, x.qubit < q)
    (hl : m.qubitAt? l = none) :
    ∃ m', m.place l q = .ok m' ∧ m'.list = m.list ++ [{ qubit := q, location := l }] := by
  have hkeys : ∀ e ∈ m.locations, e.1 < q := fun e he => hbelow _ (List.mem_map_of_mem he)
  have hq : m.locationOf? q = none := by
    rw [locationOf?, get?_eq_none_iff]
    intro hin
    obtain ⟨e, he, heq⟩ := List.mem_map.mp hin
    exact Nat.ne_of_lt (hkeys e he) heq
  refine ⟨_, by rw [AtomMaps.place, hl, hq]; rfl, ?_⟩
  have hnew := h.lastLane?_eq_none hq
  have hold : ∀ e ∈ m.locations, (get? e.1 (put q 0 m.counts)).getD 0 = m.moves e.1 := by
    intro e he
    rw [get?_put, if_neg (Nat.ne_of_lt (hkeys e he)), moves]
  simp only [list, Ascending.put_eq_append hkeys, List.map_append, List.map_cons, List.map_nil]
  refine congrArg₂ _ (List.map_congr_left fun e he => ?_) ?_
  · exact congrArg (Atom.mk e.1 e.2 · (m.lastLane? e.1)) (hold e he)
  · simp [moves, lastLane?] at hnew ⊢
    exact hnew

end Fill

section Move

theorem relocate_cons {h : Hop} (hn : h.qubit ∉ hops.map (·.qubit)) (x : Atom) :
    relocate (h :: hops) x = relocate hops (relocate [h] x) := by
  by_cases hx : h.qubit = x.qubit
  · have hnone : hops.find? (·.qubit = x.qubit) = none := by
      rw [List.find?_eq_none]
      intro hop hhop heq
      exact hn (hx ▸ List.mem_map.mpr ⟨hop, hhop, of_decide_eq_true heq⟩)
    simp [relocate, hx, hnone]
  · simp [relocate, hx]

theorem Aligned.list_land (h : m.Aligned) {hop : Hop} (hop_mem : hop.qubit ∈ m.locations.map (·.1)) :
    (m.land hop).list = m.list.map (relocate [hop]) := by
  have hlocations : (m.land hop).locations = m.locations.map fun e =>
      if e.1 = hop.qubit then (hop.qubit, hop.dst) else e := h.locations.put_eq_map hop_mem hop.dst
  rw [list, hlocations, list, List.map_map, List.map_map]
  refine List.map_congr_left ?_
  intro e _
  by_cases hq : e.1 = hop.qubit
  · simp [relocate, hq, AtomMaps.land, moves, lastLane?]
  · simp [relocate, hq, Ne.symm hq, AtomMaps.land, moves, lastLane?, get?_put]

/-- Dropping the atoms of some hops one after another moves their records at once. -/
theorem Aligned.list_drop (h : m.Aligned) (hn : (hops.map (·.qubit)).Nodup)
    (hall : ∀ hop ∈ hops, hop.qubit ∈ m.locations.map (·.1)) (hdrop : m.drop hops = .ok m') :
    m'.list = m.list.map (relocate hops) := by
  induction hops generalizing m with
  | nil =>
    cases hdrop
    exact (List.map_id _).symm
  | cons first hops ih =>
    rw [List.forall_mem_cons] at hall
    obtain ⟨hnew, hn⟩ := List.nodup_cons.mp hn
    have hlist := h.list_land hall.1
    have hkeys : (m.land first).locations.map (·.1) = m.locations.map (·.1) := by
      rw [← map_qubit_list, hlist, List.map_map, ← map_qubit_list]
      exact List.map_congr_left fun x _ => relocate_qubit [first] x
    rw [ih (h.land first) hn (hkeys ▸ hall.2) (drop_cons_eq_ok hdrop).2, hlist, List.map_map]
    exact List.map_congr_left fun x _ => (relocate_cons hnew x).symm

theorem qubitAt?_lift (hops : List Hop) (l : Location) :
    (m.lift hops).qubitAt? l = if l ∈ hops.map (·.src) then none else m.qubitAt? l := by
  induction hops generalizing m with
  | nil => rfl
  | cons first hops ih =>
    change (AtomMaps.lift { m with qubits := Ascending.erase first.src m.qubits } hops).qubitAt? l = _
    rw [ih]
    change (if l ∈ hops.map (·.src) then none else get? l (Ascending.erase first.src m.qubits)) = _
    simp only [Ascending.get?_erase, ← ite_or, List.map_cons, List.mem_cons, or_comm, qubitAt?]

theorem WellFormed.isSome_qubitAt?_lift (h : m.WellFormed) (hops : List Hop) (l : Location) :
    ((m.lift hops).qubitAt? l).isSome = (m.standing hops).contains l := by
  rw [Bool.eq_iff_iff]
  simp only [qubitAt?_lift, List.contains_iff_mem, standing, List.mem_map, List.mem_filter,
    Bool.not_eq_true', List.any_eq_false, decide_eq_true_eq]
  split
  next hsrc =>
    obtain ⟨hop, hhop, rfl⟩ := hsrc
    refine ⟨nofun, ?_⟩
    rintro ⟨x, ⟨_, hstays⟩, hl⟩
    exact absurd hl.symm (hstays hop hhop)
  next hsrc =>
    rw [Option.isSome_iff_ne_none, Ne, h.qubitAt?_eq_none, not_not, List.mem_map]
    refine exists_congr fun x => ⟨?_, fun hx => ⟨hx.1.1, hx.2⟩⟩
    rintro ⟨hx, rfl⟩
    exact ⟨⟨hx, fun hop hhop heq => hsrc ⟨hop, hhop, heq⟩⟩, rfl⟩

/-- Dropping fails exactly where an atom does not find a free location. -/
theorem drop_map (hops : List Hop) (standing : List Location)
    (h : ∀ l, (m.qubitAt? l).isSome = standing.contains l) :
    (m.drop hops).map (fun _ => ()) = landing standing hops := by
  induction hops generalizing m standing with
  | nil => rfl
  | cons first hops ih =>
    rw [drop, landing, h first.dst]
    split
    · rfl
    · refine ih _ fun l => ?_
      change (get? l (put _ _ _)).isSome = _
      rw [get?_put, List.contains_cons, ← h l]
      by_cases hl : l = first.dst <;> simp [hl, qubitAt?]

namespace WellFormed

theorem bijective (h : m.WellFormed) : m.bijective = true := by
  have hmem : ∀ e, e ∈ m.qubits.map Prod.swap ↔ e ∈ m.locations := by
    rintro ⟨q, l⟩
    rw [← get?_eq_some_iff h.locations.nodup, ← locationOf?, ← h.qubitAt?_eq_some, qubitAt?,
      get?_eq_some_iff h.qubits.nodup]
    simp
  have hperm : (m.qubits.map Prod.swap).Perm m.locations :=
    (List.perm_ext_iff_of_nodup (h.qubits.nodup.of_map.map Prod.swap_injective)
      h.locations.nodup.of_map).mpr hmem
  rw [AtomMaps.bijective, Bool.and_eq_true, decide_eq_true_eq, List.all_eq_true]
  refine ⟨by rw [← hperm.length_eq, List.length_map], ?_⟩
  rintro ⟨l, q⟩ he
  rw [decide_eq_true_eq, locationOf?, get?_eq_some_iff h.locations.nodup]
  exact (hmem (q, l)).mp (List.mem_map.mpr ⟨_, he, rfl⟩)

theorem mem_locations_of_hops (h : m.WellFormed) (hhops : m.hops g lanes [] = .ok hops) :
    ∀ hop ∈ hops, hop.qubit ∈ m.locations.map (·.1) := by
  intro hop hhop
  have hl := h.qubitAt?_eq_some.mp ((hops_spec hhops).2.2.2 hop hhop).2
  exact List.mem_map_of_mem (mem_of_get? hl)

/-- The two loops of a move drop the records at the ends of their hops at once, if each end is free. -/
theorem lift_drop_records (h : m.WellFormed) (hhops : m.hops g lanes [] = .ok hops) :
    ((m.lift hops).drop hops).map list =
      (landing (m.standing hops) hops >>= fun _ => .ok (m.list.map (relocate hops))) := by
  have hdrop := drop_map hops (m.standing hops) (h.isSome_qubitAt?_lift hops)
  cases hresult : (m.lift hops).drop hops with
  | error e =>
    rw [hresult] at hdrop
    rw [← hdrop]
    rfl
  | ok m' =>
    rw [hresult] at hdrop
    have hlist : (m.lift hops).list = m.list := by simp [list, moves, lastLane?]
    rw [← hdrop, ← hlist, ← (h.aligned_lift hops).list_drop (hops_spec hhops).2.1
      (by simpa using h.mem_locations_of_hops hhops) hresult]
    rfl

/-- A move is one simultaneous step on the records, and its last check never fails. -/
theorem move_records (h : m.WellFormed) (g : LaneGraph) (lanes : List Lane) :
    (m.move g lanes).map list = (match g.device.conflict? lanes with
      | some (first, second) => .error (.address (.incompatibleLanes first second))
      | none => do
        let hops ← m.hops g lanes []
        landing (m.standing hops) hops
        .ok (m.list.map (relocate hops))) := by
  unfold AtomMaps.move
  cases g.device.conflict? lanes with
  | some pair => rfl
  | none =>
    cases hhops : m.hops g lanes [] with
    | error e => rfl
    | ok hops =>
      simp only [ok_bind, ← h.lift_drop_records hhops]
      cases hdrop : (m.lift hops).drop hops with
      | error e => rfl
      | ok m' => rw [ok_bind, if_pos (h.lift_drop hhops hdrop).bijective]

theorem move_eq_ok (h : m.WellFormed) (hmove : m.move g lanes = .ok m') : ∃ hops,
    m.hops g lanes [] = .ok hops ∧ landing (m.standing hops) hops = .ok () ∧
      m'.list = m.list.map (relocate hops) := by
  have hrecords := h.move_records g lanes
  rw [hmove] at hrecords
  split at hrecords
  · cases hrecords
  · obtain ⟨hops, hhops, hrest⟩ := bind_eq_ok.mp hrecords.symm
    obtain ⟨⟨⟩, hland, hlist⟩ := bind_eq_ok.mp hrest
    exact ⟨hops, hhops, hland, (Except.ok.inj hlist).symm⟩

theorem exists_move (h : m.WellFormed) (hconflict : g.device.conflict? lanes = none)
    (hhops : m.hops g lanes [] = .ok hops) (hland : landing (m.standing hops) hops = .ok ()) :
    ∃ m', m.move g lanes = .ok m' ∧ m'.list = m.list.map (relocate hops) := by
  have hrecords := h.move_records g lanes
  simp only [hconflict, hhops, hland, ok_bind] at hrecords
  cases hmove : m.move g lanes with
  | error e =>
    rw [hmove] at hrecords
    cases hrecords
  | ok m' =>
    rw [hmove] at hrecords
    exact ⟨m', rfl, Except.ok.inj hrecords⟩

end WellFormed

end Move

end AtomMaps

end AtomTransport
