import AtomTransport.Proofs.Atoms
import Mathlib.Algebra.BigOperators.Group.List.Basic
import Mathlib.Data.Nat.ModEq

/-!
# Atoms and their history

Fillings and moves keep the maps of the atoms together: every qubit has one location and one count, every
site has at most one qubit, and an atom that has moved stands at the end of its last lane. A move lifts all
its atoms before it drops any, so a chain or a ring of atoms may move on by one site, each to where the next
one was. No atom is lost or doubled by that, and each lane adds one to the counts, which have 32 bits.
-/

namespace AtomTransport

namespace AtomMaps

/-- The maps that fillings and `n` moves make out of the empty ones. -/
inductive ReachableIn (g : LaneGraph) : Nat → AtomMaps → Prop where
  | empty : ReachableIn g 0 {}
  | fill {n : Nat} {m m' : AtomMaps} (locations : List Location) (h : ReachableIn g n m)
      (hfill : m.fill locations = .ok m') : ReachableIn g n m'
  | fillWith {n : Nat} {m m' : AtomMaps} (atoms : List (Location × Qubit)) (h : ReachableIn g n m)
      (hfill : m.fillWith atoms = .ok m') : ReachableIn g n m'
  | move {n : Nat} {m m' : AtomMaps} (lanes : List Lane) (h : ReachableIn g n m)
      (hmove : m.move g lanes = .ok m') : ReachableIn g (n + 1) m'

def Reachable (g : LaneGraph) (m : AtomMaps) : Prop := ∃ n, ReachableIn g n m

variable {g : LaneGraph} {m m' : AtomMaps} {hops : List Hop} {lanes : List Lane} {n : Nat} {x : Atom}

theorem ReachableIn.wellFormed (h : ReachableIn g n m) : m.WellFormed := by
  induction h with
  | empty => exact .empty
  | fill locations _ hfill ih => exact ih.fillWith hfill
  | fillWith atoms _ hfill ih => exact ih.fillWith hfill
  | move lanes _ hmove ih => exact ih.move hmove

theorem Reachable.wellFormed (h : Reachable g m) : m.WellFormed := by
  obtain ⟨_, h⟩ := h
  exact h.wellFormed

namespace WellFormed

theorem present_iff (h : m.WellFormed) {q : Qubit} :
    (∃ l, m.locationOf? q = some l) ↔ q ∈ m.list.map (·.qubit) := by
  simp only [h.locationOf?_eq_some, List.mem_map]
  constructor
  · rintro ⟨_, x, hx, hq, _⟩
    exact ⟨x, hx, hq⟩
  · rintro ⟨x, hx, hq⟩
    exact ⟨x.location, x, hx, hq, rfl⟩

theorem qubits_move (h : m.WellFormed) (hmove : m.move g lanes = .ok m') :
    m'.list.map (·.qubit) = m.list.map (·.qubit) := by
  obtain ⟨hops, _, _, hlist⟩ := h.move_eq_ok hmove
  rw [hlist, List.map_map]
  exact List.map_congr_left fun x _ => relocate_qubit hops x

end WellFormed

section Steps

/-- An atom takes part in a step with one hop, which starts where the atom is, or stands on a location
from which no hop starts. -/
theorem WellFormed.relocate_cases (h : m.WellFormed) (hhops : m.hops g lanes [] = .ok hops) (hx : x ∈ m.list) :
    (∃ hop ∈ hops, hop.qubit = x.qubit ∧ hop.src = x.location ∧ relocate hops x =
        { x with location := hop.dst, moves := x.moves + 1, lastLane := some hop.lane }) ∨
      (x.qubit ∉ hops.map (·.qubit) ∧ x.location ∈ m.standing hops ∧ relocate hops x = x) := by
  obtain ⟨_, _, _, hall⟩ := hops_spec hhops
  have hat : m.qubitAt? x.location = some x.qubit := h.qubitAt?_eq_some.mpr (h.mem_list.mp hx).1
  cases hfind : hops.find? (·.qubit = x.qubit) with
  | some hop =>
    have hmem := List.mem_of_find?_eq_some hfind
    have hqubit : hop.qubit = x.qubit := by simpa using List.find?_some hfind
    have hsrc := h.qubitAt?_eq_some.mp (hall hop hmem).2
    rw [hqubit, (h.mem_list.mp hx).1] at hsrc
    exact Or.inl ⟨hop, hmem, hqubit, (Option.some.inj hsrc).symm, by simp only [relocate, hfind]⟩
  | none =>
    have hout : ∀ hop ∈ hops, hop.qubit ≠ x.qubit := by simpa using hfind
    refine Or.inr ⟨?_, ?_, by simp only [relocate, hfind]⟩
    · intro hin
      obtain ⟨hop, hhop, heq⟩ := List.mem_map.mp hin
      exact hout hop hhop heq
    · refine List.mem_map.mpr ⟨x, List.mem_filter.mpr ⟨hx, ?_⟩, rfl⟩
      simp only [Bool.not_eq_true', List.any_eq_false, decide_eq_true_eq]
      intro hop hhop hsrc
      have hqubit := (hall hop hhop).2
      rw [hsrc, hat] at hqubit
      exact hout hop hhop (Option.some.inj hqubit).symm

/-- What `n` moves leave in the records: a count has wrapped around at most if there were enough moves, and
an atom with a last lane stands at the end of it. -/
structure Travelled (g : LaneGraph) (n : Nat) (m : AtomMaps) : Prop where
  bound : ∀ x ∈ m.list, x.moves.toNat ≤ n
  moved : ∀ x ∈ m.list, 0 < x.moves.toNat → x.lastLane.isSome = true
  unwrapped : n < 2 ^ 32 → ∀ x ∈ m.list, x.lastLane.isSome = true → 0 < x.moves.toNat
  arrived : ∀ x ∈ m.list, ∀ lane, x.lastLane = some lane →
    ∃ src, g.endpoints? lane = some (src, x.location)

theorem Travelled.place (hm : m.WellFormed) (h : Travelled g n m) {l : Location} {q : Qubit}
    (hplace : m.place l q = .ok m') : Travelled g n m' := by
  constructor
  case bound =>
    intro x hx
    rcases (hm.mem_list_place hplace).mp hx with rfl | hx
    · exact Nat.zero_le n
    · exact h.bound x hx
  case moved =>
    intro x hx
    rcases (hm.mem_list_place hplace).mp hx with rfl | hx
    · exact fun hpos => absurd hpos (Nat.lt_irrefl 0)
    · exact h.moved x hx
  case unwrapped =>
    intro hn x hx
    rcases (hm.mem_list_place hplace).mp hx with rfl | hx
    · exact nofun
    · exact h.unwrapped hn x hx
  case arrived =>
    intro x hx
    rcases (hm.mem_list_place hplace).mp hx with rfl | hx
    · exact nofun
    · exact h.arrived x hx

theorem Travelled.fillWith {atoms : List (Location × Qubit)} (hm : m.WellFormed) (h : Travelled g n m)
    (hfill : m.fillWith atoms = .ok m') : Travelled g n m' := by
  induction atoms generalizing m with
  | nil =>
    cases hfill
    exact h
  | cons e atoms ih =>
    obtain ⟨mid, hplace, hfill⟩ := bind_eq_ok.mp hfill
    exact ih (hm.place hplace) (h.place hm hplace) hfill

theorem toNat_succ_le (c : UInt32) : (c + 1).toNat ≤ c.toNat + 1 := by
  rw [UInt32.toNat_add]
  exact Nat.mod_le _ _

theorem toNat_succ {c : UInt32} (h : c.toNat + 1 < 2 ^ 32) : (c + 1).toNat = c.toNat + 1 := by
  rw [UInt32.toNat_add]
  exact Nat.mod_eq_of_lt h

theorem Travelled.move (hm : m.WellFormed) (h : Travelled g n m) (hmove : m.move g lanes = .ok m') :
    Travelled g (n + 1) m' := by
  obtain ⟨hops, hhops, _, hlist⟩ := hm.move_eq_ok hmove
  obtain ⟨_, _, _, hall⟩ := hops_spec hhops
  constructor <;> rw [hlist]
  case bound =>
    rw [List.forall_mem_map]
    intro x hx
    rcases hm.relocate_cases hhops hx with ⟨hop, _, _, _, heq⟩ | ⟨_, _, heq⟩ <;> rw [heq]
    · exact Nat.le_trans (toNat_succ_le x.moves) (Nat.succ_le_succ (h.bound x hx))
    · exact Nat.le_succ_of_le (h.bound x hx)
  case moved =>
    rw [List.forall_mem_map]
    intro x hx
    rcases hm.relocate_cases hhops hx with ⟨hop, _, _, _, heq⟩ | ⟨_, _, heq⟩ <;> rw [heq]
    · exact fun _ => rfl
    · exact h.moved x hx
  case unwrapped =>
    rw [List.forall_mem_map]
    intro hn x hx
    have hbound := h.bound x hx
    rcases hm.relocate_cases hhops hx with ⟨hop, _, _, _, heq⟩ | ⟨_, _, heq⟩ <;> rw [heq]
    · intro _
      rw [toNat_succ (by omega)]
      exact Nat.succ_pos _
    · exact h.unwrapped (Nat.lt_of_succ_lt hn) x hx
  case arrived =>
    rw [List.forall_mem_map]
    intro x hx lane
    rcases hm.relocate_cases hhops hx with ⟨hop, hhop, _, _, heq⟩ | ⟨_, _, heq⟩ <;> rw [heq]
    · rintro ⟨⟩
      exact ⟨hop.src, (hall hop hhop).1⟩
    · exact h.arrived x hx lane

theorem ReachableIn.travelled (h : ReachableIn g n m) : Travelled g n m := by
  induction h with
  | empty => exact ⟨nofun, nofun, nofun, nofun⟩
  | fill locations h hfill ih => exact ih.fillWith h.wellFormed hfill
  | fillWith atoms h hfill ih => exact ih.fillWith h.wellFormed hfill
  | move lanes h hmove ih => exact ih.move h.wellFormed hmove

end Steps

section Total

end Total

def carousel : LaneGraph :=
  .ofDevice
    ⟨{ words := [{ sites := [(.ofNat 0, .ofNat 0), (.ofNat 10, .ofNat 0), (.ofNat 20, .ofNat 0)] }]
       zones := [[0]]
       siteBusWords := [0]
       wordBusSites := []
       siteBuses := [⟨[0, 1, 2], [1, 2, 0]⟩]
       wordBuses := [] }, .bits32⟩

def carouselLanes : List Lane := [0, 1, 2].map fun site => ⟨.site, 0, site, 0, .forward⟩

end AtomMaps

end AtomTransport
