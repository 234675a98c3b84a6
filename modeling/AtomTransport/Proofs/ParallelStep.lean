import AtomTransport.Atoms
import AtomTransport.MoveLayer
import AtomTransport.Proofs.Device

/-!
# Parallel steps on placements

A step lets some atoms hop along lanes at the same time. `ParallelStep` says when a step is possible on
a placement, `Placement.hopAll` is the placement after it, and `Run` chains the steps of move layers.
Both the replay of move layers and the execution of move statements are measured by these runs.
A list of hops to fresh locations may be cut into steps in any way.
-/

namespace AtomTransport

namespace Placement

structure Sound (d : Device) (p : Placement) : Prop where
  exist : ∀ l ∈ p.layout, d.hasLocation l = true
  nodup : p.layout.Nodup
  free : ∀ l ∈ p.layout, l ∉ p.occupied
  length_moves : p.moves.length = p.layout.length

def hopAll (p : Placement) (hops : List Hop) : Placement :=
  hops.foldl (fun p h => p.relocate h.qubit h.dst 1) p

variable {p : Placement}

@[simp] theorem hopAll_nil : p.hopAll [] = p := rfl

theorem hopAll_cons (h : Hop) (hops : List Hop) :
    p.hopAll (h :: hops) = (p.relocate h.qubit h.dst 1).hopAll hops := rfl

theorem hopAll_append (hops more : List Hop) :
    p.hopAll (hops ++ more) = (p.hopAll hops).hopAll more := List.foldl_append

theorem getElem?_relocate (q r : Qubit) (l : Location) (n : Nat) :
    (p.relocate q l n).layout[r]? =
        (if q = r then (if q < p.layout.length then some l else none) else p.layout[r]?) ∧
      (p.relocate q l n).moves[r]? = (if q = r then (p.moves[r]?).map (· + .ofNat n) else p.moves[r]?) := by
  refine ⟨?_, ?_⟩
  · rw [relocate, List.getElem?_set]
  · rw [relocate, List.getElem?_modify]
    by_cases h : q = r
    · simp only [if_pos h]
      rfl
    · simp only [if_neg h]
      exact Option.map_id_apply ..

@[simp] theorem hopAll_occupied (hops : List Hop) : (p.hopAll hops).occupied = p.occupied := by
  induction hops generalizing p with
  | nil => rfl
  | cons h hops ih => rw [hopAll_cons, ih]; rfl

@[simp] theorem length_hopAll (hops : List Hop) :
    (p.hopAll hops).layout.length = p.layout.length := by
  induction hops generalizing p with
  | nil => rfl
  | cons h hops ih => rw [hopAll_cons, ih, relocate, List.length_set]

@[simp] theorem length_moves_hopAll (hops : List Hop) :
    (p.hopAll hops).moves.length = p.moves.length := by
  induction hops generalizing p with
  | nil => rfl
  | cons h hops ih => rw [hopAll_cons, ih, relocate, List.length_modify]

theorem hopAll_of_notMem {hops : List Hop} {q : Qubit} (hq : q ∉ hops.map (·.qubit)) :
    (p.hopAll hops).layout[q]? = p.layout[q]? ∧ (p.hopAll hops).moves[q]? = p.moves[q]? := by
  induction hops generalizing p with
  | nil => exact ⟨rfl, rfl⟩
  | cons h hops ih =>
    rw [List.map_cons, List.mem_cons, not_or] at hq
    obtain ⟨hlayout, hmoves⟩ := @ih (p.relocate h.qubit h.dst 1) hq.2
    obtain ⟨hl, hm⟩ := getElem?_relocate (p := p) h.qubit q h.dst 1
    rw [if_neg (Ne.symm hq.1)] at hl hm
    rw [hopAll_cons, hlayout, hmoves, hl, hm]
    exact ⟨rfl, rfl⟩

theorem hopAll_of_mem {hops : List Hop} (hn : (hops.map (·.qubit)).Nodup) {h : Hop} (hh : h ∈ hops)
    (hlt : h.qubit < p.layout.length) :
    (p.hopAll hops).layout[h.qubit]? = some h.dst ∧
      (p.hopAll hops).moves[h.qubit]? = (p.moves[h.qubit]?).map (· + 1) := by
  induction hops generalizing p with
  | nil => simp at hh
  | cons h' hops ih =>
    rw [List.map_cons, List.nodup_cons] at hn
    obtain ⟨hl, hm⟩ := getElem?_relocate (p := p) h'.qubit h.qubit h'.dst 1
    rw [hopAll_cons]
    rcases List.mem_cons.mp hh with rfl | hh
    · obtain ⟨hlayout, hmoves⟩ := hopAll_of_notMem (p := p.relocate h.qubit h.dst 1) hn.1
      rw [hlayout, hmoves, hl, hm, if_pos rfl, if_pos hlt, if_pos rfl]
      exact ⟨rfl, rfl⟩
    · have hne : h'.qubit ≠ h.qubit := by
        intro heq
        exact hn.1 (heq ▸ List.mem_map_of_mem (f := (·.qubit)) hh)
      have hlt' : h.qubit < (p.relocate h'.qubit h'.dst 1).layout.length := by
        simpa [relocate] using hlt
      rw [if_neg hne] at hm
      rw [← hm]
      exact ih hn.2 hh hlt'

theorem mem_layout_hopAll {hops : List Hop} {l : Location} (hl : l ∈ (p.hopAll hops).layout) :
    l ∈ p.layout ∨ l ∈ hops.map (·.dst) := by
  induction hops generalizing p with
  | nil => exact Or.inl hl
  | cons h hops ih =>
    rcases ih hl with hl | hl
    · rcases List.mem_or_eq_of_mem_set hl with hl | rfl
      · exact Or.inl hl
      · exact Or.inr List.mem_cons_self
    · exact Or.inr (List.mem_cons_of_mem _ hl)

theorem hopAll_perm {hops hops' : List Hop} (h : hops.Perm hops')
    (hn : (hops.map (·.qubit)).Nodup) : p.hopAll hops = p.hopAll hops' := by
  refine h.foldl_eq' ?_ p
  intro a ha b hb q
  by_cases hab : a = b
  · rw [hab]
  · have hne : a.qubit ≠ b.qubit := fun heq => hab (List.inj_on_of_nodup_map hn ha hb heq)
    simp only [relocate, Placement.mk.injEq, true_and]
    exact ⟨List.set_comm _ _ hne, List.modify_modify_ne _ _ _ hne⟩

end Placement

/-- A possible step: the hops follow edges that may be used together, start where their atoms stand, and
end on different locations that nobody else holds. -/
structure ParallelStep (g : LaneGraph) (p : Placement) (hops : List Hop) : Prop where
  edges : ∀ h ∈ hops, (⟨h.lane, h.src, h.dst⟩ : Segment) ∈ g.edges
  qubits : (hops.map (·.qubit)).Nodup
  departs : ∀ h ∈ hops, p.layout[h.qubit]? = some h.src
  lands : (p.hopAll hops).layout.Nodup
  avoids : ∀ h ∈ hops, h.dst ∉ p.occupied
  compatible : (hops.map (·.lane)).Pairwise (fun a b => g.device.compatible a b = true)

namespace ParallelStep

variable {g : LaneGraph} {p : Placement} {hops : List Hop}

theorem layout_of_mem (hstep : ParallelStep g p hops) {h : Hop} (hh : h ∈ hops) :
    (p.hopAll hops).layout[h.qubit]? = some h.dst := by
  have hlt := (List.getElem?_eq_some_iff.mp (hstep.departs h hh)).1
  exact (Placement.hopAll_of_mem hstep.qubits hh hlt).1

theorem qubit_eq (hstep : ParallelStep g p hops) {q r : Qubit} {l : Location}
    (hq : (p.hopAll hops).layout[q]? = some l) (hr : (p.hopAll hops).layout[r]? = some l) :
    q = r := by
  have hlt := (List.getElem?_eq_some_iff.mp hq).1
  exact (List.getElem?_inj hlt hstep.lands).mp (hq.trans hr.symm)

theorem ends_nodup (hstep : ParallelStep g p hops) : (hops.map (·.dst)).Nodup := by
  refine List.Nodup.map_on ?_ hstep.qubits.of_map
  intro a ha b hb heq
  have hq := hstep.qubit_eq (hstep.layout_of_mem ha) (heq ▸ hstep.layout_of_mem hb)
  exact List.inj_on_of_nodup_map hstep.qubits ha hb hq

theorem dst_ne_of_stays (hstep : ParallelStep g p hops) {h : Hop} (hh : h ∈ hops) {q : Qubit}
    {l : Location} (hq : q ∉ hops.map (·.qubit)) (hl : p.layout[q]? = some l) : h.dst ≠ l := by
  rintro rfl
  rw [← (Placement.hopAll_of_notMem hq).1] at hl
  exact hq (hstep.qubit_eq (hstep.layout_of_mem hh) hl ▸ List.mem_map_of_mem hh)

theorem sound (hstep : ParallelStep g p hops) (hs : g.device.SingleSource)
    (hp : p.Sound g.device) : (p.hopAll hops).Sound g.device := by
  have hsource : ∀ l ∈ (p.hopAll hops).layout, l ∈ p.layout ∨ ∃ h ∈ hops, h.dst = l := by
    intro l hl
    exact (Placement.mem_layout_hopAll hl).imp_right fun hl => List.mem_map.mp hl
  refine ⟨?_, hstep.lands, ?_, ?_⟩
  · intro l hl
    rcases hsource l hl with hl | ⟨h, hh, rfl⟩
    · exact hp.exist l hl
    · have hedge := hstep.edges h hh
      rw [g.edges_eq] at hedge
      exact (Device.endpoints_of_mem_edges hs hedge).2.2
  · intro l hl
    rw [Placement.hopAll_occupied]
    rcases hsource l hl with hl | ⟨h, hh, rfl⟩
    · exact hp.free l hl
    · exact hstep.avoids h hh
  · rw [Placement.length_hopAll, Placement.length_moves_hopAll, hp.length_moves]

end ParallelStep

def Run (g : LaneGraph) : Placement → List MoveLayer → Placement → Prop
  | p, [], p' => p = p'
  | p, layer :: rest, p' => ∃ hops, layer.lanes = hops.map (·.lane) ∧ ParallelStep g p hops ∧
      Run g (p.hopAll hops) rest p'

theorem Run.append {g : LaneGraph} {p q r : Placement} {ls ms : List MoveLayer}
    (h : Run g p ls q) (h' : Run g q ms r) : Run g p (ls ++ ms) r := by
  induction ls generalizing p with
  | nil =>
    obtain rfl : p = q := h
    exact h'
  | cons l ls ih =>
    obtain ⟨hops, hlanes, hstep, hrun⟩ := h
    exact ⟨hops, hlanes, hstep, ih hrun⟩

theorem Run.sound {g : LaneGraph} {p q : Placement} {ls : List MoveLayer} (h : Run g p ls q)
    (hs : g.device.SingleSource) (hp : p.Sound g.device) : q.Sound g.device := by
  induction ls generalizing p with
  | nil =>
    obtain rfl : p = q := h
    exact hp
  | cons l ls ih =>
    obtain ⟨hops, _, hstep, hrun⟩ := h
    exact ih hrun (hstep.sound hs hp)

theorem Run.length_layout {g : LaneGraph} {p q : Placement} {ls : List MoveLayer}
    (h : Run g p ls q) : q.layout.length = p.layout.length := by
  induction ls generalizing p with
  | nil =>
    obtain rfl : p = q := h
    rfl
  | cons l ls ih =>
    obtain ⟨hops, _, _, hrun⟩ := h
    rw [ih hrun, Placement.length_hopAll]

/-- Whatever the lanes of some layers stand for can be dealt out to the layers. -/
theorem MoveLayer.exists_plan {α : Type} {lane : α → Lane} {xs : List α} {layers : List MoveLayer}
    (h : (layers.flatMap (·.lanes)).Perm (xs.map lane)) :
    ∃ plan : List (List α), layers.map (·.lanes) = plan.map (·.map lane) ∧ plan.flatten.Perm xs := by
  have hcomp : Relation.Comp (· = List.map lane ·) List.Perm (layers.flatMap (·.lanes)) xs := by
    rw [List.eq_map_comp_perm]
    exact h
  obtain ⟨ys, hlanes, hperm⟩ := hcomp
  obtain ⟨plan, hplan, rfl⟩ : ∃ plan : List (List α),
      layers.map (·.lanes) = plan.map (·.map lane) ∧ plan.flatten = ys := by
    clear h hperm
    induction layers generalizing ys with
    | nil =>
      rw [List.flatMap_nil, eq_comm, List.map_eq_nil_iff] at hlanes
      exact ⟨[], rfl, hlanes.symm⟩
    | cons layer layers ih =>
      rw [List.flatMap_cons, eq_comm, List.map_eq_append_iff] at hlanes
      obtain ⟨first, rest, rfl, hfirst, hrest⟩ := hlanes
      obtain ⟨plan, hplan, rfl⟩ := ih rest hrest.symm
      exact ⟨first :: plan, by rw [List.map_cons, List.map_cons, hfirst, hplan], rfl⟩
  exact ⟨plan, hplan, hperm⟩

structure FreshHops (g : LaneGraph) (p : Placement) (hops : List Hop) : Prop where
  edges : ∀ h ∈ hops, (⟨h.lane, h.src, h.dst⟩ : Segment) ∈ g.edges
  qubits : (hops.map (·.qubit)).Nodup
  departs : ∀ h ∈ hops, p.layout[h.qubit]? = some h.src
  fresh : ∀ h ∈ hops, h.dst ∉ p.layout ∧ h.dst ∉ p.occupied
  ends : (hops.map (·.dst)).Nodup

namespace FreshHops

variable {g : LaneGraph} {p : Placement} {hops more : List Hop}

theorem perm (h : FreshHops g p hops) (hp : hops.Perm more) : FreshHops g p more where
  edges h' hh := h.edges h' (hp.mem_iff.mpr hh)
  qubits := (hp.map _).nodup_iff.mp h.qubits
  departs h' hh := h.departs h' (hp.mem_iff.mpr hh)
  fresh h' hh := h.fresh h' (hp.mem_iff.mpr hh)
  ends := (hp.map _).nodup_iff.mp h.ends

theorem left (h : FreshHops g p (hops ++ more)) : FreshHops g p hops where
  edges h' hh := h.edges h' (List.mem_append_left _ hh)
  qubits := List.Nodup.of_append_left (by simpa using h.qubits)
  departs h' hh := h.departs h' (List.mem_append_left _ hh)
  fresh h' hh := h.fresh h' (List.mem_append_left _ hh)
  ends := List.Nodup.of_append_left (by simpa using h.ends)

theorem right (h : FreshHops g p (hops ++ more)) : FreshHops g (p.hopAll hops) more := by
  have hq := h.qubits
  have he := h.ends
  rw [List.map_append, List.nodup_append'] at hq he
  refine ⟨fun h' hh => h.edges h' (List.mem_append_right _ hh), hq.2.1, ?_, ?_, he.2.1⟩
  · intro h' hh
    have hout : h'.qubit ∉ hops.map (·.qubit) := fun hin =>
      hq.2.2 hin (List.mem_map_of_mem (f := (·.qubit)) hh)
    rw [(Placement.hopAll_of_notMem hout).1]
    exact h.departs h' (List.mem_append_right _ hh)
  · intro h' hh
    obtain ⟨hl, ho⟩ := h.fresh h' (List.mem_append_right _ hh)
    rw [Placement.hopAll_occupied]
    refine ⟨?_, ho⟩
    intro hin
    rcases Placement.mem_layout_hopAll hin with hin | hin
    · exact hl hin
    · exact he.2.2 hin (List.mem_map_of_mem (f := (·.dst)) hh)

theorem nodup_hopAll (h : FreshHops g p hops) (hn : p.layout.Nodup) :
    (p.hopAll hops).layout.Nodup := by
  induction hops generalizing p with
  | nil => exact hn
  | cons h' hops ih =>
    have hfirst : (p.layout.set h'.qubit h'.dst).Nodup :=
      hn.set (h.fresh h' List.mem_cons_self).1
    have hsplit : FreshHops g p ([h'] ++ hops) := h
    exact ih hsplit.right hfirst

theorem parallelStep (h : FreshHops g p hops) (hn : p.layout.Nodup)
    (hc : (hops.map (·.lane)).Pairwise (fun a b => g.device.compatible a b = true)) :
    ParallelStep g p hops :=
  ⟨h.edges, h.qubits, h.departs, h.nodup_hopAll hn, fun h' hh => (h.fresh h' hh).2, hc⟩

/-- Fresh hops can be made layer by layer, in whatever way layers of compatible lanes hold them. -/
theorem run {layers : List MoveLayer} (h : FreshHops g p hops) (hn : p.layout.Nodup)
    (hc : ∀ l ∈ layers, l.lanes.Pairwise (fun a b => g.device.compatible a b = true))
    (hl : (layers.flatMap (·.lanes)).Perm (hops.map (·.lane))) : Run g p layers (p.hopAll hops) := by
  -- The order of the lanes in the layers is an order of the hops.
  obtain ⟨plan, hlanes, hperm⟩ := MoveLayer.exists_plan hl
  rw [Placement.hopAll_perm hperm.symm h.qubits]
  replace h := h.perm hperm.symm
  clear hl hperm
  induction plan generalizing layers p with
  | nil =>
    rw [List.map_nil, List.map_eq_nil_iff] at hlanes
    rw [hlanes]
    rfl
  | cons first plan ih =>
    obtain ⟨layer, rest, rfl, hfirst, hrest⟩ := List.map_eq_cons_iff.mp hlanes
    have hfirst : layer.lanes = first.map (·.lane) := hfirst
    have hstep : ParallelStep g p first :=
      h.left.parallelStep hn (hfirst ▸ hc layer List.mem_cons_self)
    rw [List.flatten_cons, Placement.hopAll_append]
    exact ⟨first, hfirst, hstep, ih hstep.lands (fun l hl => hc l (List.mem_cons_of_mem _ hl)) hrest
      h.right⟩

end FreshHops

end AtomTransport
