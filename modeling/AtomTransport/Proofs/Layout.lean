import AtomTransport.Proofs.AtomRecords

/-!
# Atoms by their layout

Filling and moving atoms depend on where the qubits are, and not on the way they have come: two states of
one layout can be filled and moved alike, fail alike, and have one layout again.
-/

namespace AtomTransport

namespace AtomMaps

open Ascending (put erase)

variable {m n : AtomMaps}

def sites (m : AtomMaps) : List (Location × Qubit) × List (Qubit × Location) := (m.qubits, m.locations)

theorem sites_eq_iff : m.sites = n.sites ↔ m.qubits = n.qubits ∧ m.locations = n.locations :=
  iff_of_eq (Prod.mk.injEq ..)

theorem qubitAt?_of_sites (h : m.sites = n.sites) (l : Location) : m.qubitAt? l = n.qubitAt? l := by
  rw [qubitAt?, (sites_eq_iff.mp h).1, qubitAt?]

theorem locationOf?_of_sites (h : m.sites = n.sites) (q : Qubit) : m.locationOf? q = n.locationOf? q := by
  rw [locationOf?, (sites_eq_iff.mp h).2, locationOf?]

theorem place_sites (h : m.sites = n.sites) (l : Location) (q : Qubit) :
    (m.place l q).map sites = (n.place l q).map sites := by
  obtain ⟨hqubits, hlocations⟩ := sites_eq_iff.mp h
  unfold place
  rw [qubitAt?_of_sites h, locationOf?_of_sites h]
  split_ifs
  · rfl
  · rfl
  · exact congrArg Except.ok (sites_eq_iff.mpr ⟨congrArg (put l q) hqubits, congrArg (put q l) hlocations⟩)

theorem hops_of_sites (g : LaneGraph) (h : m.sites = n.sites) (lanes : List Lane) (moving : List Qubit) :
    m.hops g lanes moving = n.hops g lanes moving := by
  induction lanes generalizing moving with
  | nil => rfl
  | cons lane lanes ih =>
    have hhop : m.hop g lane = n.hop g lane := by simp only [hop, qubitAt?_of_sites h]
    simp only [hops, hhop, ih]

theorem sites_lift (h : m.sites = n.sites) (hops : List Hop) : (m.lift hops).sites = (n.lift hops).sites := by
  induction hops generalizing m n with
  | nil => exact h
  | cons first hops ih =>
    obtain ⟨hqubits, hlocations⟩ := sites_eq_iff.mp h
    exact ih (sites_eq_iff.mpr ⟨congrArg (erase first.src) hqubits, hlocations⟩)

theorem drop_sites (h : m.sites = n.sites) (hops : List Hop) :
    (m.drop hops).map sites = (n.drop hops).map sites := by
  induction hops generalizing m n with
  | nil => exact congrArg Except.ok h
  | cons first hops ih =>
    obtain ⟨hqubits, hlocations⟩ := sites_eq_iff.mp h
    unfold drop
    rw [qubitAt?_of_sites h]
    split_ifs
    · rfl
    · exact ih (sites_eq_iff.mpr ⟨congrArg (put _ _) hqubits, congrArg (put _ _) hlocations⟩)

theorem bijective_of_sites (h : m.sites = n.sites) : m.bijective = n.bijective := by
  obtain ⟨hqubits, hlocations⟩ := sites_eq_iff.mp h
  cases m
  cases n
  cases hqubits
  cases hlocations
  rfl

theorem move_sites (g : LaneGraph) (h : m.sites = n.sites) (lanes : List Lane) :
    (m.move g lanes).map sites = (n.move g lanes).map sites := by
  unfold move
  split
  · rfl
  · rw [hops_of_sites g h]
    cases n.hops g lanes [] with
    | error e => rfl
    | ok hops =>
      have hdrop := drop_sites (sites_lift h hops) hops
      simp only [ok_bind]
      cases hm : (m.lift hops).drop hops <;> cases hn : (n.lift hops).drop hops <;>
        rw [hm, hn] at hdrop
      · exact hdrop
      · cases hdrop
      · cases hdrop
      · have hnext := Except.ok.inj hdrop
        simp only [ok_bind, bijective_of_sites hnext]
        split_ifs
        · exact hdrop
        · rfl

end AtomMaps

namespace Atoms

open AtomMaps (landing relocate)

section Pack

variable {x : Except AtomError AtomMaps} {h : ∀ m, x = .ok m → m.WellFormed}

@[simp] theorem pack_eq_ok {a : Atoms} : pack x h = .ok a ↔ x = .ok a.toAtomMaps := by
  cases x with
  | error e => exact ⟨nofun, nofun⟩
  | ok m =>
    refine ⟨fun heq => congrArg (Except.map toAtomMaps) heq, ?_⟩
    rintro ⟨⟩
    rfl

@[simp] theorem pack_eq_error {e : AtomError} : pack x h = .error e ↔ x = .error e := by
  cases x with
  | error e' =>
    refine ⟨fun heq => congrArg _ (Except.error.inj heq), ?_⟩
    rintro ⟨⟩
    rfl
  | ok m => exact ⟨nofun, nofun⟩

theorem map_pack {α : Type} (f : AtomMaps → α) : (pack x h).map (fun a => f a.toAtomMaps) = x.map f := by
  cases x <;> rfl

end Pack

variable {s t : Atoms} {g : LaneGraph} {lanes : List Lane}

def single (x : Atom) : Atoms where
  qubits := [(x.location, x.qubit)]
  locations := [(x.qubit, x.location)]
  lastLanes := x.lastLane.toList.map fun lane => (x.qubit, lane)
  counts := [(x.qubit, x.moves)]
  wellFormed := {
    qubits := List.pairwise_singleton _ _
    locations := List.pairwise_singleton _ _
    lastLanes := by cases x.lastLane <;> simp [Ascending.Sorted]
    counted := rfl
    ridden := fun q lane hlane => by
      refine ⟨x.location, ?_⟩
      cases hx : x.lastLane <;> simp_all [AtomMaps.lastLane?, AtomMaps.locationOf?, Ascending.get?]
    inverse := fun l q => by
      simp only [AtomMaps.qubitAt?, AtomMaps.locationOf?, Ascending.get?]
      split_ifs <;> simp_all [eq_comm] }

theorem ext_list (h : s.list = t.list) : s = t := by
  obtain ⟨m, hm⟩ := s
  obtain ⟨n, hn⟩ := t
  obtain rfl : m = n := hm.ext hn h
  rfl

theorem move_eq_ok (h : s.move g lanes = .ok t) : ∃ hops, s.hops g lanes [] = .ok hops ∧
    landing (s.standing hops) hops = .ok () ∧ t.list = s.list.map (relocate hops) :=
  s.wellFormed.move_eq_ok (pack_eq_ok.mp h)

theorem exists_move {hops : List Hop} (hconflict : g.device.conflict? lanes = none)
    (hhops : s.hops g lanes [] = .ok hops) (hland : landing (s.standing hops) hops = .ok ()) :
    ∃ t, s.move g lanes = .ok t ∧ t.list = s.list.map (relocate hops) := by
  obtain ⟨m, hmove, hlist⟩ := s.wellFormed.exists_move hconflict hhops hland
  exact ⟨⟨m, s.wellFormed.move hmove⟩, pack_eq_ok.mpr hmove, hlist⟩

theorem fillWith_cons (s : Atoms) (l : Location) (q : Qubit) (atoms : List (Location × Qubit)) :
    s.fillWith ((l, q) :: atoms) = s.place l q >>= fun t => t.fillWith atoms := by
  have hmaps : s.toAtomMaps.fillWith ((l, q) :: atoms) =
      s.toAtomMaps.place l q >>= fun m => m.fillWith atoms := rfl
  cases hplace : s.place l q with
  | error e => rw [error_bind, fillWith, pack_eq_error, hmaps, pack_eq_error.mp hplace, error_bind]
  | ok t =>
    have hrest : s.toAtomMaps.fillWith ((l, q) :: atoms) = t.toAtomMaps.fillWith atoms := by
      rw [hmaps, pack_eq_ok.mp hplace, ok_bind]
    rw [ok_bind]
    unfold fillWith
    congr 1

theorem sites_eq_iff : s.sites = t.sites ↔ s.layout = t.layout := by
  rw [AtomMaps.sites_eq_iff, s.wellFormed.qubits_eq_iff t.wellFormed, and_self]
  exact Iff.rfl

theorem sameLayout_eq (s t : Atoms) : s.sameLayout t = decide (s.layout = t.layout) := by
  rw [sameLayout, AtomMaps.sameLayout, decide_eq_decide, s.wellFormed.qubits_eq_iff t.wellFormed]
  exact Iff.rfl

theorem qubitAt?_of_layout (h : s.layout = t.layout) (l : Location) : s.qubitAt? l = t.qubitAt? l :=
  AtomMaps.qubitAt?_of_sites (sites_eq_iff.mpr h) l

/-- Two outcomes are alike if they are the same error or two states of one layout. -/
def Alike (x y : Except AtomError Atoms) : Prop := x.map (·.layout) = y.map (·.layout)

namespace Alike

variable {x y : Except AtomError Atoms}

theorem exists_ok {b : Atoms} (h : Alike x y) (hy : y = .ok b) :
    ∃ a, x = .ok a ∧ a.layout = b.layout := by
  subst hy
  cases x with
  | error e => cases h
  | ok a => exact ⟨a, rfl, Except.ok.inj h⟩

theorem of_pack {x y : Except AtomError AtomMaps} {hx : ∀ m, x = .ok m → m.WellFormed}
    {hy : ∀ m, y = .ok m → m.WellFormed} (h : x.map AtomMaps.sites = y.map AtomMaps.sites) : Alike (pack x hx) (pack y hy) := by
  have hlayout : ∀ z : Except AtomError AtomMaps, z.map AtomMaps.layout = (z.map AtomMaps.sites).map (·.2) := by
    intro z
    cases z <;> rfl
  rw [Alike, map_pack AtomMaps.layout, map_pack AtomMaps.layout, hlayout, hlayout, h]

theorem bind {f : Atoms → Except AtomError Atoms} (h : Alike x y)
    (hf : ∀ a b : Atoms, a.layout = b.layout → Alike (f a) (f b)) : Alike (x >>= f) (y >>= f) := by
  cases y with
  | error e =>
    cases x with
    | error e' => exact congrArg Except.error (Except.error.inj h)
    | ok a => cases h
  | ok b =>
    obtain ⟨a, rfl, hlayout⟩ := h.exists_ok rfl
    exact hf a b hlayout

end Alike

theorem alike_place (h : s.layout = t.layout) (l : Location) (q : Qubit) :
    Alike (s.place l q) (t.place l q) :=
  .of_pack (AtomMaps.place_sites (sites_eq_iff.mpr h) l q)

theorem alike_fillWith (h : s.layout = t.layout) (atoms : List (Location × Qubit)) :
    Alike (s.fillWith atoms) (t.fillWith atoms) := by
  induction atoms generalizing s t with
  | nil => exact congrArg Except.ok h
  | cons e atoms ih =>
    rw [fillWith_cons, fillWith_cons]
    exact (alike_place h e.1 e.2).bind fun _ _ hlayout => ih hlayout

theorem alike_fill (h : s.layout = t.layout) (locations : List Location) :
    Alike (s.fill locations) (t.fill locations) := by
  have hnext : s.nextQubit = t.nextQubit := by
    have hlocations : s.locations = t.locations := h
    rw [AtomMaps.nextQubit, AtomMaps.nextQubit, hlocations]
  have hfill : Alike (s.fillWith (locations.zipIdx s.nextQubit)) (t.fillWith (locations.zipIdx t.nextQubit)) :=
    hnext ▸ alike_fillWith h _
  exact hfill

theorem alike_move (g : LaneGraph) (h : s.layout = t.layout) (lanes : List Lane) :
    Alike (s.move g lanes) (t.move g lanes) :=
  .of_pack (AtomMaps.move_sites g (sites_eq_iff.mpr h) lanes)

end Atoms

end AtomTransport
