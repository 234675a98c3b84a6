import AtomTransport.Proofs.LaneTables

/-!
# Finding lanes by their ends

A lane leads from one location to another if its bus pairs the two in the direction of travel. A search by ends
goes through the pairs of one bus after another and takes a pair in either direction, where the source side of a
backward lane is its end. If no bus lists a source twice, the search finds a lane exactly if some lane has these
ends, and the lane that it finds has them and runs on the lowest bus of all.
-/

namespace AtomTransport

theorem exists_of_findSome?_zipIdx {α β : Type} {f : α × Nat → Option β} {xs : List α} {y : β}
    (h : xs.zipIdx.findSome? f = some y) :
    ∃ i x, xs[i]? = some x ∧ f (x, i) = some y ∧ ∀ j < i, ∀ z, xs[j]? = some z → f (z, j) = none := by
  obtain ⟨before, ⟨x, i⟩, after, hsplit, hy, hbefore⟩ := List.findSome?_eq_some_iff.mp h
  have hget : ∀ j : Nat, (xs[j]?.map fun a => (a, j)) = (before ++ (x, i) :: after)[j]? := by
    intro j
    rw [← hsplit, List.getElem?_zipIdx, Nat.zero_add]
  have hlast := hget before.length
  simp only [List.getElem?_append_right (Nat.le_refl _), Nat.sub_self, List.getElem?_cons_zero,
    Option.map_eq_some_iff, Prod.mk.injEq] at hlast
  obtain ⟨_, hx, rfl, rfl⟩ := hlast
  refine ⟨before.length, _, hx, hy, ?_⟩
  intro j hj z hz
  have hmem := hget j
  rw [hz, List.getElem?_append_left hj] at hmem
  exact hbefore _ (List.mem_of_getElem? hmem.symm)

namespace LaneKind

def entry : LaneKind → Location → Nat
  | site, l => l.site
  | word, l => l.word

/-- Whether lanes of a kind can join two locations: site lanes stay in their word, and word lanes carry a site. -/
def Aligned : LaneKind → Location → Location → Prop
  | site, a, b => a.word = b.word
  | word, a, b => a.site = b.site

def lane (kind : LaneKind) (i : Nat) (direction : Direction) (l : Location) : Lane :=
  ⟨kind, l.word, l.site, i, direction⟩

variable {kind : LaneKind} {i : Nat} {direction : Direction} {a b : Location}

@[simp] theorem entry_lane : (kind.lane i direction a).entry = kind.entry a := by
  cases kind <;> rfl

theorem landing_lane (h : kind.Aligned a b) : (kind.lane i direction a).landing (kind.entry b) = b := by
  obtain ⟨w, s⟩ := a
  obtain ⟨w', s'⟩ := b
  cases kind <;> cases h <;> rfl

theorem Aligned.symm (h : kind.Aligned a b) : kind.Aligned b a := by
  cases kind <;> exact Eq.symm h

theorem Aligned.refl (a : Location) : kind.Aligned a a := by
  cases kind <;> rfl

theorem boarding_lane (h : kind.Aligned a b) :
    (kind.lane i direction a).boarding (kind.entry b) = kind.lane i .forward b := by
  obtain ⟨w, s⟩ := a
  obtain ⟨w', s'⟩ := b
  cases kind <;> cases h <;> rfl

end LaneKind

namespace Bus

def Joins (bus : Bus) (x y : Nat) : Prop := (x, y) ∈ bus.pairs ∨ (y, x) ∈ bus.pairs

variable {bus : Bus} {lane : Nat → Lane} {x y : Nat}

theorem busLane?_eq_some {l : Lane} (h : Device.busLane? bus lane x y = some l) :
    (x, y) ∈ bus.pairs ∧ l = lane x ∨ (y, x) ∈ bus.pairs ∧ l = (lane y).reverse := by
  obtain ⟨⟨s, t⟩, hpair, hl⟩ := List.exists_of_findSome?_eq_some h
  simp only at hl
  split_ifs at hl with hforward hbackward
  · obtain ⟨rfl, rfl⟩ := hforward
    exact Or.inl ⟨hpair, (Option.some.inj hl).symm⟩
  · obtain ⟨rfl, rfl⟩ := hbackward
    exact Or.inr ⟨hpair, (Option.some.inj hl).symm⟩

theorem busLane?_eq_none_iff : Device.busLane? bus lane x y = none ↔ ¬ bus.Joins x y := by
  rw [Device.busLane?, List.findSome?_eq_none_iff]
  constructor
  · rintro h (hpair | hpair)
    · simpa using h _ hpair
    · have hnone := h _ hpair
      simp only at hnone
      split_ifs at hnone with hforward hbackward
      exact hbackward ⟨trivial, trivial⟩
  · rintro h ⟨s, t⟩ hpair
    have hforward : ¬ (s = x ∧ t = y) := by
      rintro ⟨rfl, rfl⟩
      exact h (Or.inl hpair)
    have hbackward : ¬ (t = x ∧ s = y) := by
      rintro ⟨rfl, rfl⟩
      exact h (Or.inr hpair)
    simp only [hforward, hbackward, if_false]

end Bus

namespace Device

variable {d : Device} {kind : LaneKind} {a b : Location} {i : Nat}

/-- If no bus lists a source twice, a lane has the ends that any pair of its bus gives to it. -/
theorem endpoints_eq_ok_iff_pair (hs : d.SingleSource) {lane : Lane} {ends : Location × Location} :
    d.endpoints lane = .ok ends ↔ ∃ bus id, (d.buses lane.kind)[lane.bus]? = some bus ∧
      d.rides lane = true ∧ (lane.entry, id) ∈ bus.pairs ∧ d.hasLocation lane.source = true ∧
      d.hasLocation (lane.landing id) = true ∧ lane.ends (lane.landing id) = ends := by
  have hnodup : ∀ bus, (d.buses lane.kind)[lane.bus]? = some bus → bus.sources.Nodup := by
    intro bus hbus
    have hmem := List.mem_of_getElem? hbus
    cases hkind : lane.kind <;> rw [hkind] at hmem
    · exact hs.1 bus hmem
    · exact hs.2 bus hmem
  rw [endpoints_eq_ok_iff_sides]
  constructor
  · rintro ⟨l, hsides, hsource, hl, hends⟩
    obtain ⟨bus, id, hbus, hrides, hid, heq⟩ := laneSides_eq_ok_iff.mp hsides
    obtain rfl : lane.landing id = l := congrArg Prod.snd heq
    exact ⟨bus, id, hbus, hrides, Bus.mem_pairs_of_destination? hid, hsource, hl, hends⟩
  · rintro ⟨bus, id, hbus, hrides, hpair, hsource, hl, hends⟩
    have hid := Bus.destination?_of_mem_pairs (hnodup bus hbus) hpair
    exact ⟨_, laneSides_eq_ok_iff.mpr ⟨bus, id, hbus, hrides, hid, rfl⟩, hsource, hl, hends⟩

theorem rides_lane (h : kind.Aligned a b) {direction direction' : Direction} {j : Nat} :
    d.rides (kind.lane i direction b) = d.rides (kind.lane j direction' a) := by
  cases kind with
  | site => exact congrArg d.hasSiteBuses (Eq.symm h)
  | word => exact congrArg d.hasWordBuses (Eq.symm h)

section Joined

variable (hs : d.SingleSource) (ha : d.hasLocation a = true) (hb : d.hasLocation b = true) {bus : Bus}
include hs ha hb

theorem endpoints_forward (hab : kind.Aligned a b) (hbus : (d.buses kind)[i]? = some bus)
    (hrides : d.rides (kind.lane i .forward a) = true) (hpair : (kind.entry a, kind.entry b) ∈ bus.pairs) :
    d.endpoints (kind.lane i .forward a) = .ok (a, b) := by
  rw [endpoints_eq_ok_iff_pair hs]
  refine ⟨bus, kind.entry b, hbus, hrides, ?_, ha, ?_, ?_⟩
  · rwa [LaneKind.entry_lane]
  · rwa [LaneKind.landing_lane hab]
  · rw [LaneKind.landing_lane hab]
    rfl

theorem endpoints_backward (hab : kind.Aligned a b) (hbus : (d.buses kind)[i]? = some bus)
    (hrides : d.rides (kind.lane i .backward b) = true) (hpair : (kind.entry b, kind.entry a) ∈ bus.pairs) :
    d.endpoints (kind.lane i .backward b) = .ok (a, b) := by
  rw [endpoints_eq_ok_iff_pair hs]
  refine ⟨bus, kind.entry a, hbus, hrides, ?_, hb, ?_, ?_⟩
  · rwa [LaneKind.entry_lane]
  · rwa [LaneKind.landing_lane hab.symm]
  · rw [LaneKind.landing_lane hab.symm]
    rfl

end Joined

theorem joins_of_endpoints (hs : d.SingleSource) {lane : Lane} (h : d.endpoints lane = .ok (a, b)) :
    ∃ bus, (d.buses lane.kind)[lane.bus]? = some bus ∧ bus.Joins (lane.kind.entry a) (lane.kind.entry b) ∧
      d.rides (lane.kind.lane lane.bus .forward a) = true := by
  obtain ⟨bus, id, hbus, hrides, hpair, -, -, hends⟩ := (endpoints_eq_ok_iff_pair hs).mp h
  obtain ⟨kind, word, site, i, direction⟩ := lane
  refine ⟨bus, hbus, ?_⟩
  cases kind <;> cases direction <;> cases hends
  · exact ⟨Or.inl hpair, hrides⟩
  · exact ⟨Or.inr hpair, hrides⟩
  · exact ⟨Or.inl hpair, hrides⟩
  · exact ⟨Or.inr hpair, hrides⟩

variable (d) in
def laneBetween? (kind : LaneKind) (a b : Location) : Option Lane :=
  match kind with
  | .site => d.siteLaneBetween? a.word a.site b.site
  | .word => d.wordLaneBetween? a.site a.word b.word

theorem laneBetween?_eq : d.laneBetween? kind a b =
    if d.rides (kind.lane 0 .forward a) then
      (d.buses kind).zipIdx.findSome? fun (bus, i) =>
        busLane? bus (kind.lane i .forward a).boarding (kind.entry a) (kind.entry b)
    else none := by
  cases kind <;> rfl

variable (d) in
/-- A lane of a kind that leads from one location to another, on the lowest bus with such a lane. -/
structure LowestLane (kind : LaneKind) (a b : Location) (lane : Lane) : Prop where
  kind_eq : lane.kind = kind
  endpoints : d.endpoints lane = .ok (a, b)
  lowest : ∀ other : Lane, other.kind = kind → d.endpoints other = .ok (a, b) → lane.bus ≤ other.bus

theorem endpoints_of_busLane? (hs : d.SingleSource) (ha : d.hasLocation a = true) (hb : d.hasLocation b = true)
    (hab : kind.Aligned a b) {bus : Bus} (hbus : (d.buses kind)[i]? = some bus)
    (hrides : d.rides (kind.lane 0 .forward a) = true) {lane : Lane}
    (h : busLane? bus (kind.lane i .forward a).boarding (kind.entry a) (kind.entry b) = some lane) :
    lane.kind = kind ∧ lane.bus = i ∧ d.endpoints lane = .ok (a, b) := by
  rcases Bus.busLane?_eq_some h with ⟨hpair, rfl⟩ | ⟨hpair, rfl⟩
  · rw [LaneKind.boarding_lane (.refl a)]
    have hrides' : d.rides (kind.lane i .forward a) = true := (rides_lane (.refl a)).trans hrides
    exact ⟨rfl, rfl, endpoints_forward hs ha hb hab hbus hrides' hpair⟩
  · rw [LaneKind.boarding_lane hab]
    have hrides' : d.rides (kind.lane i .backward b) = true := (rides_lane hab).trans hrides
    exact ⟨rfl, rfl, endpoints_backward hs ha hb hab hbus hrides' hpair⟩

theorem lowestLane_of_laneBetween? (hs : d.SingleSource) (ha : d.hasLocation a = true)
    (hb : d.hasLocation b = true) (hab : kind.Aligned a b) {lane : Lane}
    (h : d.laneBetween? kind a b = some lane) : d.LowestLane kind a b lane := by
  rw [laneBetween?_eq] at h
  split_ifs at h with hrides
  obtain ⟨i, bus, hbus, hlane, hbefore⟩ := exists_of_findSome?_zipIdx h
  obtain ⟨hkind, rfl, hends⟩ := endpoints_of_busLane? hs ha hb hab hbus hrides hlane
  refine ⟨hkind, hends, ?_⟩
  rintro other rfl hother
  obtain ⟨bus', hbus', hjoins, _⟩ := joins_of_endpoints hs hother
  by_contra hlt
  exact Bus.busLane?_eq_none_iff.mp (hbefore other.bus (Nat.lt_of_not_le hlt) bus' hbus') hjoins

theorem exists_laneBetween?_iff (hs : d.SingleSource) (ha : d.hasLocation a = true)
    (hb : d.hasLocation b = true) (hab : kind.Aligned a b) :
    (∃ lane, d.laneBetween? kind a b = some lane) ↔
      ∃ lane : Lane, lane.kind = kind ∧ d.endpoints lane = .ok (a, b) := by
  constructor
  · rintro ⟨lane, h⟩
    have hlane := lowestLane_of_laneBetween? hs ha hb hab h
    exact ⟨lane, hlane.kind_eq, hlane.endpoints⟩
  · rintro ⟨lane, rfl, hends⟩
    obtain ⟨bus, hbus, hjoins, hrides⟩ := joins_of_endpoints hs hends
    rw [laneBetween?_eq, if_pos ((rides_lane (.refl a)).trans hrides), ← Option.isSome_iff_exists,
      Option.isSome_iff_ne_none]
    intro hnone
    have hmem : (bus, lane.bus) ∈ (d.buses lane.kind).zipIdx := List.mem_zipIdx_iff_getElem?.mpr hbus
    exact Bus.busLane?_eq_none_iff.mp (List.findSome?_eq_none_iff.mp hnone _ hmem) hjoins

/-- If no bus lists a source twice, then a site lane between two sites of a word is found exactly if there is
one, and a word lane between two words exactly if there is one for the site. The lane that is found leads from
the one location to the other, and no lane of its kind that does so runs on a lower bus. -/
theorem lane_lookup (hs : d.SingleSource) (ha : d.checkLocation a = .ok ()) (hb : d.checkLocation b = .ok ()) :
    (a.word = b.word →
      ((∃ lane, d.siteLaneBetween? a.word a.site b.site = some lane) ↔
        ∃ lane : Lane, lane.kind = .site ∧ d.endpoints lane = .ok (a, b)) ∧
      ∀ lane, d.siteLaneBetween? a.word a.site b.site = some lane → d.LowestLane .site a b lane) ∧
    (a.site = b.site →
      ((∃ lane, d.wordLaneBetween? a.site a.word b.word = some lane) ↔
        ∃ lane : Lane, lane.kind = .word ∧ d.endpoints lane = .ok (a, b)) ∧
      ∀ lane, d.wordLaneBetween? a.site a.word b.word = some lane → d.LowestLane .word a b lane) := by
  rw [checkLocation_eq_ok_iff] at ha hb
  constructor
  · intro hword
    have hab : LaneKind.site.Aligned a b := hword
    exact ⟨exists_laneBetween?_iff hs ha hb hab, fun lane => lowestLane_of_laneBetween? hs ha hb hab⟩
  · intro hsite
    have hab : LaneKind.word.Aligned a b := hsite
    exact ⟨exists_laneBetween?_iff hs ha hb hab, fun lane => lowestLane_of_laneBetween? hs ha hb hab⟩

/-- Two words of three sites. The first site bus returns to its only source, the second one leads from the second
site to the first one, and the third one leads the other way; the word buses join the words both ways. -/
def sidings : Blueprint :=
  { words := List.replicate 2 { sites := [(.ofNat 0, .ofNat 0), (.ofNat 10, .ofNat 0), (.ofNat 20, .ofNat 0)] }
    zones := [[0, 1]]
    siteBusWords := [0, 1]
    wordBusSites := [0]
    siteBuses := [⟨[2], [2]⟩, ⟨[1], [0]⟩, ⟨[0, 1], [1, 2]⟩]
    wordBuses := [⟨[1], [0]⟩, ⟨[0, 1], [1, 0]⟩] }

/-- The lane from the first site to the second one and the lane from the first word to the second one are found on
the lower of two buses, which both run backwards there. -/
theorem lane_lookup_sidings : ∃ d, ofBlueprint sidings = .ok d ∧ d.SingleSource ∧
    d.checkLocation ⟨0, 0⟩ = .ok () ∧ d.checkLocation ⟨0, 1⟩ = .ok () ∧ d.checkLocation ⟨1, 0⟩ = .ok () ∧
    d.siteLaneBetween? 0 0 1 = some ⟨.site, 0, 1, 1, .backward⟩ ∧
    d.LowestLane .site ⟨0, 0⟩ ⟨0, 1⟩ ⟨.site, 0, 1, 1, .backward⟩ ∧
    d.wordLaneBetween? 0 0 1 = some ⟨.word, 1, 0, 0, .backward⟩ ∧
    d.LowestLane .word ⟨0, 0⟩ ⟨1, 0⟩ ⟨.word, 1, 0, 0, .backward⟩ := by
  have hd : ofBlueprint sidings = .ok ⟨sidings.normalize, .bits32⟩ := by decide +kernel
  have hs : SingleSource ⟨sidings.normalize, .bits32⟩ := by decide +kernel
  have hstart : checkLocation ⟨sidings.normalize, .bits32⟩ ⟨0, 0⟩ = .ok () := by decide +kernel
  have hsite : checkLocation ⟨sidings.normalize, .bits32⟩ ⟨0, 1⟩ = .ok () := by decide +kernel
  have hword : checkLocation ⟨sidings.normalize, .bits32⟩ ⟨1, 0⟩ = .ok () := by decide +kernel
  have hsiteLane : siteLaneBetween? ⟨sidings.normalize, .bits32⟩ 0 0 1 = some ⟨.site, 0, 1, 1, .backward⟩ := by
    decide +kernel
  have hwordLane : wordLaneBetween? ⟨sidings.normalize, .bits32⟩ 0 0 1 = some ⟨.word, 1, 0, 0, .backward⟩ := by
    decide +kernel
  exact ⟨_, hd, hs, hstart, hsite, hword, hsiteLane, ((lane_lookup hs hstart hsite).1 rfl).2 _ hsiteLane,
    hwordLane, ((lane_lookup hs hstart hword).2 rfl).2 _ hwordLane⟩

end Device

end AtomTransport
