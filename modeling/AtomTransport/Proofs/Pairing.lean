import AtomTransport.Proofs.History
import AtomTransport.Proofs.ZoneReading

/-!
# The interacting pairs of a zone

A scan of the sites of a zone meets both sites of every pair, and the pair counts at the lower one. An
atom whose partner site is empty or does not exist is left over. On an accepted device the pairs of a word
are symmetric and stay in the word, so no atom is counted twice and none is lost, as long as the zone does
not list a word twice.
-/

namespace AtomTransport

def Pairing.pairs (p : Pairing) : List (Qubit × Qubit) := p.controls.zip p.targets

namespace Device

variable {d : Device} {b : Blueprint} {z : Zone} {l m : Location}

def hasSite (d : Device) (z : Zone) (l : Location) : Bool :=
  (d.zoneWords? z).any (·.contains l.word) && d.hasLocation l

theorem mem_zoneLocations_iff {locations : List Location}
    (h : d.zoneLocations? z = some locations) : l ∈ locations ↔ d.hasSite z l = true := by
  obtain ⟨words, hwords, rfl⟩ := Option.map_eq_some_iff.mp h
  simp only [List.mem_flatMap, mem_wordLocations, hasSite, hwords, Option.any_some, Bool.and_eq_true,
    List.contains_iff_mem]
  constructor
  · rintro ⟨_, hword, rfl, hl⟩
    exact ⟨hword, hl⟩
  · rintro ⟨hword, hl⟩
    exact ⟨l.word, hword, rfl, hl⟩

theorem nodup_zoneLocations {words : List Nat} {locations : List Location}
    (hwords : d.zoneWords? z = some words) (hn : words.Nodup)
    (h : d.zoneLocations? z = some locations) : locations.Nodup := by
  rw [zoneLocations?, hwords, Option.map_some, Option.some.injEq] at h
  subst h
  refine List.nodup_flatMap.mpr ⟨?_, ?_⟩
  · intro word _
    unfold wordLocations
    cases d.word? word with
    | none => exact List.nodup_nil
    | some w => exact List.nodup_range.map fun _ _ heq => (Location.mk.inj heq).2
  · refine hn.imp ?_
    intro v w hne l hv hw
    exact hne ((mem_wordLocations.mp hv).1.symm.trans (mem_wordLocations.mp hw).1)

theorem hasSite_of_blockaded (hb : ofBlueprint b = .ok d) (h : d.blockaded? l = some m)
    (hl : d.hasSite z l = true) : d.hasSite z m = true := by
  obtain ⟨hword, _, _, hm⟩ := blockaded?_eq_some hb h
  simp only [hasSite, Bool.and_eq_true] at hl ⊢
  rw [hword]
  exact ⟨hl.1, hm⟩

theorem mem_zoneLocations_of_blockaded (hb : ofBlueprint b = .ok d) (h : d.blockaded? l = some m)
    (hl : l ∈ (d.zoneLocations? z).getD []) : m ∈ (d.zoneLocations? z).getD [] := by
  cases hlocations : d.zoneLocations? z with
  | none => simp [hlocations] at hl
  | some locations =>
    rw [hlocations, Option.getD_some, mem_zoneLocations_iff hlocations] at hl
    exact (mem_zoneLocations_iff hlocations).mpr (hasSite_of_blockaded hb h hl)

theorem site_lt_of_blockaded (hb : ofBlueprint b = .ok d) (h : d.blockaded? l = some m) (hlt : l < m) :
    l.word = m.word ∧ l.site < m.site := by
  obtain ⟨hword, _, _, _⟩ := blockaded?_eq_some hb h
  rcases hlt with hlt | ⟨_, hlt⟩
  · omega
  · exact ⟨hword.symm, hlt⟩

end Device

namespace AtomMaps

variable {g : LaneGraph} {d : Device} {b : Blueprint} {a : AtomMaps} {z : Zone} {q r : Qubit} {l m : Location}

def InteractsAt (d : Device) (a : AtomMaps) (pair : Qubit × Qubit) (l : Location) : Prop :=
  ∃ m, a.qubitAt? l = some pair.1 ∧ d.blockaded? l = some m ∧ a.qubitAt? m = some pair.2 ∧ l < m

def AloneAt (d : Device) (a : AtomMaps) (q : Qubit) (l : Location) : Prop :=
  a.qubitAt? l = some q ∧ ∀ m, d.blockaded? l = some m → a.qubitAt? m = none

/-- The pair that counts at a location. -/
def coupleAt? (d : Device) (a : AtomMaps) (l : Location) : Option (Qubit × Qubit) := do
  let q ← a.qubitAt? l
  let m ← d.blockaded? l
  let r ← a.qubitAt? m
  if l < m then some (q, r) else none

def singleAt? (d : Device) (a : AtomMaps) (l : Location) : Option Qubit :=
  match (d.blockaded? l).bind a.qubitAt? with
  | some _ => none
  | none => a.qubitAt? l

theorem coupleAt?_eq_some {pair : Qubit × Qubit} :
    a.coupleAt? d l = some pair ↔ a.InteractsAt d pair l := by
  obtain ⟨q, r⟩ := pair
  simp only [coupleAt?, InteractsAt, Option.bind_eq_bind, Option.bind_eq_some_iff]
  constructor
  · rintro ⟨q', hq, m, hm, r', hr, h⟩
    split_ifs at h with hlt
    cases h
    exact ⟨m, hq, hm, hr, hlt⟩
  · rintro ⟨m, hq, hm, hr, hlt⟩
    exact ⟨q, hq, m, hm, r, hr, if_pos hlt⟩

theorem singleAt?_eq_some : a.singleAt? d l = some q ↔ a.AloneAt d q l := by
  unfold singleAt? AloneAt
  cases hm : d.blockaded? l with
  | none => simp
  | some m => cases hr : a.qubitAt? m <;> simp [hr]

theorem addToPairing_eq (p : Pairing) (l : Location) : a.addToPairing d p l =
    ⟨p.controls ++ (a.coupleAt? d l).toList.map (·.1), p.targets ++ (a.coupleAt? d l).toList.map (·.2),
      p.unpaired ++ (a.singleAt? d l).toList⟩ := by
  unfold addToPairing coupleAt? singleAt?
  cases hq : a.qubitAt? l with
  | none => cases (d.blockaded? l).bind a.qubitAt? <;> simp
  | some q =>
    cases hm : d.blockaded? l with
    | none => simp
    | some m =>
      cases hr : a.qubitAt? m with
      | none => simp [hr]
      | some r => by_cases hlt : l < m <;> simp [hr, hlt]

/-- A scan collects what counts at each location. -/
theorem foldl_addToPairing (locations : List Location) (p : Pairing) :
    locations.foldl (a.addToPairing d) p =
      ⟨p.controls ++ (locations.filterMap (a.coupleAt? d)).map (·.1),
        p.targets ++ (locations.filterMap (a.coupleAt? d)).map (·.2),
        p.unpaired ++ locations.filterMap (a.singleAt? d)⟩ := by
  induction locations generalizing p with
  | nil => simp
  | cons l locations ih =>
    rw [List.foldl_cons, ih, addToPairing_eq]
    cases hcouple : a.coupleAt? d l <;> cases hsingle : a.singleAt? d l <;>
      simp [hcouple, hsingle]

theorem pairing?_eq_some {locations : List Location} (h : d.zoneLocations? z = some locations) :
    a.pairing? d z = some ⟨(locations.filterMap (a.coupleAt? d)).map (·.1),
      (locations.filterMap (a.coupleAt? d)).map (·.2), locations.filterMap (a.singleAt? d)⟩ := by
  rw [pairing?, h, Option.map_some, foldl_addToPairing]
  rfl

theorem mem_pairs_of_pairing? {pairing : Pairing} (h : a.pairing? d z = some pairing)
    (pair : Qubit × Qubit) :
    pair ∈ pairing.pairs ↔ ∃ l ∈ (d.zoneLocations? z).getD [], a.InteractsAt d pair l := by
  obtain ⟨locations, hlocations, -⟩ := Option.map_eq_some_iff.mp h
  rw [pairing?_eq_some hlocations, Option.some.injEq] at h
  subst h
  simp only [Pairing.pairs, List.zip_map', hlocations, Option.getD_some, List.map_id',
    List.mem_filterMap, coupleAt?_eq_some]

def residents (d : Device) (a : AtomMaps) (z : Zone) : List Qubit :=
  (a.list.filter fun x => d.hasSite z x.location).map (·.qubit)

namespace WellFormed

theorem mem_residents (ha : a.WellFormed) :
    q ∈ a.residents d z ↔ ∃ l, a.qubitAt? l = some q ∧ d.hasSite z l = true := by
  simp only [residents, List.mem_map, List.mem_filter, ha.qubitAt?_eq_some, ha.locationOf?_eq_some]
  constructor
  · rintro ⟨x, ⟨hx, hsite⟩, rfl⟩
    exact ⟨x.location, ⟨x, hx, rfl, rfl⟩, hsite⟩
  · rintro ⟨_, ⟨x, hx, rfl, rfl⟩, hsite⟩
    exact ⟨x, ⟨hx, hsite⟩, rfl⟩

theorem nodup_residents (ha : a.WellFormed) : (a.residents d z).Nodup :=
  ha.nodup_qubits.sublist (List.filter_sublist.map _)

theorem location_unique (ha : a.WellFormed) (hl : a.qubitAt? l = some q) (hm : a.qubitAt? m = some q) :
    l = m := by
  rw [ha.qubitAt?_eq_some] at hl hm
  exact Option.some.inj (hl.symm.trans hm)

section Parts

variable {locations : List Location}

theorem nodup_controls (ha : a.WellFormed) (hn : locations.Nodup) :
    ((locations.filterMap (a.coupleAt? d)).map (·.1)).Nodup := by
  rw [List.map_filterMap]
  refine hn.filterMap ?_
  intro l l' q hmem hmem'
  obtain ⟨_, hl, rfl⟩ := Option.map_eq_some_iff.mp hmem
  obtain ⟨_, hl', heq⟩ := Option.map_eq_some_iff.mp hmem'
  obtain ⟨_, hq, _⟩ := coupleAt?_eq_some.mp hl
  obtain ⟨_, hq', _⟩ := coupleAt?_eq_some.mp hl'
  exact ha.location_unique hq (heq ▸ hq')

theorem nodup_targets (ha : a.WellFormed) (hb : Device.ofBlueprint b = .ok d) (hn : locations.Nodup) :
    ((locations.filterMap (a.coupleAt? d)).map (·.2)).Nodup := by
  rw [List.map_filterMap]
  refine hn.filterMap ?_
  intro l l' r hmem hmem'
  obtain ⟨_, hl, rfl⟩ := Option.map_eq_some_iff.mp hmem
  obtain ⟨_, hl', heq⟩ := Option.map_eq_some_iff.mp hmem'
  obtain ⟨m, _, hm, hr, _⟩ := coupleAt?_eq_some.mp hl
  obtain ⟨m', _, hm', hr', _⟩ := coupleAt?_eq_some.mp hl'
  -- Both targets sit on one site, and that site names one partner.
  obtain rfl : m = m' := ha.location_unique hr (heq ▸ hr')
  have hback := (Device.blockaded?_eq_some hb hm).2.2.1
  have hback' := (Device.blockaded?_eq_some hb hm').2.2.1
  exact Option.some.inj (hback.symm.trans hback')

theorem nodup_unpaired (ha : a.WellFormed) (hn : locations.Nodup) :
    (locations.filterMap (a.singleAt? d)).Nodup := by
  refine hn.filterMap ?_
  intro l l' q hl hl'
  exact ha.location_unique (singleAt?_eq_some.mp hl).1 (singleAt?_eq_some.mp hl').1

theorem control_ne_target (ha : a.WellFormed) (hb : Device.ofBlueprint b = .ok d)
    {pair pair' : Qubit × Qubit} (h : a.InteractsAt d pair l) (h' : a.InteractsAt d pair' m) :
    pair.1 ≠ pair'.2 := by
  obtain ⟨n, hq, hn, _, hlt⟩ := h
  obtain ⟨n', _, hn', hr, hlt'⟩ := h'
  intro heq
  obtain rfl : l = n' := ha.location_unique hq (heq ▸ hr)
  have hback := (Device.blockaded?_eq_some hb hn').2.2.1
  obtain rfl : n = m := Option.some.inj (hn.symm.trans hback)
  exact asymm_of (fun x y : Location => x < y) hlt hlt'

theorem alone_of_no_pair (ha : a.WellFormed) (hb : Device.ofBlueprint b = .ok d)
    {pair : Qubit × Qubit} (h : a.InteractsAt d pair l) (halone : a.AloneAt d q m) :
    q ≠ pair.1 ∧ q ≠ pair.2 := by
  obtain ⟨n, hfirst, hn, hsecond, _⟩ := h
  obtain ⟨hq, hempty⟩ := halone
  refine ⟨?_, ?_⟩
  · rintro rfl
    obtain rfl := ha.location_unique hq hfirst
    cases hsecond.symm.trans (hempty n hn)
  · rintro rfl
    obtain rfl := ha.location_unique hq hsecond
    have hback := (Device.blockaded?_eq_some hb hn).2.2.1
    cases hfirst.symm.trans (hempty l hback)

/-- A qubit on a site is on the lower site of an occupied pair, on the higher one, or alone. -/
theorem interacts_or_alone (hb : Device.ofBlueprint b = .ok d) (hq : a.qubitAt? l = some q) :
    (∃ r, a.InteractsAt d (q, r) l) ∨ (∃ m r, d.blockaded? l = some m ∧ a.InteractsAt d (r, q) m) ∨
      a.AloneAt d q l := by
  by_cases halone : ∀ m, d.blockaded? l = some m → a.qubitAt? m = none
  · exact Or.inr (Or.inr ⟨hq, halone⟩)
  · push Not at halone
    obtain ⟨m, hm, hr⟩ := halone
    obtain ⟨r, hr⟩ := Option.ne_none_iff_exists'.mp hr
    obtain ⟨_, hne, hback, _⟩ := Device.blockaded?_eq_some hb hm
    rcases trichotomous_of (fun x y : Location => x < y) l m with hlt | heq | hlt
    · exact Or.inl ⟨r, m, hq, hm, hr, hlt⟩
    · exact absurd heq hne
    · exact Or.inr (Or.inl ⟨m, r, hm, l, hr, hback, hq, hlt⟩)

theorem nodup_parts (ha : a.WellFormed) (hb : Device.ofBlueprint b = .ok d) (hn : locations.Nodup) :
    ((locations.filterMap (a.coupleAt? d)).map (·.1) ++ (locations.filterMap (a.coupleAt? d)).map (·.2) ++
      locations.filterMap (a.singleAt? d)).Nodup := by
  have hcouple : ∀ pair ∈ locations.filterMap (a.coupleAt? d), ∃ l, a.InteractsAt d pair l := by
    intro pair hpair
    obtain ⟨l, _, hl⟩ := List.mem_filterMap.mp hpair
    exact ⟨l, coupleAt?_eq_some.mp hl⟩
  refine List.nodup_append'.mpr ⟨List.nodup_append'.mpr ⟨ha.nodup_controls hn, ha.nodup_targets hb hn, ?_⟩,
    ha.nodup_unpaired hn, ?_⟩
  · intro q hcontrol htarget
    obtain ⟨pair, hpair, rfl⟩ := List.mem_map.mp hcontrol
    obtain ⟨pair', hpair', heq⟩ := List.mem_map.mp htarget
    obtain ⟨l, hl⟩ := hcouple pair hpair
    obtain ⟨m, hm⟩ := hcouple pair' hpair'
    exact ha.control_ne_target hb hl hm heq.symm
  · intro q hpaired halone
    obtain ⟨m, _, hm⟩ := List.mem_filterMap.mp halone
    have halone := singleAt?_eq_some.mp hm
    rcases List.mem_append.mp hpaired with hcontrol | htarget
    · obtain ⟨pair, hpair, rfl⟩ := List.mem_map.mp hcontrol
      obtain ⟨l, hl⟩ := hcouple pair hpair
      exact (ha.alone_of_no_pair hb hl halone).1 rfl
    · obtain ⟨pair, hpair, rfl⟩ := List.mem_map.mp htarget
      obtain ⟨l, hl⟩ := hcouple pair hpair
      exact (ha.alone_of_no_pair hb hl halone).2 rfl

theorem mem_parts (ha : a.WellFormed) (hb : Device.ofBlueprint b = .ok d)
    (hlocations : d.zoneLocations? z = some locations) :
    q ∈ (locations.filterMap (a.coupleAt? d)).map (·.1) ++ (locations.filterMap (a.coupleAt? d)).map (·.2) ++
      locations.filterMap (a.singleAt? d) ↔ q ∈ a.residents d z := by
  simp only [List.mem_append, List.mem_map, List.mem_filterMap, coupleAt?_eq_some, singleAt?_eq_some,
    Device.mem_zoneLocations_iff hlocations, ha.mem_residents]
  constructor
  · rintro ((⟨pair, ⟨l, hl, m, hq, _⟩, rfl⟩ | ⟨pair, ⟨l, hl, m, _, hm, hr, _⟩, rfl⟩) | ⟨l, hl, hq, _⟩)
    · exact ⟨l, hq, hl⟩
    · exact ⟨m, hr, Device.hasSite_of_blockaded hb hm hl⟩
    · exact ⟨l, hq, hl⟩
  · rintro ⟨l, hq, hl⟩
    rcases interacts_or_alone hb hq with ⟨r, hr⟩ | ⟨m, r, hm, hr⟩ | halone
    · exact Or.inl (Or.inl ⟨(q, r), ⟨l, hl, hr⟩, rfl⟩)
    · exact Or.inl (Or.inr ⟨(r, q), ⟨m, Device.hasSite_of_blockaded hb hm hl, hr⟩, rfl⟩)
    · exact Or.inr ⟨l, hl, halone⟩

end Parts

end WellFormed

/-- Whatever has been filled and moved, the atoms of a zone that lists no word twice are divided into
controls, targets and atoms that are left over, and none of them is counted twice. The controls and targets
belong together one by one: they sit on the lower and on the higher site of a pair. Left over are those
whose site has no partner and those whose partner site is empty. -/
theorem pairing_partitions {words : List Nat} (hb : Device.ofBlueprint b = .ok g.device)
    (ha : Reachable g a) (hwords : g.device.zoneWords? z = some words) (hn : words.Nodup) :
    ∃ p, a.pairing? g.device z = some p ∧ p.controls.length = p.targets.length ∧
      (p.controls ++ p.targets ++ p.unpaired).Perm (a.residents g.device z) ∧
      (∀ (i : Nat) q r, p.controls[i]? = some q → p.targets[i]? = some r → ∃ l m, a.locationOf? q = some l ∧
        a.locationOf? r = some m ∧ g.device.blockaded? l = some m ∧ l.word = m.word ∧ l.site < m.site) ∧
      ∀ q, q ∈ p.unpaired ↔ ∃ l, a.locationOf? q = some l ∧ g.device.hasSite z l = true ∧
        ∀ m, g.device.blockaded? l = some m → a.qubitAt? m = none := by
  have hc := ha.wellFormed
  obtain ⟨locations, hlocations⟩ : ∃ locations, g.device.zoneLocations? z = some locations :=
    ⟨_, by rw [Device.zoneLocations?, hwords]; rfl⟩
  have hnodup := Device.nodup_zoneLocations hwords hn hlocations
  refine ⟨_, pairing?_eq_some hlocations, by simp, ?_, ?_, ?_⟩
  · refine (List.perm_ext_iff_of_nodup (hc.nodup_parts hb hnodup) hc.nodup_residents).mpr ?_
    exact fun q => hc.mem_parts hb hlocations
  · intro i q r hq hr
    rw [List.getElem?_map, Option.map_eq_some_iff] at hq hr
    obtain ⟨pair, hpair, rfl⟩ := hq
    obtain ⟨pair', hpair', rfl⟩ := hr
    cases hpair.symm.trans hpair'
    obtain ⟨l, _, hl⟩ := List.mem_filterMap.mp (List.mem_of_getElem? hpair)
    obtain ⟨m, hfirst, hm, hsecond, hlt⟩ := coupleAt?_eq_some.mp hl
    exact ⟨l, m, hc.qubitAt?_eq_some.mp hfirst, hc.qubitAt?_eq_some.mp hsecond, hm,
      Device.site_lt_of_blockaded hb hm hlt⟩
  · intro q
    simp only [List.mem_filterMap, singleAt?_eq_some, Device.mem_zoneLocations_iff hlocations, AloneAt,
      hc.qubitAt?_eq_some]
    constructor
    · rintro ⟨l, hl, hq, hempty⟩
      exact ⟨l, hq, hl, hempty⟩
    · rintro ⟨l, hq, hl, hempty⟩
      exact ⟨l, hl, hq, hempty⟩

/-- Two words of different sizes, one of them with a site that has no partner, in a zone that lists the
second word first. -/
def crossedWords : Blueprint :=
  { words := [
      { sites := (List.range 3).map fun i => (.ofNat i, .ofNat 0), partners := [(0, 2), (2, 0)] },
      { sites := (List.range 4).map fun i => (.ofNat i, .ofNat 20)
        partners := [(0, 3), (1, 2), (2, 1), (3, 0)] }]
    zones := [[0], [1, 0]]
    siteBusWords := [1]
    wordBusSites := []
    siteBuses := [⟨[1], [0]⟩]
    wordBuses := [] }

def overCrossedWords : LaneGraph := .ofDevice ⟨crossedWords.normalize, .bits32⟩

/-- Qubit 7 has moved next to qubit 2 and away from qubit 5, qubit 0 has no partner site, that of qubit 4
is empty, and qubit 8 is on no site of the device. -/
theorem pairing_partitions_crossedWords :
    Device.ofBlueprint crossedWords = .ok overCrossedWords.device ∧
      overCrossedWords.device.zoneWords? ⟨1⟩ = some [1, 0] ∧ [1, 0].Nodup ∧
      ∃ a, Reachable overCrossedWords a ∧ a.residents overCrossedWords.device ⟨1⟩ = [0, 2, 4, 5, 7] ∧
        ∃ p, a.pairing? overCrossedWords.device ⟨1⟩ = some p ∧ p = ⟨[7], [2], [5, 0, 4]⟩ ∧
          (p.controls ++ p.targets ++ p.unpaired).Perm [0, 2, 4, 5, 7] ∧
          (∃ l m, a.locationOf? 7 = some l ∧ a.locationOf? 2 = some m ∧
            overCrossedWords.device.blockaded? l = some m ∧ l.word = m.word ∧ l.site < m.site) ∧
          ∃ l, a.locationOf? 5 = some l ∧ overCrossedWords.device.hasSite ⟨1⟩ l = true ∧
            ∀ m, overCrossedWords.device.blockaded? l = some m → a.qubitAt? m = none := by
  have hb : Device.ofBlueprint crossedWords = .ok overCrossedWords.device := by decide +kernel
  obtain ⟨a, hfill, hrest⟩ := exists_ok_of_any
    (x := fillWith {} [(⟨1, 1⟩, 7), (⟨1, 3⟩, 2), (⟨1, 2⟩, 5), (⟨0, 1⟩, 0), (⟨0, 2⟩, 4), (⟨9, 9⟩, 8)])
    (P := fun a => (a.move overCrossedWords [⟨.site, 1, 1, 0, .forward⟩]).toOption.any fun a' =>
      a'.residents overCrossedWords.device ⟨1⟩ = [0, 2, 4, 5, 7] &&
        a'.pairing? overCrossedWords.device ⟨1⟩ = some ⟨[7], [2], [5, 0, 4]⟩)
    (by decide +kernel)
  obtain ⟨a', hmove, hrest⟩ := exists_ok_of_any hrest
  simp only [Bool.and_eq_true, decide_eq_true_eq] at hrest
  obtain ⟨hresidents, hpairing⟩ := hrest
  have ha : Reachable overCrossedWords a' := ⟨1, .move _ (.fillWith _ .empty hfill) hmove⟩
  obtain ⟨p, hp, _, hperm, hpairs, hunpaired⟩ :=
    pairing_partitions (z := ⟨1⟩) hb ha rfl (by decide)
  cases hpairing.symm.trans hp
  rw [hresidents] at hperm
  exact ⟨hb, rfl, by decide, a', ha, hresidents, _, hpairing, rfl, hperm, hpairs 0 7 2 rfl rfl,
    (hunpaired 5).mp (by decide)⟩

end AtomMaps

end AtomTransport
