import AtomTransport.LaneGraph
import AtomTransport.Proofs.Symmetry

/-!
# Facts about accepted devices

A device comes from a blueprint without faults. Its blockade pairs join two different sites of one
word and are symmetric, and so is the compatibility of lanes. Every lane with end points is an edge of
the lane graph. When no bus lists a source twice, every edge has the end points that the device gives to
its lane.
-/

namespace AtomTransport

namespace Bus

theorem destination?_of_mem_pairs {b : Bus} (hn : b.sources.Nodup) {s t : Nat}
    (h : (s, t) ∈ b.pairs) : b.destination? s = some t := by
  obtain ⟨i, hi⟩ := List.mem_iff_getElem?.mp h
  obtain ⟨hs, ht⟩ := List.getElem?_zip_eq_some.mp hi
  have hlt : i < b.sources.length := (List.getElem?_eq_some_iff.mp hs).1
  have hfind : b.sources.findIdx? (· = s) = some i := by
    rw [List.findIdx?_eq_some_iff_getElem]
    have hsi : b.sources[i] = s := (List.getElem?_eq_some_iff.mp hs).2
    refine ⟨hlt, by simp [hsi], ?_⟩
    intro j hj heq
    have hji : b.sources[j] = b.sources[i] := by simpa [hsi] using heq
    have := (List.Nodup.getElem_inj_iff hn).mp hji
    omega
  simp [destination?, hfind, ht]

theorem mem_pairs_of_destination? {b : Bus} {s t : Nat} (h : b.destination? s = some t) :
    (s, t) ∈ b.pairs := by
  obtain ⟨i, hi, ht⟩ := Option.bind_eq_some_iff.mp h
  obtain ⟨hlt, hs, _⟩ := List.findIdx?_eq_some_iff_getElem.mp hi
  have hs : b.sources[i]? = some s := by
    rw [List.getElem?_eq_getElem hlt]
    simpa using hs
  exact List.mem_of_getElem? (List.getElem?_zip_eq_some.mpr ⟨hs, ht⟩)

end Bus

theorem le_foldl_max {α : Type} (f : α → Nat) {xs : List α} {x : α} (hx : x ∈ xs) :
    f x ≤ xs.foldl (fun n y => max n (f y)) 0 := by
  have key : ∀ (xs : List α) (n : Nat), n ≤ xs.foldl (fun n y => max n (f y)) n ∧
      ∀ x ∈ xs, f x ≤ xs.foldl (fun n y => max n (f y)) n := by
    intro xs
    induction xs with
    | nil => exact fun n => ⟨Nat.le_refl n, by simp⟩
    | cons y xs ih =>
      intro n
      obtain ⟨hbase, hall⟩ := ih (max n (f y))
      refine ⟨Nat.le_trans (Nat.le_max_left ..) hbase, ?_⟩
      intro x hx
      rcases List.mem_cons.mp hx with rfl | hx
      · exact Nat.le_trans (Nat.le_max_right ..) hbase
      · exact hall x hx
  exact (key xs 0).2 x hx

namespace Blueprint

def compatibility (b : Blueprint) : LaneKind → Compatibility
  | .site => b.siteBusCompatibility
  | .word => b.wordBusCompatibility

theorem fault?_eq_none_iff {b : Blueprint} : b.fault? = none ↔
    b.pairingFault? = none ∧ b.zoneFault? = none ∧ busFault? .site b.maxSites b.siteBuses = none ∧
      busFault? .word b.words.length b.wordBuses = none ∧
      firstOutside? b.words.length b.siteBusWords = none ∧
      firstOutside? b.maxSites b.wordBusSites = none := by
  simp [fault?]

theorem soundPair_of_fault? {b : Blueprint} (h : b.fault? = none) {w : Word} (hw : w ∈ b.words)
    {site partner : Nat} (hp : w.partner? site = some partner) :
    w.hasSite site = true ∧ w.hasSite partner = true ∧ site ≠ partner ∧
      w.partner? partner = some site := by
  have hpair := (fault?_eq_none_iff.mp h).1
  obtain ⟨i, hi⟩ := List.mem_iff_getElem?.mp hw
  have hfind := List.findSome?_eq_none_iff.mp hpair (w, i) (List.mem_zipIdx_iff_getElem?.mpr hi)
  simp only [Option.map_eq_none_iff] at hfind
  have hsound := List.find?_eq_none.mp hfind (site, partner) (Ascending.mem_of_get? hp)
  simpa [Word.soundPair, and_assoc] using hsound

end Blueprint

namespace Device

variable {d : Device}

/-- No bus lists the same source twice. -/
def SingleSource (d : Device) : Prop :=
  (∀ bus ∈ d.buses .site, bus.sources.Nodup) ∧ (∀ bus ∈ d.buses .word, bus.sources.Nodup)

instance (d : Device) : Decidable d.SingleSource :=
  inferInstanceAs (Decidable ((∀ bus ∈ d.buses .site, bus.sources.Nodup) ∧
    (∀ bus ∈ d.buses .word, bus.sources.Nodup)))

theorem checkLocation_eq_ok_iff {l : Location} :
    d.checkLocation l = .ok () ↔ d.hasLocation l = true := by
  unfold checkLocation hasLocation
  cases d.word? l.word with
  | none => simp
  | some w => by_cases h : w.hasSite l.site = true <;> simp [h]

theorem mem_wordLocations {l : Location} {word : Nat} :
    l ∈ d.wordLocations word ↔ l.word = word ∧ d.hasLocation l = true := by
  unfold wordLocations hasLocation
  cases hw : d.word? word with
  | none =>
    simp only [List.not_mem_nil, false_iff, not_and]
    rintro rfl
    simp [hw]
  | some w =>
    simp only [List.mem_map, List.mem_range]
    constructor
    · rintro ⟨site, hsite, rfl⟩
      simp [hw, Word.hasSite, hsite]
    · rintro ⟨rfl, hl⟩
      rw [hw] at hl
      exact ⟨l.site, by simpa [Word.hasSite] using hl, rfl⟩

theorem laneSides_site (hs : d.SingleSource) {word i s t : Nat} {bus : Bus}
    (hw : word ∈ d.blueprint.siteBusWords) (hb : (d.buses .site)[i]? = some bus)
    (hp : (s, t) ∈ bus.pairs) (dir : Direction) :
    d.laneSides ⟨.site, word, s, i, dir⟩ = .ok (⟨word, s⟩, ⟨word, t⟩) := by
  have hn := hs.1 bus (List.mem_of_getElem? hb)
  have hr : d.checkRider ⟨.site, word, s, i, dir⟩ = .ok () := by
    simp [checkRider, hasSiteBuses, hw]
  simp only [laneSides, hb, hr, ok_bind, Bus.destination?_of_mem_pairs hn hp]

theorem laneSides_word (hs : d.SingleSource) {site i s t : Nat} {bus : Bus}
    (hw : site ∈ d.blueprint.wordBusSites) (hb : (d.buses .word)[i]? = some bus)
    (hp : (s, t) ∈ bus.pairs) (dir : Direction) :
    d.laneSides ⟨.word, s, site, i, dir⟩ = .ok (⟨s, site⟩, ⟨t, site⟩) := by
  have hn := hs.2 bus (List.mem_of_getElem? hb)
  have hr : d.checkRider ⟨.word, s, site, i, dir⟩ = .ok () := by
    simp [checkRider, hasWordBuses, hw]
  simp only [laneSides, hb, hr, ok_bind, Bus.destination?_of_mem_pairs hn hp]

theorem hasLocation_of_mem_laneEdges {lane : Lane} {src dst : Location} {e : Segment}
    (he : e ∈ d.laneEdges lane src dst) :
    d.hasLocation e.src = true ∧ d.hasLocation e.dst = true := by
  unfold laneEdges at he
  split_ifs at he with hloc
  · rw [Bool.and_eq_true] at hloc
    simp only [List.mem_cons, List.not_mem_nil, or_false] at he
    rcases he with rfl | rfl
    · exact hloc
    · exact hloc.symm
  · cases he

theorem hasLocation_of_mem_edges {e : Segment} (he : e ∈ d.edges) :
    d.hasLocation e.src = true ∧ d.hasLocation e.dst = true := by
  rcases List.mem_append.mp he with he | he
  · simp only [siteEdges, List.mem_flatMap, Prod.exists] at he
    obtain ⟨_, _, _, _, _, _, _, _, he⟩ := he
    exact hasLocation_of_mem_laneEdges he
  · simp only [wordEdges, List.mem_flatMap, Prod.exists] at he
    obtain ⟨_, _, _, _, _, _, _, _, he⟩ := he
    exact hasLocation_of_mem_laneEdges he

theorem endpoints_of_mem_laneEdges {lane : Lane} {src dst : Location} {e : Segment}
    (hf : lane.direction = .forward) (hl : d.laneSides lane = .ok (src, dst))
    (hr : d.laneSides lane.reverse = .ok (src, dst)) (he : e ∈ d.laneEdges lane src dst) :
    d.endpoints e.lane = .ok (e.src, e.dst) ∧ d.hasLocation e.src = true ∧
      d.hasLocation e.dst = true := by
  unfold laneEdges at he
  split_ifs at he with hloc
  · simp only [Bool.and_eq_true] at hloc
    have hsrc := checkLocation_eq_ok_iff.mpr hloc.1
    have hdst := checkLocation_eq_ok_iff.mpr hloc.2
    simp only [List.mem_cons, List.not_mem_nil, or_false] at he
    rcases he with rfl | rfl
    · simp only [endpoints, hl, ok_bind, hsrc, hdst, hf]
      exact ⟨trivial, hloc⟩
    · have hb : lane.reverse.direction = .backward := by
        simp [Lane.reverse, hf, Direction.reverse]
      simp only [endpoints, hr, ok_bind, hsrc, hdst, hb]
      exact ⟨trivial, hloc.2, hloc.1⟩
  · simp at he

theorem endpoints_of_mem_edges (hs : d.SingleSource) {e : Segment} (he : e ∈ d.edges) :
    d.endpoints e.lane = .ok (e.src, e.dst) ∧ d.hasLocation e.src = true ∧
      d.hasLocation e.dst = true := by
  rcases List.mem_append.mp he with he | he
  · simp only [siteEdges, List.mem_flatMap, Prod.exists] at he
    obtain ⟨word, hw, bus, i, hb, s, t, hp, he⟩ := he
    have hb := List.mem_zipIdx_iff_getElem?.mp hb
    exact endpoints_of_mem_laneEdges rfl (laneSides_site hs hw hb hp .forward)
      (laneSides_site hs hw hb hp .backward) he
  · simp only [wordEdges, List.mem_flatMap, Prod.exists] at he
    obtain ⟨bus, i, hb, s, t, hp, site, hw, he⟩ := he
    have hb := List.mem_zipIdx_iff_getElem?.mp hb
    exact endpoints_of_mem_laneEdges rfl (laneSides_word hs hw hb hp .forward)
      (laneSides_word hs hw hb hp .backward) he

/-- The sides of a lane come from a pair of its bus, and both of its edges are in the graph where they
exist. -/
theorem laneEdges_of_laneSides {lane : Lane} {source destination : Location}
    (h : d.laneSides lane = .ok (source, destination)) :
    ∀ e ∈ d.laneEdges { lane with direction := .forward } source destination, e ∈ d.edges := by
  obtain ⟨kind, word, site, i, dir⟩ := lane
  intro e he
  unfold laneSides at h
  split at h
  · cases h
  next bus hbus =>
    obtain ⟨⟨⟩, hrider, h⟩ := bind_eq_ok.mp h
    simp only at hbus hrider h
    cases kind with
    | site =>
      have hword : word ∈ d.blueprint.siteBusWords := by
        by_contra hout
        simp only [checkRider, hasSiteBuses, List.contains_eq_mem, hout, decide_false,
          Bool.false_eq_true, if_false] at hrider
        split at hrider <;> cases hrider
      simp only at h
      split at h
      next t ht =>
        cases h
        refine List.mem_append_left _ ?_
        simp only [siteEdges, List.mem_flatMap, Prod.exists]
        exact ⟨word, hword, bus, i, List.mem_zipIdx_iff_getElem?.mpr hbus, site, t,
          Bus.mem_pairs_of_destination? ht, he⟩
      · cases h
    | word =>
      have hsite : site ∈ d.blueprint.wordBusSites := by
        by_contra hout
        simp [checkRider, hasWordBuses, hout] at hrider
      simp only at h
      split at h
      next t ht =>
        cases h
        refine List.mem_append_right _ ?_
        simp only [wordEdges, List.mem_flatMap, Prod.exists]
        exact ⟨bus, i, List.mem_zipIdx_iff_getElem?.mpr hbus, word, t,
          Bus.mem_pairs_of_destination? ht, site, hsite, he⟩
      · cases h

theorem mem_edges_of_endpoints {lane : Lane} {src dst : Location}
    (h : d.endpoints lane = .ok (src, dst)) : (⟨lane, src, dst⟩ : Segment) ∈ d.edges := by
  obtain ⟨⟨source, destination⟩, hsides, h⟩ := bind_eq_ok.mp h
  obtain ⟨⟨⟩, hsource, h⟩ := bind_eq_ok.mp h
  obtain ⟨⟨⟩, hdestination, h⟩ := bind_eq_ok.mp h
  refine laneEdges_of_laneSides hsides _ ?_
  simp only [laneEdges, checkLocation_eq_ok_iff.mp hsource, checkLocation_eq_ok_iff.mp hdestination,
    Bool.and_self, if_true, List.mem_cons, List.not_mem_nil, or_false]
  obtain ⟨kind, word, site, i, dir⟩ := lane
  cases dir with
  | forward =>
    cases h
    exact Or.inl rfl
  | backward =>
    cases h
    exact Or.inr rfl

theorem ofBlueprint_eq_ok_iff {b : Blueprint} : ofBlueprint b = .ok d ↔ b.words ≠ [] ∧
    b.fault? = none ∧ (∀ kind, (b.compatibility kind).Below b.words.length) ∧ d.blueprint = b.normalize ∧
      Encoding.infer b.maxId = .ok d.encoding := by
  have hkinds : (∀ kind, (b.compatibility kind).Below b.words.length) ↔
      b.siteBusCompatibility.Below b.words.length ∧ b.wordBusCompatibility.Below b.words.length := by
    constructor
    · exact fun h => ⟨h .site, h .word⟩
    · rintro ⟨hsite, hword⟩ (_ | _)
      · exact hsite
      · exact hword
  obtain ⟨blueprint, encoding⟩ := d
  unfold ofBlueprint
  split_ifs with hwords
  · simp [List.isEmpty_iff.mp hwords]
  · rw [List.isEmpty_iff] at hwords
    cases hfault : b.fault? with
    | some fault => simp
    | none =>
      simp only [bind_eq_ok, Compatibility.symmetrize_eq_ok_iff, mapError_eq_ok, hkinds, Except.ok.injEq, mk.injEq]
      constructor
      · rintro ⟨_, ⟨hsite, rfl⟩, _, ⟨hword, rfl⟩, _, hencoding, rfl, rfl⟩
        exact ⟨hwords, trivial, ⟨hsite, hword⟩, rfl, hencoding⟩
      · rintro ⟨-, -, ⟨hsite, hword⟩, rfl, hencoding⟩
        exact ⟨_, ⟨hsite, rfl⟩, _, ⟨hword, rfl⟩, _, hencoding, rfl, rfl⟩

theorem ofBlueprint_eq_ok {b : Blueprint} (h : ofBlueprint b = .ok d) :
    b.fault? = none ∧ d.blueprint = b.normalize ∧ Encoding.infer b.maxId = .ok d.encoding := by
  obtain ⟨-, hfault, -, hrest⟩ := ofBlueprint_eq_ok_iff.mp h
  exact ⟨hfault, hrest⟩

theorem words_of_ofBlueprint {b : Blueprint} (h : ofBlueprint b = .ok d) : d.words = b.words := by
  rw [words, (ofBlueprint_eq_ok h).2.1]
  rfl

theorem compatibility_of_ofBlueprint {b : Blueprint} (h : ofBlueprint b = .ok d) (kind : LaneKind) :
    d.compatibility kind = (b.compatibility kind).symmetric := by
  cases kind <;> rw [compatibility, (ofBlueprint_eq_ok h).2.1] <;> rfl

theorem compatible_comm {b : Blueprint} (h : ofBlueprint b = .ok d) (x y : Lane) :
    d.compatible x y = d.compatible y x := by
  have ht := compatibility_of_ofBlueprint h x.kind
  by_cases hsig : x.signature = y.signature
  · have hkind : x.kind = y.kind := congrArg Signature.kind hsig
    have hlists := Compatibility.lists_symmetric_comm (b.compatibility x.kind) x.word y.word
    simp only [compatible, hsig, ← hkind, ht, hlists, eq_comm (a := x.word), eq_comm (a := x.site)]
  · simp [compatible, hsig, Ne.symm hsig]

theorem compatible_reverse (d : Device) (x y : Lane) :
    d.compatible x.reverse y.reverse = d.compatible x y := by
  have hsignature : x.reverse.signature = y.reverse.signature ↔ x.signature = y.signature := by
    obtain ⟨_, _, _, _, dir⟩ := x
    obtain ⟨_, _, _, _, dir'⟩ := y
    cases dir <;> cases dir' <;> simp [Lane.reverse, Lane.signature, Direction.reverse]
  simp only [compatible, hsignature]
  rfl

/-- The blockade pairs of an accepted device join two different existing sites of one word, each of
which names the other. -/
theorem blockaded?_eq_some {b : Blueprint} (h : ofBlueprint b = .ok d) {l m : Location}
    (hl : d.blockaded? l = some m) :
    m.word = l.word ∧ l ≠ m ∧ d.blockaded? m = some l ∧ d.hasLocation m = true := by
  simp only [blockaded?, Option.map_eq_some_iff, Option.bind_eq_some_iff] at hl
  obtain ⟨site, ⟨w, hw, hsite⟩, rfl⟩ := hl
  have hmem : w ∈ b.words := words_of_ofBlueprint h ▸ List.mem_of_getElem? hw
  obtain ⟨_, hpartner, hne, hback⟩ := Blueprint.soundPair_of_fault? (ofBlueprint_eq_ok h).1 hmem hsite
  refine ⟨rfl, ?_, ?_, ?_⟩
  · intro heq
    exact hne (congrArg Location.site heq)
  · simp [blockaded?, hw, hback]
  · simpa [hasLocation, hw] using hpartner

theorem zoneOf?_eq_some {l : Location} {z : Zone} (h : d.zoneOf? l = some z) :
    d.checkZone z = .ok () ∧ ∃ words, d.zoneWords? z = some words ∧ l.word ∈ words := by
  simp only [zoneOf?, Option.map_eq_some_iff] at h
  obtain ⟨i, hi, rfl⟩ := h
  obtain ⟨hlt, hword, _⟩ := List.findIdx?_eq_some_iff_getElem.mp hi
  refine ⟨by simp [checkZone, hlt], d.zones[i], by simp [zoneWords?, hlt], ?_⟩
  simpa using hword

theorem zoneIndex?_of_mem {l : Location} {z : Zone} {words : List Nat} (hwords : d.zoneWords? z = some words)
    (hmem : l.word ∈ words) (hl : d.hasLocation l = true) :
    ∃ locations i, d.zoneLocations? z = some locations ∧ d.zoneIndex? z l = some i ∧
      locations[i]? = some l := by
  have hlocs : d.zoneLocations? z = some (words.flatMap d.wordLocations) := by
    simp [zoneLocations?, hwords]
  have hin : l ∈ words.flatMap d.wordLocations :=
    List.mem_flatMap.mpr ⟨l.word, hmem, mem_wordLocations.mpr ⟨rfl, hl⟩⟩
  cases hi : (words.flatMap d.wordLocations).findIdx? (· = l) with
  | none => simpa using List.findIdx?_eq_none_iff.mp hi l hin
  | some i =>
    obtain ⟨hlt, heq, _⟩ := List.findIdx?_eq_some_iff_getElem.mp hi
    have heq : (words.flatMap d.wordLocations)[i] = l := by simpa using heq
    refine ⟨_, i, hlocs, by simp [zoneIndex?, hlocs, hi], ?_⟩
    rw [List.getElem?_eq_getElem hlt, heq]

theorem zoneIndex?_of_zoneOf? {l : Location} {z : Zone} (h : d.zoneOf? l = some z)
    (hl : d.hasLocation l = true) :
    ∃ locations i, d.zoneLocations? z = some locations ∧ d.zoneIndex? z l = some i ∧
      locations[i]? = some l := by
  obtain ⟨_, words, hwords, hmem⟩ := zoneOf?_eq_some h
  exact zoneIndex?_of_mem hwords hmem hl

end Device

namespace LaneGraph

variable (g : LaneGraph)

theorem endpoints?_of_mem (hs : g.device.SingleSource) {e : Segment} (he : e ∈ g.edges) :
    g.endpoints? e.lane = some (e.src, e.dst) := by
  rw [endpoints?]
  cases hf : g.edges.reverse.find? (·.lane = e.lane) with
  | none =>
    have := List.find?_eq_none.mp hf e (List.mem_reverse.mpr he)
    simp at this
  | some e' =>
    have hlane : e'.lane = e.lane := by simpa using List.find?_some hf
    have hmem : e' ∈ g.edges := List.mem_reverse.mp (List.mem_of_find?_eq_some hf)
    rw [g.edges_eq] at he hmem
    have h := (Device.endpoints_of_mem_edges hs he).1
    have h' := (Device.endpoints_of_mem_edges hs hmem).1
    rw [hlane, h] at h'
    simp only [Except.ok.injEq, Prod.mk.injEq] at h'
    simp [h'.1, h'.2]

theorem exists_endpoints? {lane : Lane} (h : g.device.checkLane lane = .ok ()) :
    ∃ ends, g.endpoints? lane = some ends := by
  obtain ⟨⟨src, dst⟩, hends⟩ : ∃ ends, g.device.endpoints lane = .ok ends := by
    rw [Device.checkLane] at h
    cases hends : g.device.endpoints lane with
    | error e => simp [hends, Except.map] at h
    | ok ends => exact ⟨ends, rfl⟩
  have hedge : (⟨lane, src, dst⟩ : Segment) ∈ g.edges := g.edges_eq ▸ Device.mem_edges_of_endpoints hends
  obtain ⟨e, he⟩ : ∃ e, g.edges.reverse.find? (·.lane = lane) = some e := by
    rw [← Option.isSome_iff_exists, List.find?_isSome]
    exact ⟨_, List.mem_reverse.mpr hedge, by simp⟩
  exact ⟨(e.src, e.dst), by rw [endpoints?, he]; rfl⟩

end LaneGraph

end AtomTransport
