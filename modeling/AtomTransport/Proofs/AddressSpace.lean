import AtomTransport.Proofs.LaneTables
import AtomTransport.Proofs.Packing

/-!
# Every address of a device fits

The encoding of a device is inferred from the numbers of its words, sites, buses and zones. A location, a
lane or a zone that the device accepts has only identifiers below these numbers, so it has an address, and
no other value of its kind has the same one.
-/

namespace AtomTransport

namespace Encoding

variable {e : Encoding} {α : Type}

theorem le_maxId_of_infer {id : Nat} (h : infer id = .ok e) : id ≤ e.maxId := by
  unfold infer at h
  split_ifs at h with h32 h64
  · cases h
    exact h32
  · cases h
    exact h64

/-- An encoding labels the valid values of a kind: each has an address, and different ones have different
addresses. -/
structure Labels (Valid : α → Prop) (encode : α → Except EncodingError Nat) : Prop where
  total : ∀ v, Valid v → ∃ a, encode v = .ok a
  injective : ∀ v w, Valid v → Valid w → v ≠ w → encode v ≠ encode w

/-- A kind that is packed exactly is labelled where its identifiers fit. -/
theorem Exact.labels {ids : α → List Nat} {bits : Nat} {Valid : α → Prop}
    {encode : α → Except EncodingError Nat} {decode : Nat → Except EncodingError α}
    (h : e.Exact (fun _ => True) ids bits (fun _ => False) encode decode)
    (hids : ∀ v, Valid v → ∀ id ∈ ids v, id ≤ e.maxId) : Labels Valid encode where
  total v hv := (h.packs v trivial).mpr (hids v hv)
  injective v w hv _ hne heq := by
    obtain ⟨a, ha⟩ := (h.packs v trivial).mpr (hids v hv)
    have hv := (h.inverse v a).mpr ⟨trivial, ha⟩
    have hw := (h.inverse w a).mpr ⟨trivial, heq ▸ ha⟩
    exact hne (Except.ok.inj (hv.symm.trans hw))

end Encoding

namespace Device

variable {d : Device} {b : Blueprint}

theorem le_maxId (h : ofBlueprint b = .ok d) {id : Nat} (hid : id < b.words.length ∨ id < b.maxSites ∨
    id < b.siteBuses.length ∨ id < b.wordBuses.length ∨ id < b.zones.length) :
    id ≤ d.encoding.maxId := by
  have hmax := Encoding.le_maxId_of_infer (ofBlueprint_eq_ok h).2.2
  unfold Blueprint.maxId at hmax
  omega

theorem location_lt {l : Location} (h : ofBlueprint b = .ok d) (hl : d.hasLocation l = true) :
    l.word < b.words.length ∧ l.site < b.maxSites := by
  unfold hasLocation word? at hl
  rw [words_of_ofBlueprint h] at hl
  cases hw : b.words[l.word]? with
  | none => simp [hw] at hl
  | some w =>
    have hsite : l.site < w.size := by simpa [hw, Word.hasSite] using hl
    have hsize : w.size ≤ b.maxSites := le_foldl_max Word.size (List.mem_of_getElem? hw)
    exact ⟨(List.getElem?_eq_some_iff.mp hw).1, by omega⟩

theorem lane_lt {lane : Lane} (h : ofBlueprint b = .ok d) (hlane : d.checkLane lane = .ok ()) :
    lane.word < b.words.length ∧ lane.site < b.maxSites ∧
      (lane.bus < b.siteBuses.length ∨ lane.bus < b.wordBuses.length) := by
  have hends : ∃ ends, d.endpoints lane = .ok ends := by
    unfold checkLane at hlane
    cases hends : d.endpoints lane with
    | error err => simp [hends, Except.map] at hlane
    | ok ends => exact ⟨ends, rfl⟩
  obtain ⟨ends, hends⟩ := hends
  obtain ⟨l, hsides, hsource, _, _⟩ := endpoints_eq_ok_iff_sides.mp hends
  obtain ⟨bus, _, hbus, _⟩ := laneSides_eq_ok_iff.mp hsides
  obtain ⟨hword, hsite⟩ := location_lt h hsource
  refine ⟨hword, hsite, ?_⟩
  have hlt := (List.getElem?_eq_some_iff.mp hbus).1
  have hblueprint := (ofBlueprint_eq_ok h).2.1
  cases hkind : lane.kind with
  | site =>
    rw [hkind, buses, hblueprint] at hlt
    exact Or.inl hlt
  | word =>
    rw [hkind, buses, hblueprint] at hlt
    exact Or.inr hlt

theorem zone_lt {z : Zone} (h : ofBlueprint b = .ok d) (hz : d.checkZone z = .ok ()) :
    z.id < b.zones.length := by
  unfold checkZone at hz
  split_ifs at hz with hlt
  rw [zones, (ofBlueprint_eq_ok h).2.1] at hlt
  exact hlt

/-- On an accepted device every valid location, lane and zone has an address in the encoding of the
device, and two different ones have different addresses. -/
theorem encoding_labels (h : ofBlueprint b = .ok d) :
    Encoding.Labels (fun l => d.checkLocation l = .ok ()) (Location.encode d.encoding) ∧
    Encoding.Labels (fun lane => d.checkLane lane = .ok ()) (Lane.encode d.encoding) ∧
    Encoding.Labels (fun z => d.checkZone z = .ok ()) (Zone.encode d.encoding) := by
  refine ⟨?_, ?_, ?_⟩
  · apply (Encoding.exact_location d.encoding).labels
    intro l hl
    obtain ⟨hword, hsite⟩ := location_lt h (checkLocation_eq_ok_iff.mp hl)
    simp only [List.forall_mem_cons, List.not_mem_nil]
    exact ⟨le_maxId h (by omega), le_maxId h (by omega), by simp⟩
  · apply (Encoding.exact_lane d.encoding).labels
    intro lane hlane
    obtain ⟨hword, hsite, hbus⟩ := lane_lt h hlane
    simp only [List.forall_mem_cons, List.not_mem_nil]
    exact ⟨le_maxId h (by omega), le_maxId h (by omega), le_maxId h (by omega), by simp⟩
  · apply (Encoding.exact_zone d.encoding).labels
    intro z hz
    have hlt := zone_lt h hz
    simp only [List.mem_singleton, forall_eq]
    exact le_maxId h (by omega)

def manyZones : Blueprint :=
  { words := [{ sites := [(.ofNat 0, .ofNat 0), (.ofNat 10, .ofNat 0)] }]
    zones := List.replicate 1025 []
    siteBusWords := [0]
    wordBusSites := []
    siteBuses := [⟨[0], [1]⟩]
    wordBuses := [] }

/-- The last zone of the device has an address, and the two directions of its lane have different ones. -/
theorem encoding_labels_manyZones :
    (∃ a, Zone.encode .bits64 ⟨1024⟩ = .ok a) ∧
      Lane.encode .bits64 ⟨.site, 0, 0, 0, .forward⟩ ≠ Lane.encode .bits64 ⟨.site, 0, 0, 0, .backward⟩ := by
  have hdevice : ofBlueprint manyZones = .ok ⟨manyZones.normalize, .bits64⟩ := by decide +kernel
  obtain ⟨_, hlanes, hzones⟩ := encoding_labels hdevice
  exact ⟨hzones.total ⟨1024⟩ (by decide +kernel), hlanes.injective _ _ (by decide +kernel)
    (by decide +kernel) (by decide)⟩

end Device

end AtomTransport
