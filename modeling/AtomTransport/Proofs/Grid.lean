import AtomTransport.Proofs.Normalization
import AtomTransport.Proofs.Packing

/-!
# Grids

A grid of any size is a device as long as its identifiers fit the wide encoding. Its site buses together
join every left site of a word with every right site, since some shift takes any column to any other, and
its word buses together join any two words, at the right sites only.
-/

namespace AtomTransport

theorem foldl_max_le {α : Type} (f : α → Nat) {xs : List α} {n : Nat} (h : ∀ x ∈ xs, f x ≤ n) :
    xs.foldl (fun m x => max m (f x)) 0 ≤ n := by
  have key : ∀ (xs : List α) (m : Nat), m ≤ n → (∀ x ∈ xs, f x ≤ n) →
      xs.foldl (fun m x => max m (f x)) m ≤ n := by
    intro xs
    induction xs with
    | nil => exact fun m hm _ => hm
    | cons x xs ih =>
      intro m hm hxs
      rw [List.forall_mem_cons] at hxs
      exact ih (max m (f x)) (Nat.max_le.mpr ⟨hm, hxs.1⟩) hxs.2
  exact key xs 0 (Nat.zero_le n) h

/-- Around a cycle some shift takes any place to any other. -/
theorem exists_shift {n i j : Nat} (hi : i < n) (hj : j < n) : ∃ k < n, (i + k) % n = j := by
  by_cases hij : i ≤ j
  · refine ⟨j - i, by omega, ?_⟩
    rw [Nat.add_sub_cancel' hij, Nat.mod_eq_of_lt hj]
  · refine ⟨n + j - i, by omega, ?_⟩
    rw [Nat.add_sub_cancel' (by omega), Nat.add_mod_left, Nat.mod_eq_of_lt hj]

theorem Bus.mem_pairs_map {ids : List Nat} {f : Nat → Nat} {s t : Nat} :
    (s, t) ∈ (Bus.mk ids (ids.map f)).pairs ↔ s ∈ ids ∧ f s = t := by
  rw [Bus.pairs, ← List.map_prod_left_eq_zip, List.mem_map]
  constructor
  · rintro ⟨i, hi, heq⟩
    cases heq
    exact ⟨hi, rfl⟩
  · rintro ⟨hs, rfl⟩
    exact ⟨s, hs, rfl⟩

namespace Word

structure PairedUpTo (columns n : Nat) (w : Word) : Prop where
  mem : ∀ e ∈ w.partners, ∃ i < n, e = (i, i + columns) ∨ e = (i + columns, i)
  left : ∀ i < n, w.partner? i = some (i + columns)
  right : ∀ i < n, w.partner? (i + columns) = some i

theorem PairedUpTo.pair {columns n : Nat} {w : Word} (h : w.PairedUpTo columns n) (hn : n < columns) :
    (w.pair n (n + columns)).PairedUpTo columns (n + 1) where
  mem e he := by
    rcases Ascending.mem_of_mem_put he with rfl | he
    · exact ⟨n, by omega, Or.inr rfl⟩
    rcases Ascending.mem_of_mem_put he with rfl | he
    · exact ⟨n, by omega, Or.inl rfl⟩
    · obtain ⟨i, hi, hpair⟩ := h.mem e he
      exact ⟨i, by omega, hpair⟩
  left i hi := by
    rw [partner?, Word.pair, Ascending.get?_put_of_ne (by omega)]
    by_cases heq : i = n
    · rw [heq, Ascending.get?_put_self]
    · rw [Ascending.get?_put_of_ne heq]
      exact h.left i (by omega)
  right i hi := by
    rw [partner?, Word.pair]
    by_cases heq : i = n
    · rw [heq, Ascending.get?_put_self]
    · rw [Ascending.get?_put_of_ne (by omega), Ascending.get?_put_of_ne (by omega)]
      exact h.right i (by omega)

end Word

namespace Blueprint

variable {words columns : Nat}

theorem foldl_pair {w : Word} (hw : w.partners = []) {n : Nat} (hn : n ≤ columns) :
    ((List.range n).foldl (fun w i => w.pair i (i + columns)) w).PairedUpTo columns n ∧
      ((List.range n).foldl (fun w i => w.pair i (i + columns)) w).sites = w.sites := by
  induction n with
  | zero => exact ⟨⟨by simp [hw], by simp, by simp⟩, rfl⟩
  | succ n ih =>
    obtain ⟨hpaired, hsites⟩ := ih (by omega)
    rw [List.range_succ, List.foldl_append]
    exact ⟨hpaired.pair (by omega), hsites⟩

theorem paired_gridWord (columns word : Nat) : (gridWord columns word).PairedUpTo columns columns :=
  (foldl_pair rfl (Nat.le_refl columns)).1

@[simp] theorem size_gridWord (columns word : Nat) : (gridWord columns word).size = 2 * columns := by
  rw [Word.size, gridWord, (foldl_pair rfl (Nat.le_refl columns)).2]
  simp [Nat.two_mul]

theorem soundPair_gridWord {word : Nat} {e : Nat × Nat} (he : e ∈ (gridWord columns word).partners) :
    (gridWord columns word).soundPair e.1 e.2 = true := by
  have h := paired_gridWord columns word
  obtain ⟨i, hi, rfl | rfl⟩ := h.mem e he
  · simp only [Word.soundPair, Word.hasSite, size_gridWord, h.right i hi]
    simp
    omega
  · simp only [Word.soundPair, Word.hasSite, size_gridWord, h.left i hi]
    simp
    omega

theorem maxSites_grid (hwords : 1 ≤ words) : (grid words columns).maxSites = 2 * columns := by
  apply Nat.le_antisymm
  · apply foldl_max_le
    intro w hw
    obtain ⟨i, -, rfl⟩ := List.mem_map.mp hw
    exact Nat.le_of_eq (size_gridWord columns i)
  · have hmem : gridWord columns 0 ∈ (grid words columns).words :=
      List.mem_map_of_mem (List.mem_range.mpr hwords)
    exact size_gridWord columns 0 ▸ le_foldl_max Word.size hmem

/-- The site buses together lead from every left site to every right site. -/
theorem exists_siteBus_iff {s t : Nat} : (∃ bus ∈ (grid words columns).siteBuses, (s, t) ∈ bus.pairs) ↔
    s < columns ∧ columns ≤ t ∧ t < 2 * columns := by
  constructor
  · rintro ⟨bus, hbus, hpair⟩
    obtain ⟨k, -, rfl⟩ := List.mem_map.mp hbus
    obtain ⟨hs, rfl⟩ := Bus.mem_pairs_map.mp hpair
    have hs : s < columns := List.mem_range.mp hs
    have hmod : (s + k) % columns < columns := Nat.mod_lt _ (by omega)
    omega
  · rintro ⟨hs, hle, hlt⟩
    obtain ⟨k, hk, hmod⟩ := exists_shift (j := t - columns) hs (by omega)
    refine ⟨_, List.mem_map_of_mem (List.mem_range.mpr hk), Bus.mem_pairs_map.mpr ?_⟩
    exact ⟨List.mem_range.mpr hs, by omega⟩

/-- The word buses together lead from every word to every later one. -/
theorem exists_wordBus_iff {v w : Nat} : (∃ bus ∈ (grid words columns).wordBuses, (v, w) ∈ bus.pairs) ↔
    v < w ∧ w < words := by
  constructor
  · rintro ⟨bus, hbus, hpair⟩
    obtain ⟨k, hk, rfl⟩ := List.mem_map.mp hbus
    rw [List.range'_eq_map_range] at hpair
    obtain ⟨hv, rfl⟩ := Bus.mem_pairs_map.mp hpair
    have hk := List.mem_range'_1.mp hk
    have hv := List.mem_range.mp hv
    omega
  · rintro ⟨hlt, hw⟩
    have hk : w - v ∈ List.range' 1 (words - 1) := List.mem_range'_1.mpr (by omega)
    refine ⟨_, List.mem_map_of_mem hk, ?_⟩
    rw [List.range'_eq_map_range]
    exact Bus.mem_pairs_map.mpr ⟨List.mem_range.mpr (by omega), by omega⟩

theorem busFault?_eq_none {kind : LaneKind} {limit : Nat} {buses : List Bus}
    (h : ∀ bus ∈ buses, bus.sources.length = bus.destinations.length ∧
      ∀ id ∈ bus.sources ++ bus.destinations, id < limit) : busFault? kind limit buses = none := by
  rw [busFault?, List.findSome?_eq_none_iff]
  rintro ⟨bus, i⟩ hbus
  obtain ⟨hlength, hids⟩ := h bus (List.fst_mem_of_mem_zipIdx hbus)
  simp [hlength, firstOutside?_eq_none_iff.mpr hids]

theorem pairingFault?_grid (words columns : Nat) : (grid words columns).pairingFault? = none := by
  rw [pairingFault?, List.findSome?_eq_none_iff]
  rintro ⟨w, i⟩ hw
  obtain ⟨j, -, rfl⟩ := List.mem_map.mp (List.fst_mem_of_mem_zipIdx hw)
  rw [Option.map_eq_none_iff, List.find?_eq_none]
  intro e he
  simp [soundPair_gridWord he]

theorem busFault?_siteBuses (words columns : Nat) :
    busFault? .site (2 * columns) (grid words columns).siteBuses = none := by
  apply busFault?_eq_none
  intro bus hbus
  obtain ⟨k, hk, rfl⟩ := List.mem_map.mp hbus
  have hk := List.mem_range.mp hk
  refine ⟨by simp, ?_⟩
  intro id hid
  rcases List.mem_append.mp hid with hid | hid
  · have hid := List.mem_range.mp hid
    omega
  · obtain ⟨i, -, rfl⟩ := List.mem_map.mp hid
    have hmod : (i + k) % columns < columns := Nat.mod_lt _ (by omega)
    omega

theorem busFault?_wordBuses (words columns : Nat) :
    busFault? .word words (grid words columns).wordBuses = none := by
  apply busFault?_eq_none
  intro bus hbus
  obtain ⟨k, hk, rfl⟩ := List.mem_map.mp hbus
  have hk := List.mem_range'_1.mp hk
  refine ⟨by simp, ?_⟩
  intro id hid
  rcases List.mem_append.mp hid with hid | hid
  · have hid := List.mem_range.mp hid
    omega
  · have hid := List.mem_range'_1.mp hid
    omega

theorem fault?_grid (hwords : 1 ≤ words) : (grid words columns).fault? = none := by
  have hlength : (grid words columns).words.length = words := by simp [grid]
  have hall : ∀ w ∈ List.range words, w < words := fun w => List.mem_range.mp
  rw [fault?_eq_none_iff, hlength, maxSites_grid hwords]
  refine ⟨pairingFault?_grid words columns, ?_, busFault?_siteBuses words columns,
    busFault?_wordBuses words columns, firstOutside?_eq_none_iff.mpr hall, firstOutside?_eq_none_iff.mpr ?_⟩
  · rw [zoneFault?, hlength, List.findSome?_eq_none_iff]
    rintro ⟨zone, i⟩ hzone
    obtain rfl : zone = List.range words := List.mem_singleton.mp (List.fst_mem_of_mem_zipIdx hzone)
    simp [firstOutside?_eq_none_iff.mpr hall]
  · intro site hsite
    have hsite := List.mem_range'_1.mp hsite
    omega

theorem below_grid (words columns : Nat) (kind : LaneKind) :
    ((grid words columns).compatibility kind).Below (grid words columns).words.length := by
  have hlength : (grid words columns).words.length = words := by simp [grid]
  have hall : ∀ w ∈ List.range words, w < words := fun w => List.mem_range.mp
  have htable : Compatibility.Below words ((List.range words).map fun w => (w, List.range words)) := by
    intro e he
    obtain ⟨w, hw, rfl⟩ := List.mem_map.mp he
    exact ⟨hall w hw, hall⟩
  rw [hlength]
  cases kind <;> exact htable

end Blueprint

namespace Encoding

theorem exists_infer {id : Nat} (h : id ≤ bits64.maxId) : ∃ e, infer id = .ok e := by
  unfold infer
  split_ifs
  · exact ⟨bits32, rfl⟩
  · exact ⟨bits64, rfl⟩

end Encoding

namespace Device

variable {words columns : Nat} {d : Device} {a b : Location}

/-- Every grid whose identifiers have at most twenty bits is a device. -/
theorem exists_grid (hwords : 1 ≤ words) (hwordIds : words ≤ 2 ^ 20) (hsiteIds : 2 * columns ≤ 2 ^ 20) :
    ∃ d, grid words columns = .ok d := by
  have hmax : (Blueprint.grid words columns).maxId ≤ Encoding.bits64.maxId := by
    rw [Encoding.le_maxId_iff, Blueprint.maxId, Blueprint.maxSites_grid hwords]
    simp only [Blueprint.grid, List.length_map, List.length_range, List.length_range', List.length_singleton]
    change _ < 2 ^ 20
    omega
  obtain ⟨encoding, hencoding⟩ := Encoding.exists_infer hmax
  refine ⟨⟨(Blueprint.grid words columns).normalize, encoding⟩, ?_⟩
  have hne : (Blueprint.grid words columns).words ≠ [] := by
    refine List.ne_nil_of_length_pos ?_
    simp only [Blueprint.grid, List.length_map, List.length_range]
    exact hwords
  exact ofBlueprint_eq_ok_iff.mpr 
    ⟨hne, Blueprint.fault?_grid hwords, Blueprint.below_grid words columns, rfl, hencoding⟩

theorem hasLocation_grid_iff (h : grid words columns = .ok d) {l : Location} :
    d.hasLocation l = true ↔ l.word < words ∧ l.site < 2 * columns := by
  have hword : d.word? l.word = if l.word < words then some (Blueprint.gridWord columns l.word) else none := by
    rw [word?, words_of_ofBlueprint h, Blueprint.grid, List.getElem?_map]
    split_ifs with hlt
    · rw [List.getElem?_range hlt]
      rfl
    · rw [List.getElem?_eq_none (by simpa using hlt)]
      rfl
  rw [hasLocation, hword]
  split_ifs with hlt <;> simp [hlt, Word.hasSite]

def Links (d : Device) (kind : LaneKind) (a b : Location) : Prop :=
  match kind with
  | .site => a.word = b.word ∧ a.word ∈ d.blueprint.siteBusWords ∧
      ∃ bus ∈ d.buses .site, (a.site, b.site) ∈ bus.pairs
  | .word => a.site = b.site ∧ a.site ∈ d.blueprint.wordBusSites ∧
      ∃ bus ∈ d.buses .word, (a.word, b.word) ∈ bus.pairs

theorem eq_of_mem_laneEdges {lane : Lane} {e : Segment} (he : e ∈ d.laneEdges lane a b) :
    e = ⟨lane, a, b⟩ ∨ e = ⟨lane.reverse, b, a⟩ := by
  unfold laneEdges at he
  split_ifs at he
  · exact List.mem_pair.mp he
  · cases he

theorem links_of_mem_edges {e : Segment} (he : e ∈ d.edges) :
    d.Links e.lane.kind e.src e.dst ∨ d.Links e.lane.kind e.dst e.src := by
  rcases List.mem_append.mp he with he | he
  · simp only [siteEdges, List.mem_flatMap, Prod.exists] at he
    obtain ⟨word, hword, bus, i, hbus, s, t, hpair, he⟩ := he
    have hlinks : d.Links .site ⟨word, s⟩ ⟨word, t⟩ :=
      ⟨rfl, hword, bus, List.fst_mem_of_mem_zipIdx hbus, hpair⟩
    rcases eq_of_mem_laneEdges he with rfl | rfl
    · exact Or.inl hlinks
    · exact Or.inr hlinks
  · simp only [wordEdges, List.mem_flatMap, Prod.exists] at he
    obtain ⟨bus, i, hbus, v, w, hpair, site, hsite, he⟩ := he
    have hlinks : d.Links .word ⟨v, site⟩ ⟨w, site⟩ :=
      ⟨rfl, hsite, bus, List.fst_mem_of_mem_zipIdx hbus, hpair⟩
    rcases eq_of_mem_laneEdges he with rfl | rfl
    · exact Or.inl hlinks
    · exact Or.inr hlinks

theorem laneEdges_of_links {kind : LaneKind} (h : d.Links kind a b) :
    ∃ lane : Lane, lane.kind = kind ∧ ∀ e ∈ d.laneEdges lane a b, e ∈ d.edges := by
  obtain ⟨v, s⟩ := a
  obtain ⟨w, t⟩ := b
  cases kind with
  | site =>
    obtain ⟨hword, hrides, bus, hbus, hpair⟩ := h
    obtain rfl : v = w := hword
    obtain ⟨i, hi⟩ := List.mem_iff_getElem?.mp hbus
    refine ⟨⟨.site, v, s, i, .forward⟩, rfl, ?_⟩
    intro e he
    refine List.mem_append_left _ ?_
    simp only [siteEdges, List.mem_flatMap, Prod.exists]
    exact ⟨v, hrides, bus, i, List.mem_zipIdx_iff_getElem?.mpr hi, s, t, hpair, he⟩
  | word =>
    obtain ⟨hsite, hrides, bus, hbus, hpair⟩ := h
    obtain rfl : s = t := hsite
    obtain ⟨i, hi⟩ := List.mem_iff_getElem?.mp hbus
    refine ⟨⟨.word, v, s, i, .forward⟩, rfl, ?_⟩
    intro e he
    refine List.mem_append_right _ ?_
    simp only [wordEdges, List.mem_flatMap, Prod.exists]
    exact ⟨bus, i, List.mem_zipIdx_iff_getElem?.mpr hi, v, w, hpair, s, hrides, he⟩

theorem exists_edge_iff {kind : LaneKind} : (∃ e ∈ d.edges, e.lane.kind = kind ∧ e.src = a ∧ e.dst = b) ↔
    d.hasLocation a = true ∧ d.hasLocation b = true ∧ (d.Links kind a b ∨ d.Links kind b a) := by
  constructor
  · rintro ⟨e, he, rfl, rfl, rfl⟩
    obtain ⟨hsrc, hdst⟩ := hasLocation_of_mem_edges he
    exact ⟨hsrc, hdst, links_of_mem_edges he⟩
  · rintro ⟨ha, hb, hlinks | hlinks⟩
    · obtain ⟨lane, rfl, hedges⟩ := laneEdges_of_links hlinks
      exact ⟨⟨lane, a, b⟩, hedges _ (by simp [laneEdges, ha, hb]), rfl, rfl, rfl⟩
    · obtain ⟨lane, rfl, hedges⟩ := laneEdges_of_links hlinks
      exact ⟨⟨lane.reverse, a, b⟩, hedges _ (by simp [laneEdges, ha, hb]), rfl, rfl, rfl⟩

/-- The places that lanes of a kind join in a grid: the two sides of a word, or two words at a right
site. -/
def GridLane (columns : Nat) (kind : LaneKind) (a b : Location) : Prop :=
  match kind with
  | .site => a.word = b.word ∧ (a.site < columns ↔ columns ≤ b.site)
  | .word => a.site = b.site ∧ columns ≤ a.site ∧ a.word ≠ b.word

/-- A grid has a lane wherever its kind can go, and nowhere else. -/
theorem exists_edge_grid_iff (h : grid words columns = .ok d) {kind : LaneKind} :
    (∃ e ∈ d.edges, e.lane.kind = kind ∧ e.src = a ∧ e.dst = b) ↔
      d.hasLocation a = true ∧ d.hasLocation b = true ∧ GridLane columns kind a b := by
  rw [exists_edge_iff]
  refine and_congr_right fun ha => and_congr_right fun hb => ?_
  rw [hasLocation_grid_iff h] at ha hb
  have hblueprint := (ofBlueprint_eq_ok h).2.1
  cases kind with
  | site =>
    have hlinks : ∀ a b, d.Links .site a b ↔ a.word = b.word ∧ a.word < words ∧
        a.site < columns ∧ columns ≤ b.site ∧ b.site < 2 * columns := by
      intro a b
      rw [← @Blueprint.exists_siteBus_iff words, ← List.mem_range, Links, buses, hblueprint]
      rfl
    rw [hlinks, hlinks, GridLane]
    omega
  | word =>
    have hlinks : ∀ a b, d.Links .word a b ↔ a.site = b.site ∧ (columns ≤ a.site ∧ a.site < columns + columns) ∧
        a.word < b.word ∧ b.word < words := by
      intro a b
      rw [← @Blueprint.exists_wordBus_iff words columns, ← List.mem_range'_1, Links, buses, hblueprint]
      rfl
    rw [hlinks, hlinks, GridLane]
    omega

end Device

end AtomTransport
