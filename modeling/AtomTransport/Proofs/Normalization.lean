import AtomTransport.Device.Grid
import AtomTransport.Proofs.Device

/-!
# Devices in normal form

A device keeps its blueprint but for the two compatibility tables, in which a listing on either side comes to
count for both. Two words are listed together in a table of the device exactly if they are different and
either of them was listed with the other, and this decides which lanes may run in one step. A table that has
been made symmetric stays as it is, so the blueprint of a device is accepted again and gives the same device.
-/

namespace AtomTransport

namespace Blueprint

variable {b : Blueprint}

/-- The checks accept what they have accepted once more after the tables have been made symmetric. -/
theorem fault?_normalize (h : b.fault? = none) : b.normalize.fault? = none :=
  fault?_eq_none_iff.mpr (fault?_eq_none_iff.mp h)

theorem below_normalize (h : ∀ kind, (b.compatibility kind).Below b.words.length) (kind : LaneKind) :
    (b.normalize.compatibility kind).Below b.normalize.words.length := by
  cases kind
  · exact (h .site).symmetric
  · exact (h .word).symmetric

end Blueprint

namespace Device

variable {d : Device} {b : Blueprint}

theorem lists_compatibility_iff (h : ofBlueprint b = .ok d) {kind : LaneKind} {v w : Nat} :
    (d.compatibility kind).lists v w = true ↔
      v ≠ w ∧ ((b.compatibility kind).Listed v w ∨ (b.compatibility kind).Listed w v) := by
  rw [compatibility_of_ofBlueprint h, Compatibility.lists_symmetric_iff]

theorem compatible_eq_true_iff {x y : Lane} : d.compatible x y = true ↔ x.signature = y.signature ∧
    (x.word, x.site) ≠ (y.word, y.site) ∧
      (x.word = y.word ∨ (d.compatibility x.kind).lists x.word y.word = true) := by
  simp [compatible, and_assoc, ← not_and_or]

theorem compatible_self (d : Device) (x : Lane) : d.compatible x x = false := by
  simp [compatible]

/-- Two lanes may run in one step exactly if they agree in kind, bus and direction, start from different
places, and their words are equal or listed together in the blueprint, on whichever side. The order of the
lanes does not matter, nor whether both are travelled the other way, and no lane goes with itself. -/
theorem compatible_iff_listed (h : ofBlueprint b = .ok d) :
    (∀ x y : Lane, d.compatible x y = true ↔
      x.kind = y.kind ∧ x.bus = y.bus ∧ x.direction = y.direction ∧
        (x.word, x.site) ≠ (y.word, y.site) ∧
        (x.word = y.word ∨ (b.compatibility x.kind).Listed x.word y.word ∨
          (b.compatibility x.kind).Listed y.word x.word)) ∧
      (∀ x y, d.compatible x y = d.compatible y x) ∧ (∀ x, d.compatible x x = false) ∧
      ∀ x y : Lane, d.compatible x.reverse y.reverse = d.compatible x y := by
  refine ⟨fun x y => ?_, compatible_comm h, d.compatible_self, d.compatible_reverse⟩
  have hwords : x.word = y.word ∨ (d.compatibility x.kind).lists x.word y.word = true ↔
      x.word = y.word ∨ (b.compatibility x.kind).Listed x.word y.word ∨
        (b.compatibility x.kind).Listed y.word x.word := by
    rw [lists_compatibility_iff h]
    tauto
  rw [compatible_eq_true_iff, hwords, Lane.signature, Lane.signature, Signature.mk.injEq, and_assoc,
    and_assoc]

/-- A table that lists only from one side, lists a word with itself, and has an empty row. -/
def lopsided : Blueprint :=
  { Blueprint.grid 3 1 with
    siteBusCompatibility := [(0, [0, 2]), (1, [])]
    wordBusCompatibility := [(2, [1, 2])] }

def lopsidedDevice : Device := ⟨lopsided.normalize, .bits32⟩

theorem ofBlueprint_lopsided : ofBlueprint lopsided = .ok lopsidedDevice := by decide +kernel

/-- Only the entry of word 0 lists word 2, and yet their site lanes go together in both orders; the lanes of
words 0 and 1 do not. -/
theorem compatible_iff_listed_lopsided :
    lopsidedDevice.compatible ⟨.site, 0, 0, 0, .forward⟩ ⟨.site, 2, 0, 0, .forward⟩ = true ∧
      lopsidedDevice.compatible ⟨.site, 2, 0, 0, .backward⟩ ⟨.site, 0, 0, 0, .backward⟩ = true ∧
      lopsidedDevice.compatible ⟨.site, 0, 0, 0, .forward⟩ ⟨.site, 1, 0, 0, .forward⟩ = false := by
  obtain ⟨hiff, hcomm, -, hreverse⟩ := compatible_iff_listed ofBlueprint_lopsided
  have hlisted := (hiff ⟨.site, 0, 0, 0, .forward⟩ ⟨.site, 2, 0, 0, .forward⟩).mpr (by decide)
  refine ⟨hlisted, ?_, ?_⟩
  · exact (hcomm _ _).trans ((hreverse _ _).trans hlisted)
  · rw [Bool.eq_false_iff, ne_eq, hiff]
    decide

/-- The blueprint of an accepted device is accepted again and gives the same device. Its tables are in normal
form and list what was listed on either side; the other parts are those that were written down. Its blockade
pairs join two different existing sites of one word, each of which names the other. -/
theorem ofBlueprint_stable (h : ofBlueprint b = .ok d) :
    ofBlueprint d.blueprint = .ok d ∧
      (∀ kind, (d.compatibility kind).Normal ∧ ∀ v w, (d.compatibility kind).lists v w = true ↔
        v ≠ w ∧ ((b.compatibility kind).Listed v w ∨ (b.compatibility kind).Listed w v)) ∧
      d.blueprint = { b with
        siteBusCompatibility := d.compatibility .site, wordBusCompatibility := d.compatibility .word } ∧
      ∀ l m, d.blockaded? l = some m → d.checkLocation l = .ok () ∧ d.checkLocation m = .ok () ∧
        m ≠ l ∧ m.word = l.word ∧ d.blockaded? m = some l := by
  obtain ⟨hwords, hfault, hbelow, hblueprint, hencoding⟩ := ofBlueprint_eq_ok_iff.mp h
  refine ⟨?_, fun kind => ⟨?_, fun v w => lists_compatibility_iff h⟩, ?_, ?_⟩
  · rw [ofBlueprint_eq_ok_iff, hblueprint, Blueprint.normalize_normalize]
    exact ⟨hwords, Blueprint.fault?_normalize hfault, Blueprint.below_normalize hbelow, rfl, hencoding⟩
  · rw [compatibility_of_ofBlueprint h]
    exact Compatibility.normal_symmetric _
  · rw [compatibility, compatibility, hblueprint]
    rfl
  · intro l m hl
    obtain ⟨hword, hne, hback, hm⟩ := blockaded?_eq_some h hl
    obtain ⟨-, -, -, hexists⟩ := blockaded?_eq_some h hback
    exact ⟨checkLocation_eq_ok_iff.mpr hexists, checkLocation_eq_ok_iff.mpr hm, hne.symm, hword, hback⟩

/-- Making the lopsided tables symmetric changes the blueprint, and what comes out does not change any
more. -/
theorem ofBlueprint_stable_lopsided :
    lopsidedDevice.blueprint ≠ lopsided ∧ ofBlueprint lopsidedDevice.blueprint = .ok lopsidedDevice ∧
      lopsidedDevice.compatibility .site = [(0, [2]), (2, [0])] ∧
      (lopsidedDevice.compatibility .site).Normal ∧ (lopsidedDevice.compatibility .word).Normal ∧
      lopsidedDevice.blockaded? ⟨1, 1⟩ = some ⟨1, 0⟩ ∧ lopsidedDevice.blockaded? ⟨1, 0⟩ = some ⟨1, 1⟩ := by
  obtain ⟨hstable, htables, -, hpairs⟩ := ofBlueprint_stable ofBlueprint_lopsided
  have hpair : lopsidedDevice.blockaded? ⟨1, 1⟩ = some ⟨1, 0⟩ := by decide +kernel
  obtain ⟨-, -, -, -, hback⟩ := hpairs _ _ hpair
  exact ⟨by decide +kernel, hstable, by decide +kernel, (htables .site).1, (htables .word).1, hpair, hback⟩

end Device

end AtomTransport
