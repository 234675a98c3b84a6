import AtomTransport.Encoding
import AtomTransport.Proofs.Failure
import Mathlib.Algebra.Ring.Nat

/-!
# Packing is exact

Packing fields and cutting an address into fields undo each other: an address is the packed form of some
values exactly when cutting it gives these values and leaves nothing above them. From this one equivalence
follows, for every kind of address and for both encodings, which values have an address, which addresses
have a value, and that the two directions are inverse.
-/

namespace AtomTransport

theorem Direction.ofBit_eq_iff {b : Nat} (hb : b < 2) (dir : Direction) :
    ofBit b = dir ↔ b = dir.bit := by
  have hcases : b = 0 ∨ b = 1 := by omega
  rcases hcases with rfl | rfl <;> cases dir <;> decide

theorem LaneKind.ofBit_eq_iff {b : Nat} (hb : b < 2) (kind : LaneKind) :
    ofBit b = kind ↔ b = kind.bit := by
  have hcases : b = 0 ∨ b = 1 := by omega
  rcases hcases with rfl | rfl <;> cases kind <;> decide

/-- A number has a bit at or above a position when it does not fit below it. -/
theorem exists_testBit_iff {a n : Nat} : (∃ i, n ≤ i ∧ a.testBit i = true) ↔ 2 ^ n ≤ a := by
  constructor
  · rintro ⟨i, hi, hbit⟩
    exact Nat.le_trans (Nat.pow_le_pow_right (by decide) hi) (Nat.ge_two_pow_of_testBit hbit)
  · intro h
    exact Nat.exists_ge_and_testBit_of_ge_two_pow h

namespace Encoding

variable {e : Encoding} {fields : List (Field × Nat × Nat)} {widths values : List Nat} {a : Nat}

theorem le_maxId_iff {id : Nat} : id ≤ e.maxId ↔ id < 2 ^ e.fieldBits := by
  have hpos : 0 < 2 ^ e.fieldBits := Nat.two_pow_pos _
  change id ≤ 2 ^ e.fieldBits - 1 ↔ _
  omega

theorem maxAddress_lt_iff : e.maxAddress < a ↔ 2 ^ e.totalBits ≤ a := by
  have hpos : 0 < 2 ^ e.totalBits := Nat.two_pow_pos _
  change 2 ^ e.totalBits - 1 < a ↔ _
  omega

/-- An address is packed from some values when it is cut into these values with nothing left over. -/
theorem pack_eq_ok_iff : pack fields = .ok a ↔
    unpack.cut (fields.map (·.2.2)) a = fields.map (·.2.1) ∧ a < 2 ^ (fields.map (·.2.2)).sum := by
  induction fields generalizing a with
  | nil =>
    simp only [pack, Except.ok.injEq, List.map_nil, unpack.cut, List.sum_nil, Nat.pow_zero, true_and]
    omega
  | cons field fields ih =>
    obtain ⟨name, value, bits⟩ := field
    have hpos : 0 < 2 ^ bits := Nat.two_pow_pos _
    simp only [List.map_cons, List.sum_cons, unpack.cut, List.cons.injEq, Nat.pow_eq, Nat.pow_add]
    constructor
    · intro h
      simp only [pack, Nat.pow_eq] at h
      split_ifs at h with hvalue
      cases hrest : pack fields with
      | error err =>
        rw [hrest] at h
        cases h
      | ok high =>
        rw [hrest] at h
        cases h
        obtain ⟨hcut, hhigh⟩ := ih.mp hrest
        have hlow : (value + 2 ^ bits * high) % 2 ^ bits = value := by
          rw [Nat.add_mul_mod_self_left, Nat.mod_eq_of_lt hvalue]
        have hquot : (value + 2 ^ bits * high) / 2 ^ bits = high := by
          rw [Nat.add_mul_div_left _ _ hpos, Nat.div_eq_of_lt hvalue, Nat.zero_add]
        refine ⟨⟨hlow, hquot.symm ▸ hcut⟩, ?_⟩
        calc value + 2 ^ bits * high < 2 ^ bits + 2 ^ bits * high := by omega
          _ = 2 ^ bits * (high + 1) := by rw [Nat.mul_succ, Nat.add_comm]
          _ ≤ 2 ^ bits * 2 ^ (fields.map (·.2.2)).sum := Nat.mul_le_mul_left _ hhigh
    · rintro ⟨⟨hlow, hcut⟩, hlt⟩
      have hrest := ih.mpr ⟨hcut, Nat.div_lt_of_lt_mul hlt⟩
      have hvalue : value < 2 ^ bits := hlow ▸ Nat.mod_lt a hpos
      simp only [pack, Nat.pow_eq, if_pos hvalue, hrest, Except.map]
      rw [← hlow, Nat.mod_add_div]

theorem exists_pack_iff : (∃ a, pack fields = .ok a) ↔ ∀ f ∈ fields, f.2.1 < 2 ^ f.2.2 := by
  induction fields with
  | nil => simp [pack]
  | cons field fields ih =>
    rw [List.forall_mem_cons, ← ih]
    by_cases hvalue : field.2.1 < 2 ^ field.2.2
    · simp only [pack, Nat.pow_eq, if_pos hvalue]
      cases pack fields <;> simp [Except.map, hvalue]
    · simp [pack, hvalue]

theorem unpack_eq_ok_iff : e.unpack widths a = .ok values ↔
    a ≤ e.maxAddress ∧ a < 2 ^ widths.sum ∧ unpack.cut widths a = values := by
  have hdiv : a / 2 ^ widths.sum ≠ 0 ↔ ¬ a < 2 ^ widths.sum := by
    rw [ne_eq, Nat.div_eq_zero_iff_lt (Nat.two_pow_pos _)]
  rw [unpack, ← List.sum_eq_foldl_nat, Nat.pow_eq]
  by_cases hmax : e.maxAddress < a
  · simp only [if_pos hmax, reduceCtorEq, false_iff]
    omega
  · by_cases hlt : a < 2 ^ widths.sum
    · simp only [if_neg hmax, hdiv, hlt, not_true, if_false, Except.ok.injEq, true_and]
      exact ⟨fun h => ⟨by omega, h⟩, fun h => h.2⟩
    · simp [if_neg hmax, hdiv, hlt]

theorem unpack_eq_error_iff : (∃ err, e.unpack widths a = .error err) ↔
    e.maxAddress < a ∨ ∃ i, widths.sum ≤ i ∧ a.testBit i = true := by
  rw [exists_testBit_iff]
  cases h : e.unpack widths a with
  | error err =>
    simp only [Except.error.injEq, exists_eq', true_iff]
    by_contra hfits
    have hok : e.unpack widths a = .ok (unpack.cut widths a) :=
      unpack_eq_ok_iff.mpr ⟨by omega, by omega, rfl⟩
    cases h.symm.trans hok
  | ok values =>
    obtain ⟨hmax, hlt, _⟩ := unpack_eq_ok_iff.mp h
    simp only [reduceCtorEq, exists_false, false_iff, not_or]
    omega

/-- Values of one kind are packed exactly: those whose identifiers fit have an address, unpacking gives
back what was packed and nothing else, and it fails on an address that is too large, has a bit above the
fields, or is foreign to the kind. -/
structure Exact {α : Type} (e : Encoding) (Kind : α → Prop) (ids : α → List Nat) (bits : Nat)
    (Foreign : Nat → Prop) (encode : α → Except EncodingError Nat)
    (decode : Nat → Except EncodingError α) : Prop where
  packs : ∀ v, Kind v → ((∃ a, encode v = .ok a) ↔ ∀ id ∈ ids v, id ≤ e.maxId)
  inverse : ∀ v a, decode a = .ok v ↔ Kind v ∧ encode v = .ok a
  refuses : ∀ a, (∃ err, decode a = .error err) ↔
    e.maxAddress < a ∨ (∃ i, bits ≤ i ∧ a.testBit i = true) ∨ Foreign a

/-- A kind of values that is packed field by field, when its values can be told from their fields. -/
theorem exact_of_fields {α : Type} {fields : α → List (Field × Nat × Nat)} {build : List Nat → α}
    {ids : α → List Nat} (hwidths : ∀ v, (fields v).map (·.2.2) = widths)
    (hfit : widths.sum ≤ e.totalBits)
    (hids : ∀ v, (∀ f ∈ fields v, f.2.1 < 2 ^ f.2.2) ↔ ∀ id ∈ ids v, id ≤ e.maxId)
    (hbuild : ∀ v a, build (unpack.cut widths a) = v ↔ unpack.cut widths a = (fields v).map (·.2.1)) :
    e.Exact (fun _ => True) ids widths.sum (fun _ => False) (fun v => pack (fields v))
      (fun a => (e.unpack widths a).map build) where
  packs v _ := exists_pack_iff.trans (hids v)
  inverse v a := by
    rw [pack_eq_ok_iff, hwidths v, ← hbuild, true_and]
    cases h : e.unpack widths a with
    | ok values =>
      obtain ⟨_, hlt, rfl⟩ := unpack_eq_ok_iff.mp h
      simp only [Except.map, Except.ok.injEq, hlt, and_true]
    | error err =>
      -- A number that fits the fields fits the encoding, so it would have been unpacked.
      have hlt : ¬ a < 2 ^ widths.sum := by
        intro hlt
        have hpow : 2 ^ widths.sum ≤ 2 ^ e.totalBits := Nat.pow_le_pow_right (by decide) hfit
        have hmax : a ≤ e.maxAddress := by
          have := maxAddress_lt_iff (e := e) (a := a)
          omega
        cases h.symm.trans (unpack_eq_ok_iff.mpr ⟨hmax, hlt, rfl⟩)
      simp [Except.map, hlt]
  refuses a := by
    rw [or_false, ← unpack_eq_error_iff]
    cases e.unpack widths a <;> simp [Except.map]

theorem exact_location (e : Encoding) : e.Exact (fun _ => True) (fun l => [l.word, l.site])
    (2 * e.fieldBits) (fun _ => False) (Location.encode e) (Location.decode e) := by
  have h : e.Exact (fun _ => True) (fun l : Location => [l.word, l.site])
      [e.fieldBits, e.fieldBits].sum (fun _ => False) (Location.encode e) (Location.decode e) := by
    apply exact_of_fields
    · intro l
      rfl
    · cases e <;> decide
    · intro l
      simp [le_maxId_iff, and_comm]
    · rintro ⟨word, site⟩ a
      simp [unpack.cut, and_comm]
  have hbits : [e.fieldBits, e.fieldBits].sum = 2 * e.fieldBits := by
    simp only [List.sum_cons, List.sum_nil]
    omega
  exact hbits ▸ h

theorem exact_zone (e : Encoding) : e.Exact (fun _ => True) (fun z => [z.id]) e.fieldBits
    (fun _ => False) (Zone.encode e) (Zone.decode e) := by
  have h : e.Exact (fun _ => True) (fun z : Zone => [z.id]) [e.fieldBits].sum (fun _ => False)
      (Zone.encode e) (Zone.decode e) := by
    apply exact_of_fields
    · intro z
      rfl
    · cases e <;> decide
    · intro z
      simp [le_maxId_iff]
    · rintro ⟨id⟩ a
      simp [unpack.cut]
  exact (List.sum_singleton : [e.fieldBits].sum = e.fieldBits) ▸ h

theorem exact_lane (e : Encoding) : e.Exact (fun _ => True) (fun l => [l.word, l.site, l.bus])
    (3 * e.fieldBits + 2) (fun _ => False) (Lane.encode e) (Lane.decode e) := by
  have h : e.Exact (fun _ => True) (fun l : Lane => [l.word, l.site, l.bus])
      [1, 1, e.fieldBits, e.fieldBits, e.fieldBits].sum (fun _ => False) (Lane.encode e)
      (Lane.decode e) := by
    apply exact_of_fields
    · intro l
      rfl
    · cases e <;> decide
    · intro l
      have hdirection : l.direction.bit < 2 ^ 1 := by cases l.direction <;> decide
      have hkind : l.kind.bit < 2 ^ 1 := by cases l.kind <;> decide
      simp only [List.forall_mem_cons, hdirection, hkind, le_maxId_iff, List.not_mem_nil]
      tauto
    · rintro ⟨kind, word, site, bus, direction⟩ a
      have hdirection := Direction.ofBit_eq_iff (Nat.mod_lt a Nat.two_pos) direction
      have hkind := LaneKind.ofBit_eq_iff (Nat.mod_lt (a / 2) Nat.two_pos) kind
      simp only [unpack.cut, Nat.pow_eq, Nat.pow_one, List.getD_cons_zero, List.getD_cons_succ,
        List.map_cons, List.map_nil, Lane.mk.injEq, List.cons.injEq, hdirection, hkind]
      tauto
  have hbits : [1, 1, e.fieldBits, e.fieldBits, e.fieldBits].sum = 3 * e.fieldBits + 2 := by
    simp only [List.sum_cons, List.sum_nil]
    omega
  exact hbits ▸ h

theorem testBit_of_decode {lane : Lane} (h : Lane.decode e a = .ok lane) :
    a.testBit 1 = decide (lane.kind = .word) := by
  rw [Lane.decode] at h
  cases hunpack : e.unpack [1, 1, e.fieldBits, e.fieldBits, e.fieldBits] a with
  | error err =>
    rw [hunpack] at h
    cases h
  | ok values =>
    obtain ⟨_, _, rfl⟩ := unpack_eq_ok_iff.mp hunpack
    rw [hunpack] at h
    cases h
    have hkind := LaneKind.ofBit_eq_iff (Nat.mod_lt (a / 2) Nat.two_pos) .word
    simp only [unpack.cut, Nat.pow_eq, Nat.pow_one, List.getD_cons_zero, List.getD_cons_succ,
      Nat.testBit_eq_decide_div_mod_eq, hkind]
    rfl

/-- Unpacking lanes of one kind refuses the lanes of the other kind as well. -/
theorem exact_laneAs (e : Encoding) (kind : LaneKind) :
    e.Exact (·.kind = kind) (fun l => [l.word, l.site, l.bus]) (3 * e.fieldBits + 2)
      (fun a => a.testBit 1 ≠ decide (kind = .word)) (Lane.encode e) (Lane.decodeAs kind e) where
  packs v _ := (exact_lane e).packs v trivial
  inverse v a := by
    have hlane := (exact_lane e).inverse v a
    rw [true_and] at hlane
    rw [← hlane, Lane.decodeAs]
    cases hdecode : Lane.decode e a with
    | error err => simp
    | ok lane =>
      simp only [Except.ok.injEq]
      split_ifs with hkind
      · simp only [Except.ok.injEq]
        constructor
        · rintro rfl
          exact ⟨hkind, rfl⟩
        · exact fun h => h.2
      · simp only [false_iff, not_and]
        rintro hv rfl
        exact hkind hv
  refuses a := by
    have hlane := (exact_lane e).refuses a
    rw [or_false] at hlane
    rw [← or_assoc, ← hlane, Lane.decodeAs]
    cases hdecode : Lane.decode e a with
    | error err => simp
    | ok lane =>
      have htag := testBit_of_decode hdecode
      simp only [reduceCtorEq, exists_false, false_or, htag]
      split_ifs with hkind
      · simp [hkind]
      · simp only [Except.error.injEq, exists_eq', true_iff]
        revert hkind
        cases lane.kind <;> cases kind <;> decide

/-- In both encodings the addresses of locations, of lanes, of lanes of one kind and of zones are exact:
packing and unpacking are inverse partial maps, and each of them fails for the stated reasons only. -/
theorem packing_exact (e : Encoding) :
    e.Exact (fun _ => True) (fun l => [l.word, l.site]) (2 * e.fieldBits) (fun _ => False)
      (Location.encode e) (Location.decode e) ∧
    e.Exact (fun _ => True) (fun l => [l.word, l.site, l.bus]) (3 * e.fieldBits + 2) (fun _ => False)
      (Lane.encode e) (Lane.decode e) ∧
    (∀ kind, e.Exact (·.kind = kind) (fun l => [l.word, l.site, l.bus]) (3 * e.fieldBits + 2)
      (fun a => a.testBit 1 ≠ decide (kind = .word)) (Lane.encode e) (Lane.decodeAs kind e)) ∧
    e.Exact (fun _ => True) (fun z => [z.id]) e.fieldBits (fun _ => False) (Zone.encode e)
      (Zone.decode e) :=
  ⟨exact_location e, exact_lane e, exact_laneAs e, exact_zone e⟩

-- The fields of a lane fill the 32-bit encoding and leave two bits of the 64-bit encoding free.
example : Lane.decode .bits32 (2 ^ 32 - 1) = .ok ⟨.word, 1023, 1023, 1023, .backward⟩ ∧
    Lane.decode .bits64 (2 ^ 62) = .error (.trailingBits (2 ^ 62)) := by decide

end Encoding

end AtomTransport
