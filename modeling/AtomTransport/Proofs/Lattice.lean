import AtomTransport.Proofs.Evaluation

/-!
# The lattice of abstract values

The values without a floating-point NaN form a lattice: `join` and `meet` are the least upper and the
greatest lower bound in the order, list by list as deep as lists are nested. Exchanging `unknown` and
`bottom` turns the order round and takes joins to meets, so that what is known about the one carries over
to the other. States that differ only in the way their atoms have come are below each other, so the laws of
a lattice hold up to `equiv`.
-/

namespace AtomTransport

theorem Scalar.same_self_iff {s : Scalar} : s.same s = true ↔ s.isNaN = false := by
  cases s with
  | float x => simp [same, isNaN, Binary64.eq]
  | _ => simp [same, isNaN]

namespace Value

section NaN

mutual

def hasNaN : Value → Bool
  | scalar s => s.isNaN
  | list items => anyNaN items
  | _ => false

def anyNaN : List Value → Bool
  | [] => false
  | v :: vs => v.hasNaN || anyNaN vs

end

theorem anyNaN_eq_false {vs : List Value} : anyNaN vs = false ↔ ∀ v ∈ vs, v.hasNaN = false := by
  induction vs with
  | nil => exact iff_of_true rfl (by simp)
  | cons v vs ih =>
    change (v.hasNaN || anyNaN vs) = false ↔ _
    rw [Bool.or_eq_false_iff, ih, List.forall_mem_cons]

/-- A value is equal to itself unless a NaN is in it. -/
theorem same_self_iff {v : Value} : v.same v = true ↔ v.hasNaN = false := by
  induction v with
  | scalar s => exact Scalar.same_self_iff
  | list items ih =>
    rw [list_same_self_iff]
    exact (forall₂_congr ih).trans anyNaN_eq_false.symm
  | _ => simp [same, hasNaN]

theorem le_self {v : Value} (h : v.hasNaN = false) : v.le v = true :=
  le_of_same (same_self_iff.mpr h)

theorem hasNaN_join {a b : Value} (ha : a.hasNaN = false) (hb : b.hasNaN = false) :
    (a.join b).hasNaN = false :=
  same_self_iff.mp (join_same_self (same_self_iff.mpr ha) (same_self_iff.mpr hb))

end NaN

section Dual

mutual

def dual : Value → Value
  | unknown => bottom
  | bottom => unknown
  | list items => list (dualAll items)
  | v => v

def dualAll : List Value → List Value
  | [] => []
  | v :: vs => v.dual :: dualAll vs

end

theorem dualAll_eq_map (vs : List Value) : dualAll vs = vs.map dual := by
  induction vs with
  | nil => rfl
  | cons v vs ih => exact congrArg (v.dual :: ·) ih

theorem dual_list (vs : List Value) : (list vs).dual = list (vs.map dual) :=
  congrArg list (dualAll_eq_map vs)

@[simp] theorem dual_dual (v : Value) : v.dual.dual = v := by
  induction v with
  | list items ih =>
    rw [dual_list, dual_list, List.map_map]
    exact congrArg list ((List.map_congr_left ih).trans (List.map_id items))
  | _ => rfl

@[simp] theorem hasNaN_dual (v : Value) : v.dual.hasNaN = v.hasNaN := by
  induction v with
  | list items ih =>
    rw [dual_list, Bool.eq_iff_iff, ← not_iff_not, Bool.not_eq_true, Bool.not_eq_true]
    change anyNaN _ = false ↔ anyNaN _ = false
    rw [anyNaN_eq_false, anyNaN_eq_false, List.forall_mem_map]
    exact forall₂_congr fun x hx => by rw [ih x hx]
  | _ => rfl

theorem dual_le_dual {a b : Value} (h : a.le b = true) : b.dual.le a.dual = true := by
  induction a generalizing b with
  | unknown =>
    rw [unknown_le_iff.mp h]
    exact bottom_le _
  | bottom => exact le_unknown _
  | scalar s =>
    rcases scalar_le_iff.mp h with rfl | ⟨t, rfl, hst⟩
    · exact bottom_le _
    · exact scalar_le_iff.mpr (Or.inr ⟨s, rfl, Scalar.same_symm hst⟩)
  | atoms x =>
    rcases atoms_le_iff.mp h with rfl | ⟨y, rfl, hxy⟩
    · exact bottom_le _
    · exact atoms_le_iff.mpr (Or.inr ⟨x, rfl, hxy.symm⟩)
  | measured x =>
    rcases measured_le_iff.mp h with rfl | ⟨y, rfl, hxy⟩
    · exact bottom_le _
    · exact measured_le_iff.mpr (Or.inr ⟨x, rfl, hxy.symm⟩)
  | result q =>
    rcases result_le_iff.mp h with rfl | rfl
    · exact bottom_le _
    · exact result_le_iff.mpr (Or.inr rfl)
  | list as ih =>
    rcases list_le_iff.mp h with rfl | ⟨bs, rfl, hbs⟩
    · exact bottom_le _
    · rw [dual_list, dual_list, list_le_list_iff, List.forall₂_map_left_iff, List.forall₂_map_right_iff]
      apply List.Forall₂.flip
      exact ((List.forall₂_and_left as bs).mpr ⟨ih, hbs⟩).imp fun a b hab => hab.1 hab.2

theorem meetAll_eq_zipWith (as bs : List Value) : meetAll as bs = List.zipWith meet as bs := by
  induction as generalizing bs with
  | nil => rfl
  | cons a as ih =>
    cases bs with
    | nil => rfl
    | cons b bs => exact congrArg (a.meet b :: ·) (ih bs)

theorem list_meet (as bs : List Value) : (list as).meet (list bs) =
    if as.length = bs.length then list (List.zipWith meet as bs) else bottom := by
  rw [← meetAll_eq_zipWith]
  rfl

theorem dual_join (a b : Value) : (a.join b).dual = a.dual.meet b.dual := by
  induction a generalizing b with
  | list as ih =>
    cases b with
    | list bs =>
      rw [list_join, dual_list, dual_list, list_meet, List.length_map, List.length_map]
      split_ifs with hlength
      · rw [dual_list, List.map_zipWith, List.zipWith_map]
        apply congrArg list
        apply List.ext_getElem (by simp)
        intro i hi _
        obtain ⟨hi, _⟩ := Nat.lt_min.mp (List.length_zipWith ▸ hi)
        simpa using ih _ (List.getElem_mem hi) _
      · rfl
    | _ => simp [join, meet, dual]
  | scalar s =>
    cases b with
    | scalar t => by_cases h : s.same t = true <;> simp [join, meet, dual, h]
    | _ => simp [join, meet, dual]
  | atoms x =>
    cases b with
    | atoms y => by_cases h : x.sameLayout y = true <;> simp [join, meet, dual, h]
    | _ => simp [join, meet, dual]
  | measured x =>
    cases b with
    | measured y => by_cases h : x.sameLayout y = true <;> simp [join, meet, dual, h]
    | _ => simp [join, meet, dual]
  | result q =>
    cases b with
    | result r => by_cases h : q = r <;> simp [join, meet, dual, h]
    | _ => simp [join, meet, dual]
  | _ => cases b <;> simp [join, meet, dual]

theorem meet_eq (a b : Value) : a.meet b = (a.dual.join b.dual).dual := by
  rw [dual_join, dual_dual, dual_dual]

end Dual

section Laws

variable {a b c : Value}

theorem hasNaN_meet (ha : a.hasNaN = false) (hb : b.hasNaN = false) : (a.meet b).hasNaN = false := by
  rw [meet_eq, hasNaN_dual]
  exact hasNaN_join (by simpa using ha) (by simpa using hb)

theorem meet_le_left (b : Value) (ha : a.hasNaN = false) : (a.meet b).le a = true := by
  have hle := dual_le_dual (le_join_left b.dual (same_self_iff.mpr ((hasNaN_dual a).trans ha)))
  rwa [dual_dual, ← meet_eq] at hle

theorem meet_le_right (a : Value) (hb : b.hasNaN = false) : (a.meet b).le b = true := by
  have hle := dual_le_dual (le_join_right a.dual (same_self_iff.mpr ((hasNaN_dual b).trans hb)))
  rwa [dual_dual, ← meet_eq] at hle

theorem le_meet (ha : c.le a = true) (hb : c.le b = true) : c.le (a.meet b) = true := by
  have hle := dual_le_dual (join_le (dual_le_dual ha) (dual_le_dual hb))
  rwa [dual_dual, ← meet_eq] at hle

theorem join_le_iff (ha : a.hasNaN = false) (hb : b.hasNaN = false) :
    (a.join b).le c = true ↔ a.le c = true ∧ b.le c = true := by
  constructor
  · intro h
    exact ⟨le_trans (le_join_left b (same_self_iff.mpr ha)) h,
      le_trans (le_join_right a (same_self_iff.mpr hb)) h⟩
  · rintro ⟨ha, hb⟩
    exact join_le ha hb

theorem le_meet_iff (ha : a.hasNaN = false) (hb : b.hasNaN = false) :
    c.le (a.meet b) = true ↔ c.le a = true ∧ c.le b = true := by
  constructor
  · intro h
    exact ⟨le_trans h (meet_le_left b ha), le_trans h (meet_le_right a hb)⟩
  · rintro ⟨ha, hb⟩
    exact le_meet ha hb

theorem equiv_iff : a.equiv b = true ↔ a.le b = true ∧ b.le a = true := by
  rw [equiv, Bool.and_eq_true]

theorem equiv_of_above (ha : a.hasNaN = false) (hb : b.hasNaN = false)
    (h : ∀ x : Value, a.le x = true ↔ b.le x = true) : a.equiv b = true :=
  equiv_iff.mpr ⟨(h b).mpr (le_self hb), (h a).mp (le_self ha)⟩

theorem equiv_of_below (ha : a.hasNaN = false) (hb : b.hasNaN = false)
    (h : ∀ x : Value, x.le a = true ↔ x.le b = true) : a.equiv b = true :=
  equiv_iff.mpr ⟨(h a).mp (le_self ha), (h b).mpr (le_self hb)⟩

theorem join_comm (ha : a.hasNaN = false) (hb : b.hasNaN = false) :
    (a.join b).equiv (b.join a) = true := by
  apply equiv_of_above (hasNaN_join ha hb) (hasNaN_join hb ha)
  intro x
  rw [join_le_iff ha hb, join_le_iff hb ha, and_comm]

theorem meet_comm (ha : a.hasNaN = false) (hb : b.hasNaN = false) :
    (a.meet b).equiv (b.meet a) = true := by
  apply equiv_of_below (hasNaN_meet ha hb) (hasNaN_meet hb ha)
  intro x
  rw [le_meet_iff ha hb, le_meet_iff hb ha, and_comm]

theorem join_assoc (ha : a.hasNaN = false) (hb : b.hasNaN = false) (hc : c.hasNaN = false) :
    ((a.join b).join c).equiv (a.join (b.join c)) = true := by
  have hab := hasNaN_join ha hb
  have hbc := hasNaN_join hb hc
  apply equiv_of_above (hasNaN_join hab hc) (hasNaN_join ha hbc)
  intro x
  rw [join_le_iff hab hc, join_le_iff ha hb, join_le_iff ha hbc, join_le_iff hb hc, and_assoc]

theorem meet_assoc (ha : a.hasNaN = false) (hb : b.hasNaN = false) (hc : c.hasNaN = false) :
    ((a.meet b).meet c).equiv (a.meet (b.meet c)) = true := by
  have hab := hasNaN_meet ha hb
  have hbc := hasNaN_meet hb hc
  apply equiv_of_below (hasNaN_meet hab hc) (hasNaN_meet ha hbc)
  intro x
  rw [le_meet_iff hab hc, le_meet_iff ha hb, le_meet_iff ha hbc, le_meet_iff hb hc, and_assoc]

theorem join_idem (ha : a.hasNaN = false) : (a.join a).equiv a = true := by
  apply equiv_of_above (hasNaN_join ha ha) ha
  intro x
  rw [join_le_iff ha ha, and_self]

theorem meet_idem (ha : a.hasNaN = false) : (a.meet a).equiv a = true := by
  apply equiv_of_below (hasNaN_meet ha ha) ha
  intro x
  rw [le_meet_iff ha ha, and_self]

theorem join_meet_absorb (ha : a.hasNaN = false) (hb : b.hasNaN = false) :
    (a.join (a.meet b)).equiv a = true := by
  have hab := hasNaN_meet ha hb
  apply equiv_of_above (hasNaN_join ha hab) ha
  intro x
  rw [join_le_iff ha hab, and_iff_left_iff_imp]
  exact le_trans (meet_le_left b ha)

theorem meet_join_absorb (ha : a.hasNaN = false) (hb : b.hasNaN = false) :
    (a.meet (a.join b)).equiv a = true := by
  have hab := hasNaN_join ha hb
  apply equiv_of_below (hasNaN_meet ha hab) ha
  intro x
  rw [le_meet_iff ha hab, and_iff_left_iff_imp]
  exact fun hx => le_trans hx (le_join_left b (same_self_iff.mpr ha))

/-- Values without a NaN form a lattice. The order is reflexive and transitive with `bottom` at its lower
and `unknown` at its upper end, the join is the least upper and the meet the greatest lower bound, neither
brings in a NaN, and both obey the laws of a lattice up to `equiv`. -/
theorem lattice_laws (ha : a.hasNaN = false) (hb : b.hasNaN = false) (hc : c.hasNaN = false) :
    (a.le a = true ∧ (a.le b = true → b.le c = true → a.le c = true) ∧ bottom.le a = true ∧
      a.le unknown = true) ∧
    (a.le (a.join b) = true ∧ b.le (a.join b) = true ∧
      (a.le c = true → b.le c = true → (a.join b).le c = true) ∧ (a.join b).hasNaN = false) ∧
    ((a.meet b).le a = true ∧ (a.meet b).le b = true ∧
      (c.le a = true → c.le b = true → c.le (a.meet b) = true) ∧ (a.meet b).hasNaN = false) ∧
    ((a.join b).equiv (b.join a) = true ∧ ((a.join b).join c).equiv (a.join (b.join c)) = true ∧
      (a.join a).equiv a = true ∧ (a.join (a.meet b)).equiv a = true) ∧
    ((a.meet b).equiv (b.meet a) = true ∧ ((a.meet b).meet c).equiv (a.meet (b.meet c)) = true ∧
      (a.meet a).equiv a = true ∧ (a.meet (a.join b)).equiv a = true) := by
  refine ⟨⟨le_self ha, le_trans, bottom_le a, le_unknown a⟩, ⟨?_, ?_, join_le, hasNaN_join ha hb⟩,
    ⟨meet_le_left b ha, meet_le_right a hb, le_meet, hasNaN_meet ha hb⟩,
    ⟨join_comm ha hb, join_assoc ha hb hc, join_idem ha, join_meet_absorb ha hb⟩,
    ⟨meet_comm ha hb, meet_assoc ha hb hc, meet_idem ha, meet_join_absorb ha hb⟩⟩
  · exact le_join_left b (same_self_iff.mpr ha)
  · exact le_join_right a (same_self_iff.mpr hb)

end Laws

def parked : Value :=
  .list [.result 0, .list [.atoms (.single { qubit := 0, location := ⟨0, 0⟩ }), .bottom]]

def comeBack : Value :=
  let lane : Lane := ⟨.site, 0, 0, 0, .backward⟩
  .list [.result 1, .list [.atoms (.single { qubit := 0, location := ⟨0, 0⟩, lastLane := lane, moves := 2 }),
    .scalar (.float .zero)]]

/-- The two joins keep different histories of the atom, and yet are below each other. -/
theorem lattice_laws_nested :
    parked.hasNaN = false ∧ comeBack.hasNaN = false ∧
      (parked.join comeBack).same (comeBack.join parked) = false ∧
      (parked.join comeBack).equiv (comeBack.join parked) = true ∧
      (parked.meet (parked.join comeBack)).equiv parked = true := by
  have hparked : parked.hasNaN = false := by decide +kernel
  have hcomeBack : comeBack.hasNaN = false := by decide +kernel
  obtain ⟨_, _, _, ⟨hcomm, _⟩, _, _, _, habsorb⟩ := lattice_laws hparked hcomeBack hcomeBack
  exact ⟨hparked, hcomeBack, by decide +kernel, hcomm, habsorb⟩

end Value

end AtomTransport
