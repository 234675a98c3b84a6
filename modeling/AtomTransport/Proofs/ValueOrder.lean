import AtomTransport.Value
import AtomTransport.Proofs.Layout

/-!
# The order of abstract values

Values that are equal in every detail are below each other, the order is transitive, and the join is the
least upper bound of two values. A floating-point number that is not a number is not equal to itself and
so stands outside the order; every other value is equal to itself. Below a value without `unknown` there
is none with it.
-/

namespace AtomTransport

namespace Binary64

theorem eq_self {x : Binary64} (h : x.isNaN = false) : x.eq x = true := by
  simp [eq, h]

theorem eq_symm {x y : Binary64} (h : x.eq y = true) : y.eq x = true := by
  simp only [eq, Bool.and_eq_true, decide_eq_true_eq] at h ⊢
  exact ⟨⟨h.1.2, h.1.1⟩, h.2.symm⟩

theorem eq_trans {x y z : Binary64} (hxy : x.eq y = true) (hyz : y.eq z = true) : x.eq z = true := by
  simp only [eq, Bool.and_eq_true, decide_eq_true_eq] at hxy hyz ⊢
  exact ⟨⟨hxy.1.1, hyz.1.2⟩, hxy.2.trans hyz.2⟩

end Binary64

namespace Scalar

theorem same_symm {a b : Scalar} (h : a.same b = true) : b.same a = true := by
  cases a <;> cases b <;> simp only [same, decide_eq_true_eq, Bool.false_eq_true] at h ⊢
  · exact h.symm
  · exact h.symm
  · exact Binary64.eq_symm h

theorem same_trans {a b c : Scalar} (hab : a.same b = true) (hbc : b.same c = true) :
    a.same c = true := by
  cases a <;> cases b <;> simp only [same, decide_eq_true_eq, Bool.false_eq_true] at hab <;>
    cases c <;> simp only [same, decide_eq_true_eq, Bool.false_eq_true] at hbc ⊢
  · exact hab.trans hbc
  · exact hab.trans hbc
  · exact Binary64.eq_trans hab hbc

end Scalar

theorem forall₂_comp {α β γ : Type} {R : α → β → Prop} {S : β → γ → Prop} {T : α → γ → Prop}
    {as : List α} {bs : List β} {cs : List γ} (h : ∀ a ∈ as, ∀ {b c}, R a b → S b c → T a c)
    (hab : List.Forall₂ R as bs) (hbc : List.Forall₂ S bs cs) : List.Forall₂ T as cs := by
  induction hab generalizing cs with
  | nil =>
    cases hbc
    exact List.Forall₂.nil
  | cons hR _ ih =>
    cases hbc with
    | cons hS hrest =>
      rw [List.forall_mem_cons] at h
      exact List.Forall₂.cons (h.1 hR hS) (ih h.2 hrest)

namespace Value

/-- Induction over values in which a property of a list may rest on all its items. -/
@[elab_as_elim, induction_eliminator]
theorem induction {motive : Value → Prop} (unknown : motive unknown) (bottom : motive bottom)
    (scalar : ∀ s, motive (scalar s)) (atoms : ∀ a, motive (atoms a))
    (measured : ∀ a, motive (measured a)) (result : ∀ q, motive (result q))
    (list : ∀ items, (∀ x ∈ items, motive x) → motive (list items)) (v : Value) : motive v :=
  match v with
  | .unknown => unknown
  | .bottom => bottom
  | .scalar s => scalar s
  | .atoms a => atoms a
  | .measured a => measured a
  | .result q => result q
  | .list items => list items fun x _ =>
      induction unknown bottom scalar atoms measured result list x
termination_by sizeOf v

theorem sameAll_iff {as bs : List Value} :
    sameAll as bs = true ↔ List.Forall₂ (fun a b => a.same b = true) as bs := by
  induction as generalizing bs with
  | nil =>
    cases bs with
    | nil => exact iff_of_true rfl .nil
    | cons b bs => exact iff_of_false nofun nofun
  | cons a as ih =>
    cases bs with
    | nil => exact iff_of_false nofun nofun
    | cons b bs =>
      change (a.same b && sameAll as bs) = true ↔ _
      rw [Bool.and_eq_true, ih, List.forall₂_cons]

theorem leAll_iff {as bs : List Value} :
    leAll as bs = true ↔ List.Forall₂ (fun a b => a.le b = true) as bs := by
  induction as generalizing bs with
  | nil =>
    cases bs with
    | nil => exact iff_of_true rfl .nil
    | cons b bs => exact iff_of_false nofun nofun
  | cons a as ih =>
    cases bs with
    | nil => exact iff_of_false nofun nofun
    | cons b bs =>
      change (a.le b && leAll as bs) = true ↔ _
      rw [Bool.and_eq_true, ih, List.forall₂_cons]

theorem joinAll_eq_zipWith (as bs : List Value) : joinAll as bs = List.zipWith join as bs := by
  induction as generalizing bs with
  | nil => rfl
  | cons a as ih =>
    cases bs with
    | nil => rfl
    | cons b bs => exact congrArg (a.join b :: ·) (ih bs)

theorem anyUnknown_eq_false {vs : List Value} :
    anyUnknown vs = false ↔ ∀ v ∈ vs, v.containsUnknown = false := by
  induction vs with
  | nil => exact iff_of_true rfl (by simp)
  | cons v vs ih =>
    change (v.containsUnknown || anyUnknown vs) = false ↔ _
    rw [Bool.or_eq_false_iff, ih, List.forall_mem_cons]

theorem same_iff {a b : Value} : a.same b = true ↔
    (a = unknown ∧ b = unknown) ∨ (a = bottom ∧ b = bottom) ∨
      (∃ s t, a = scalar s ∧ b = scalar t ∧ s.same t = true) ∨
      (∃ x, a = atoms x ∧ a = b) ∨ (∃ x, a = measured x ∧ a = b) ∨ (∃ q, a = result q ∧ a = b) ∨
      ∃ as bs, a = list as ∧ b = list bs ∧ List.Forall₂ (fun a b => a.same b = true) as bs := by
  cases a <;> cases b <;> simp [same, sameAll_iff]

theorem le_iff {a b : Value} : a.le b = true ↔ a = bottom ∨ b = unknown ∨
    (∃ s t, a = scalar s ∧ b = scalar t ∧ s.same t = true) ∨
      (∃ x y, a = atoms x ∧ b = atoms y ∧ x.layout = y.layout) ∨
      (∃ x y, a = measured x ∧ b = measured y ∧ x.layout = y.layout) ∨
      (∃ q, a = result q ∧ a = b) ∨
      ∃ as bs, a = list as ∧ b = list bs ∧ List.Forall₂ (fun a b => a.le b = true) as bs := by
  cases a <;> cases b <;> simp [le, leAll_iff, Atoms.sameLayout_eq]

theorem list_same_self_iff {xs : List Value} :
    (list xs).same (list xs) = true ↔ ∀ x ∈ xs, x.same x = true :=
  sameAll_iff.trans List.forall₂_same

theorem list_le_list_iff {as bs : List Value} :
    (list as).le (list bs) = true ↔ List.Forall₂ (fun a b => a.le b = true) as bs := leAll_iff

@[simp] theorem bottom_le (v : Value) : bottom.le v = true := le_iff.mpr (Or.inl rfl)

@[simp] theorem le_unknown (v : Value) : v.le unknown = true := le_iff.mpr (Or.inr (Or.inl rfl))

@[simp] theorem le_bottom_iff {v : Value} : v.le bottom = true ↔ v = bottom := by
  rw [le_iff]
  simp

@[simp] theorem unknown_le_iff {v : Value} : unknown.le v = true ↔ v = unknown := by
  rw [le_iff]
  simp

section Above

variable {v : Value}

theorem scalar_le_iff {s : Scalar} :
    (scalar s).le v = true ↔ v = unknown ∨ ∃ t, v = scalar t ∧ s.same t = true := by
  rw [le_iff]
  simp

theorem atoms_le_iff {a : Atoms} :
    (atoms a).le v = true ↔ v = unknown ∨ ∃ b, v = atoms b ∧ a.layout = b.layout := by
  rw [le_iff]
  simp

theorem measured_le_iff {a : Atoms} :
    (measured a).le v = true ↔ v = unknown ∨ ∃ b, v = measured b ∧ a.layout = b.layout := by
  rw [le_iff]
  simp

theorem result_le_iff {q : Qubit} : (result q).le v = true ↔ v = unknown ∨ v = result q := by
  rw [le_iff, eq_comm (b := v)]
  simp

theorem list_le_iff {as : List Value} : (list as).le v = true ↔
    v = unknown ∨ ∃ bs, v = list bs ∧ List.Forall₂ (fun a b => a.le b = true) as bs := by
  rw [le_iff]
  simp

end Above

theorem same_symm {a b : Value} (h : a.same b = true) : b.same a = true := by
  induction a generalizing b with
  | list as ih =>
    obtain ⟨bs, rfl, hall⟩ : ∃ bs, b = list bs ∧ List.Forall₂ (fun a b => a.same b = true) as bs := by
      rw [same_iff] at h
      simpa using h
    apply sameAll_iff.mpr
    apply List.Forall₂.flip
    exact ((List.forall₂_and_left as bs).mpr ⟨ih, hall⟩).imp fun a b hab => hab.1 hab.2
  | scalar s =>
    obtain ⟨t, rfl, ht⟩ : ∃ t, b = scalar t ∧ s.same t = true := by
      rw [same_iff] at h
      simpa using h
    exact Scalar.same_symm ht
  | _ =>
    rw [same_iff] at h ⊢
    grind

theorem le_of_same {a b : Value} (h : a.same b = true) : a.le b = true := by
  induction a generalizing b with
  | list as ih =>
    obtain ⟨bs, rfl, hall⟩ : ∃ bs, b = list bs ∧ List.Forall₂ (fun a b => a.same b = true) as bs := by
      rw [same_iff] at h
      simpa using h
    apply list_le_list_iff.mpr
    exact ((List.forall₂_and_left as bs).mpr ⟨ih, hall⟩).imp fun a b hab => hab.1 hab.2
  | _ =>
    rw [same_iff] at h
    rw [le_iff]
    grind

theorem le_trans {a b c : Value} (hab : a.le b = true) (hbc : b.le c = true) : a.le c = true := by
  induction a generalizing b c with
  | unknown =>
    rw [unknown_le_iff.mp hab] at hbc
    exact hbc
  | bottom => exact bottom_le c
  | scalar s =>
    rcases scalar_le_iff.mp hab with rfl | ⟨t, rfl, hst⟩
    · rw [unknown_le_iff.mp hbc, le_unknown]
    · rcases scalar_le_iff.mp hbc with rfl | ⟨u, rfl, htu⟩
      · exact le_unknown _
      · exact scalar_le_iff.mpr (Or.inr ⟨u, rfl, Scalar.same_trans hst htu⟩)
  | atoms x =>
    rcases atoms_le_iff.mp hab with rfl | ⟨y, rfl, hxy⟩
    · rw [unknown_le_iff.mp hbc, le_unknown]
    · rw [atoms_le_iff, hxy]
      exact atoms_le_iff.mp hbc
  | measured x =>
    rcases measured_le_iff.mp hab with rfl | ⟨y, rfl, hxy⟩
    · rw [unknown_le_iff.mp hbc, le_unknown]
    · rw [measured_le_iff, hxy]
      exact measured_le_iff.mp hbc
  | result q =>
    rcases result_le_iff.mp hab with rfl | rfl
    · rw [unknown_le_iff.mp hbc, le_unknown]
    · exact hbc
  | list as ih =>
    rcases list_le_iff.mp hab with rfl | ⟨bs, rfl, hbs⟩
    · rw [unknown_le_iff.mp hbc, le_unknown]
    · rcases list_le_iff.mp hbc with rfl | ⟨cs, rfl, hcs⟩
      · exact le_unknown _
      · exact list_le_iff.mpr (Or.inr ⟨cs, rfl, forall₂_comp ih hbs hcs⟩)

theorem containsUnknown_of_le {a b : Value} (hab : a.le b = true) (hb : b.containsUnknown = false) :
    a.containsUnknown = false := by
  induction a generalizing b with
  | unknown =>
    rw [unknown_le_iff.mp hab] at hb
    exact hb
  | list as ih =>
    rcases list_le_iff.mp hab with rfl | ⟨bs, rfl, hbs⟩
    · cases hb
    · apply anyUnknown_eq_false.mpr
      intro a ha
      obtain ⟨b, hmem, hle⟩ := exists_of_forall₂ hbs ha
      exact ih a ha hle (anyUnknown_eq_false.mp hb b hmem)
  | _ => rfl

section Join

@[simp] theorem bottom_join (v : Value) : bottom.join v = v := by
  cases v <;> rfl

@[simp] theorem join_bottom (v : Value) : v.join bottom = v := by
  cases v <;> rfl

theorem list_join (as bs : List Value) : (list as).join (list bs) =
    if as.length = bs.length then list (List.zipWith join as bs) else unknown := by
  rw [← joinAll_eq_zipWith]
  rfl

/-- Two values that are not `bottom` join to the first one if the second is below it; otherwise they are
two lists of one length, or nothing but `unknown` is above both. -/
theorem join_view (a b : Value) : a = bottom ∨ b = bottom ∨ a.join b = unknown ∨
    (a.join b = a ∧ b.le a = true) ∨
    ∃ as bs, a = list as ∧ b = list bs ∧ as.length = bs.length := by
  cases a with
  | scalar s =>
    cases b with
    | scalar t =>
      by_cases h : s.same t = true
      · simp [join, le, h, Scalar.same_symm h]
      · simp [join, h]
    | _ => simp [join]
  | atoms x =>
    cases b with
    | atoms y => by_cases h : x.layout = y.layout <;> simp [join, le, Atoms.sameLayout_eq, h]
    | _ => simp [join]
  | measured x =>
    cases b with
    | measured y => by_cases h : x.layout = y.layout <;> simp [join, le, Atoms.sameLayout_eq, h]
    | _ => simp [join]
  | result q =>
    cases b with
    | result r => by_cases h : q = r <;> simp [join, le, h]
    | _ => simp [join]
  | list as =>
    cases b with
    | list bs => by_cases h : as.length = bs.length <;> simp [join, h]
    | _ => simp [join]
  | _ => cases b <;> simp [join]

/-- Induction over the ways in which a join comes about. -/
theorem join_induction {motive : Value → Value → Value → Prop} (left : ∀ b, motive bottom b b)
    (right : ∀ a, motive a bottom a) (top : ∀ a b, motive a b unknown)
    (absorb : ∀ a b, b.le a = true → motive a b a)
    (list : ∀ as bs, as.length = bs.length →
      (∀ (i : Nat) (hi : i < as.length) (hi' : i < bs.length), motive as[i] bs[i] (as[i].join bs[i])) →
      motive (list as) (list bs) (list (List.zipWith join as bs)))
    (a b : Value) : motive a b (a.join b) := by
  have flat : ∀ a b, (∀ as, a ≠ .list as) → motive a b (a.join b) := by
    intro a b hlist
    rcases join_view a b with rfl | rfl | h | ⟨h, hle⟩ | ⟨as, _, rfl, _⟩
    · simpa using left b
    · simpa using right a
    · simpa [h] using top a b
    · simpa [h] using absorb a b hle
    · exact absurd rfl (hlist as)
  induction a generalizing b with
  | list as ih =>
    rcases join_view (.list as) b with h | rfl | h | ⟨h, hle⟩ | ⟨_, bs, hlist, rfl, hlength⟩
    · cases h
    · exact right _
    · simpa [h] using top _ b
    · simpa [h] using absorb _ b hle
    · cases hlist
      rw [list_join, if_pos hlength]
      exact list as bs hlength fun i hi _ => ih _ (List.getElem_mem hi) _
  | _ => exact flat _ b (by simp)

theorem le_join_left {a : Value} (b : Value) (ha : a.same a = true) : a.le (a.join b) = true := by
  induction a, b using join_induction with
  | left b => exact bottom_le b
  | right a => exact le_of_same ha
  | top a b => exact le_unknown a
  | absorb a b h => exact le_of_same ha
  | list as bs hlength ih =>
    rw [list_same_self_iff] at ha
    rw [list_le_list_iff, List.forall₂_iff_get]
    refine ⟨by simp [hlength], ?_⟩
    intro i hi _
    simpa using ih i hi (hlength ▸ hi) (ha _ (List.getElem_mem hi))

theorem le_join_right (a : Value) {b : Value} (hb : b.same b = true) : b.le (a.join b) = true := by
  induction a, b using join_induction with
  | left b => exact le_of_same hb
  | right a => exact bottom_le a
  | top a b => exact le_unknown b
  | absorb a b h => exact h
  | list as bs hlength ih =>
    rw [list_same_self_iff] at hb
    rw [list_le_list_iff, List.forall₂_iff_get]
    refine ⟨by simp [hlength], ?_⟩
    intro i hi _
    simpa using ih i (hlength ▸ hi) hi (hb _ (List.getElem_mem hi))

theorem join_same_self {a b : Value} (ha : a.same a = true) (hb : b.same b = true) :
    (a.join b).same (a.join b) = true := by
  induction a, b using join_induction with
  | left b => exact hb
  | right a => exact ha
  | top a b => rfl
  | absorb a b h => exact ha
  | list as bs hlength ih =>
    rw [list_same_self_iff] at ha hb ⊢
    intro x hx
    obtain ⟨i, hi, rfl⟩ := List.getElem_of_mem hx
    obtain ⟨hi, hi'⟩ := Nat.lt_min.mp (List.length_zipWith ▸ hi)
    simpa using ih i hi hi' (ha _ (List.getElem_mem hi)) (hb _ (List.getElem_mem hi'))

theorem join_le {a b c : Value} (ha : a.le c = true) (hb : b.le c = true) :
    (a.join b).le c = true := by
  induction a generalizing b c with
  | unknown => rw [unknown_le_iff.mp ha, le_unknown]
  | bottom => simpa using hb
  | scalar s =>
    rcases scalar_le_iff.mp ha with rfl | ⟨t, rfl, hst⟩
    · exact le_unknown _
    · cases b with
      | bottom => exact ha
      | scalar u =>
        have hsu : s.same u = true := Scalar.same_trans hst (Scalar.same_symm hb)
        rw [join, if_pos hsu]
        exact ha
      | _ => simp [le] at hb
  | atoms x =>
    rcases atoms_le_iff.mp ha with rfl | ⟨y, rfl, hxy⟩
    · exact le_unknown _
    · cases b <;> simp_all [le, join, Atoms.sameLayout_eq]
  | measured x =>
    rcases measured_le_iff.mp ha with rfl | ⟨y, rfl, hxy⟩
    · exact le_unknown _
    · cases b <;> simp_all [le, join, Atoms.sameLayout_eq]
  | result q =>
    rcases result_le_iff.mp ha with rfl | rfl
    · exact le_unknown _
    · cases b <;> simp_all [le, join]
  | list as ih =>
    rcases list_le_iff.mp ha with rfl | ⟨cs, rfl, has⟩
    · exact le_unknown _
    · cases b with
      | bottom => exact ha
      | list bs =>
        rw [list_le_list_iff] at hb
        rw [list_join, if_pos (has.length_eq.trans hb.length_eq.symm), list_le_list_iff]
        rw [List.forall₂_iff_get] at has hb ⊢
        refine ⟨by simp [has.1, hb.1], ?_⟩
        intro i hi hc
        obtain ⟨hi, hi'⟩ := Nat.lt_min.mp (List.length_zipWith ▸ hi)
        simpa using ih _ (List.getElem_mem hi) (has.2 i hi hc) (hb.2 i hi' hc)
      | _ => simp [le] at hb

end Join

end Value

end AtomTransport
