import AtomTransport.Device.Blueprint
import AtomTransport.Proofs.Ascending
import AtomTransport.Proofs.Failure
import Mathlib.Data.List.Sort

/-!
# Symmetric compatibility tables

The loop over a compatibility table lists two different words with each other as soon as either lists the
other, and makes their entries on the way. What it builds lists exactly what was listed on either side, and it
is in normal form, whatever shape the table had. A table in normal form is built again as it is.
-/

namespace AtomTransport

theorem firstOutside?_eq_none_iff {limit : Nat} {ids : List Nat} :
    firstOutside? limit ids = none ↔ ∀ id ∈ ids, id < limit := by
  simp [firstOutside?]

theorem checkReferences_eq_ok_iff (table : ReferenceTable) {limit : Nat} {ids : List Nat} :
    checkReferences table limit ids = .ok () ↔ ∀ id ∈ ids, id < limit := by
  rw [← firstOutside?_eq_none_iff, checkReferences]
  cases firstOutside? limit ids <;> simp

namespace Compatibility

open Ascending (Sorted get? get?_put mem_of_mem_put mem_insert sorted_insert)

variable {t t' : Compatibility} {a b v w limit : Nat} {row : List Nat} {table : ReferenceTable}

def Listed (t : Compatibility) (a b : Nat) : Prop := ∃ e ∈ t, e.1 = a ∧ b ∈ e.2

instance : Decidable (t.Listed a b) := inferInstanceAs (Decidable (∃ e ∈ t, e.1 = a ∧ b ∈ e.2))

def Below (limit : Nat) (t : Compatibility) : Prop := ∀ e ∈ t, e.1 < limit ∧ ∀ w ∈ e.2, w < limit

/-- The table that the loop builds when it finds no fault. -/
def symmetric (t : Compatibility) : Compatibility :=
  t.foldl (fun result entry => entry.2.foldl (mirror entry.1) result) []

theorem lists_iff : t.lists a b = true ↔ b ∈ t.row a := List.contains_iff_mem

theorem mem_row_enlist : w ∈ (t.enlist a b).row v ↔ w ∈ t.row v ∨ v = a ∧ w = b := by
  rw [row, enlist, get?_put]
  by_cases h : v = a
  · simp [h, or_comm]
  · simp [h, row]

theorem mem_row_mirror :
    w ∈ (mirror a t b).row v ↔ w ∈ t.row v ∨ v ≠ w ∧ (v = a ∧ w = b ∨ v = b ∧ w = a) := by
  unfold mirror
  split_ifs with hab
  · have hno : ¬ (v ≠ w ∧ (v = a ∧ w = b ∨ v = b ∧ w = a)) := by
      rintro ⟨hne, ⟨rfl, rfl⟩ | ⟨rfl, rfl⟩⟩
      · exact hne hab.symm
      · exact hne hab
    rw [or_iff_left hno]
  · have hne : v = a ∧ w = b ∨ v = b ∧ w = a → v ≠ w := by
      rintro (⟨rfl, rfl⟩ | ⟨rfl, rfl⟩)
      · exact Ne.symm hab
      · exact hab
    rw [mem_row_enlist, mem_row_enlist, or_assoc, and_iff_right_of_imp hne]

/-- The row of an entry is mirrored listing by listing. -/
theorem mem_row_foldl_mirror : w ∈ (row.foldl (mirror a) t).row v ↔
    w ∈ t.row v ∨ v ≠ w ∧ (v = a ∧ w ∈ row ∨ v ∈ row ∧ w = a) := by
  induction row generalizing t with
  | nil => simp
  | cons b row ih =>
    rw [List.foldl_cons, ih, mem_row_mirror, List.mem_cons, List.mem_cons]
    tauto

theorem mem_row_symmetric : w ∈ t.symmetric.row v ↔ v ≠ w ∧ (t.Listed v w ∨ t.Listed w v) := by
  have key : ∀ result : Compatibility,
      w ∈ row (t.foldl (fun result entry => entry.2.foldl (mirror entry.1) result) result) v ↔
        w ∈ row result v ∨ v ≠ w ∧ (t.Listed v w ∨ t.Listed w v) := by
    induction t with
    | nil => simp [Listed]
    | cons e t ih =>
      obtain ⟨a, row⟩ := e
      have hcons : ∀ {x y}, Listed ((a, row) :: t) x y ↔ x = a ∧ y ∈ row ∨ Listed t x y := by
        intro x y
        simp only [Listed, List.mem_cons, exists_eq_or_imp, eq_comm]
      intro result
      rw [List.foldl_cons, ih, mem_row_foldl_mirror, hcons, hcons]
      tauto
  have hempty : w ∉ row [] v := List.not_mem_nil
  rw [symmetric, key, or_iff_right hempty]

theorem lists_symmetric_iff :
    t.symmetric.lists v w = true ↔ v ≠ w ∧ (t.Listed v w ∨ t.Listed w v) :=
  lists_iff.trans mem_row_symmetric

theorem lists_symmetric_comm (t : Compatibility) (v w : Nat) :
    t.symmetric.lists v w = t.symmetric.lists w v := by
  rw [Bool.eq_iff_iff, lists_symmetric_iff, lists_symmetric_iff, ne_comm, or_comm]

theorem listed_iff (h : (t.map Prod.fst).Nodup) : t.Listed a b ↔ b ∈ t.row a := by
  constructor
  · rintro ⟨e, he, rfl, hb⟩
    rwa [row, (Ascending.get?_eq_some_iff h).mpr he]
  · intro hb
    cases hget : get? a t with
    | none => simp [row, hget] at hb
    | some r =>
      rw [row, hget] at hb
      exact ⟨_, Ascending.mem_of_get? hget, rfl, hb⟩

structure Tidy (t : Compatibility) : Prop where
  words : (t.map Prod.fst).Pairwise (· < ·)
  rows : ∀ e ∈ t, e.2.Pairwise (· < ·)
  nonempty : ∀ e ∈ t, e.2 ≠ []

namespace Tidy

theorem nodup (h : t.Tidy) : (t.map Prod.fst).Nodup := Sorted.nodup h.words

theorem row_eq (h : t.Tidy) {e : Nat × List Nat} (he : e ∈ t) : t.row e.1 = e.2 := by
  rw [row, (Ascending.get?_eq_some_iff h.nodup).mpr he, Option.getD_some]

theorem row_sorted (h : t.Tidy) (a : Nat) : (t.row a).Pairwise (· < ·) := by
  cases hget : get? a t with
  | none => simp [row, hget]
  | some r =>
    rw [row, hget]
    exact h.rows _ (Ascending.mem_of_get? hget)

theorem enlist (h : t.Tidy) (a b : Nat) : (t.enlist a b).Tidy where
  words := Sorted.put h.words a _
  rows := by
    intro e he
    rcases mem_of_mem_put he with rfl | he
    · exact sorted_insert b (h.row_sorted a)
    · exact h.rows e he
  nonempty := by
    intro e he
    rcases mem_of_mem_put he with rfl | he
    · exact List.ne_nil_of_mem (mem_insert.mpr (Or.inl rfl))
    · exact h.nonempty e he

theorem mirror (h : t.Tidy) (a b : Nat) : (mirror a t b).Tidy := by
  unfold Compatibility.mirror
  split_ifs
  · exact h
  · exact (h.enlist a b).enlist b a

theorem symmetric (t : Compatibility) : t.symmetric.Tidy :=
  List.foldlRecOn t _ (motive := Tidy) ⟨.nil, by simp, by simp⟩ fun _ h entry _ =>
    List.foldlRecOn entry.2 _ (motive := Tidy) h fun _ h b _ => h.mirror entry.1 b

theorem ext (h : t.Tidy) (h' : t'.Tidy) (hrows : ∀ a b, b ∈ t.row a ↔ b ∈ t'.row a) : t = t' := by
  have hget : ∀ {t : Compatibility}, t.Tidy → ∀ a, get? a t = if t.row a = [] then none else some (t.row a) := by
    intro t ht a
    cases hget : get? a t with
    | none => simp [row, hget]
    | some r =>
      have hrow : t.row a = r := by rw [row, hget, Option.getD_some]
      rw [hrow, if_neg (ht.nonempty _ (Ascending.mem_of_get? hget))]
  refine Sorted.ext h.words h'.words fun a => ?_
  have hrow : t.row a = t'.row a :=
    (h.row_sorted a).eq_of_mem_iff (h'.row_sorted a) (hrows a)
  rw [hget h, hget h', hrow]

end Tidy

theorem symmetrize_eq_ok_iff : t.symmetrize table limit = .ok t' ↔ t.Below limit ∧ t.symmetric = t' := by
  have key : ∀ result : Compatibility, t.foldlM (fun result entry => do
      checkReferences table limit (entry.1 :: entry.2)
      .ok (entry.2.foldl (mirror entry.1) result)) result = .ok t' ↔
        t.Below limit ∧ t.foldl (fun result entry => entry.2.foldl (mirror entry.1) result) result = t' := by
    induction t with
    | nil => simp [Below, pure, Except.pure]
    | cons e t ih =>
      intro result
      have hbelow : Below limit (e :: t) ↔ (∀ id ∈ e.1 :: e.2, id < limit) ∧ Below limit t := by
        simp [Below]
      rw [List.foldlM_cons, List.foldl_cons, hbelow, ← checkReferences_eq_ok_iff table, and_assoc,
        ← ih]
      cases checkReferences table limit (e.1 :: e.2) <;> simp
  exact key []

theorem Below.symmetric (h : t.Below limit) : t.symmetric.Below limit := by
  have hlisted : ∀ {v w}, t.Listed v w → v < limit ∧ w < limit := by
    rintro _ w ⟨e, he, rfl, hw⟩
    exact ⟨(h e he).1, (h e he).2 w hw⟩
  have hboth : ∀ e ∈ t.symmetric, ∀ w ∈ e.2, e.1 < limit ∧ w < limit := by
    intro e he w hw
    rw [← (Tidy.symmetric t).row_eq he, mem_row_symmetric] at hw
    rcases hw.2 with hw | hw
    · exact hlisted hw
    · exact (hlisted hw).symm
  intro e he
  obtain ⟨w, hw⟩ := List.exists_mem_of_ne_nil _ ((Tidy.symmetric t).nonempty e he)
  exact ⟨(hboth e he w hw).1, fun w hw => (hboth e he w hw).2⟩

/-- A table in normal form: words and rows stand in ascending order, no row is empty, no word is in its own
row, and every listing stands on both sides. -/
structure Normal (t : Compatibility) : Prop extends t.Tidy where
  apart : ∀ e ∈ t, e.1 ∉ e.2
  comm : ∀ a b, t.lists a b = t.lists b a

theorem normal_symmetric (t : Compatibility) : t.symmetric.Normal where
  toTidy := .symmetric t
  apart := by
    intro e he hself
    rw [← (Tidy.symmetric t).row_eq he, mem_row_symmetric] at hself
    exact hself.1 rfl
  comm := lists_symmetric_comm t

/-- The loop does not change a table in normal form. -/
theorem Normal.symmetric_eq (h : t.Normal) : t.symmetric = t := by
  refine (Tidy.symmetric t).ext h.toTidy fun a b => ?_
  have hcomm : b ∈ t.row a ↔ a ∈ t.row b := by rw [← lists_iff, h.comm, lists_iff]
  have hne : b ∈ t.row a → a ≠ b := by
    rintro hb rfl
    obtain ⟨e, he, rfl, ha⟩ := (listed_iff h.nodup).mpr hb
    exact h.apart e he ha
  rw [mem_row_symmetric, listed_iff h.nodup, listed_iff h.nodup, ← hcomm, or_self, and_iff_right_iff_imp]
  exact hne

end Compatibility

namespace Blueprint

def normalize (b : Blueprint) : Blueprint :=
  { b with
    siteBusCompatibility := b.siteBusCompatibility.symmetric
    wordBusCompatibility := b.wordBusCompatibility.symmetric }

theorem normalize_normalize (b : Blueprint) : b.normalize.normalize = b.normalize := by
  simp only [normalize, (Compatibility.normal_symmetric _).symmetric_eq]

end Blueprint

end AtomTransport
