import AtomTransport.Address
import AtomTransport.Ascending

/-!
# Maps with keys in order

Over a strict total order an ascending map keeps its keys in order when a key is bound or removed. A lookup
sees the last binding of its key, and two ascending maps with the same lookups are the same list.
-/

namespace AtomTransport

namespace Location

theorem lt_iff {a b : Location} : a < b ↔ a.word < b.word ∨ a.word = b.word ∧ a.site < b.site := Iff.rfl

instance : Std.Irrefl (α := Location) (· < ·) where
  irrefl a := by
    rw [lt_iff]
    omega

instance : Trans (α := Location) (β := Location) (γ := Location) (· < ·) (· < ·) (· < ·) where
  trans {a b c} hab hbc := by
    rw [lt_iff] at hab hbc ⊢
    omega

instance : Std.Trichotomous (α := Location) (· < ·) where
  trichotomous a b hab hba := by
    rw [lt_iff] at hab hba
    have hword : a.word = b.word := by omega
    have hsite : a.site = b.site := by omega
    exact Location.mk.injEq .. ▸ ⟨hword, hsite⟩

end Location

namespace Ascending

variable {α β : Type} [LT α] [DecidableLT α] [DecidableEq α] {k k' : α} {v : β} {m m' : List (α × β)}

def Sorted (m : List (α × β)) : Prop := (m.map (·.1)).Pairwise (· < ·)

@[simp] theorem mem_insert {a b : α} {xs : List α} : a ∈ insert b xs ↔ a = b ∨ a ∈ xs := by
  induction xs with
  | nil => simp [insert]
  | cons x xs ih =>
    unfold insert
    split
    · rw [List.mem_cons]
    · split
      next heq => rw [heq, List.mem_cons, ← or_assoc, or_self]
      · rw [List.mem_cons, List.mem_cons, ih, or_left_comm]

theorem get?_put (k k' : α) (v : β) (m : List (α × β)) :
    get? k (put k' v m) = if k = k' then some v else get? k m := by
  induction m with
  | nil => simp [put, get?]
  | cons e m ih =>
    by_cases hlt : k' < e.1
    · rw [put, if_pos hlt, get?]
    by_cases heq : k' = e.1
    · rw [put, if_neg hlt, if_pos heq, get?, get?]
      by_cases hk : k = k'
      · rw [if_pos hk, if_pos hk]
      · rw [if_neg hk, if_neg hk, if_neg (heq ▸ hk)]
    · rw [put, if_neg hlt, if_neg heq, get?, get?, ih]
      by_cases hk : k = k'
      · rw [if_neg (hk ▸ heq), if_pos hk, if_pos hk]
      · rw [if_neg hk, if_neg hk]

@[simp] theorem get?_put_self (k : α) (v : β) (m : List (α × β)) : get? k (put k v m) = some v := by
  rw [get?_put, if_pos rfl]

theorem get?_put_of_ne (h : k ≠ k') (v : β) (m : List (α × β)) :
    get? k (put k' v m) = get? k m := by
  rw [get?_put, if_neg h]

omit [LT α] [DecidableLT α] in
theorem get?_erase (k k' : α) (m : List (α × β)) :
    get? k (erase k' m) = if k = k' then none else get? k m := by
  induction m with
  | nil => simp [erase, get?]
  | cons e m ih =>
    unfold erase at ih ⊢
    by_cases he : e.1 = k'
    · rw [List.filter_cons_of_neg (by simpa using he), ih]
      by_cases hk : k = k'
      · rw [if_pos hk, if_pos hk]
      · rw [if_neg hk, if_neg hk, get?, if_neg (he ▸ hk)]
    · rw [List.filter_cons_of_pos (by simpa using he), get?, get?, ih]
      by_cases hk : k = e.1
      · rw [if_pos hk, if_pos hk, if_neg (hk ▸ he)]
      · rw [if_neg hk, if_neg hk]

omit [LT α] [DecidableLT α] in
theorem mem_of_get? (h : get? k m = some v) : (k, v) ∈ m := by
  induction m with
  | nil => cases h
  | cons e m ih =>
    by_cases hk : k = e.1
    · rw [get?, if_pos hk] at h
      cases h
      rw [hk]
      exact List.mem_cons_self
    · rw [get?, if_neg hk] at h
      exact List.mem_cons_of_mem _ (ih h)

omit [LT α] [DecidableLT α] in
theorem get?_eq_none_iff : get? k m = none ↔ k ∉ m.map (·.1) := by
  induction m with
  | nil => simp [get?]
  | cons e m ih =>
    by_cases hk : k = e.1
    · simp [get?, hk]
    · simp [get?, hk, ih]

/-- Binding a key changes the keys as adding a member changes a set. -/
theorem map_fst_put (k : α) (v : β) (m : List (α × β)) : (put k v m).map (·.1) = insert k (m.map (·.1)) := by
  induction m with
  | nil => rfl
  | cons e m ih =>
    rw [List.map_cons]
    unfold put insert
    split
    · rfl
    · split
      next heq => rw [List.map_cons, heq]
      · rw [List.map_cons, ih]

omit [DecidableLT α] in
theorem Sorted.erase (h : Sorted m) (k : α) : Sorted (Ascending.erase k m) :=
  h.sublist (List.filter_sublist.map _)

section Order

variable [Std.Irrefl (α := α) (· < ·)]

omit [DecidableLT α] [DecidableEq α] in
theorem Sorted.nodup (h : Sorted m) : (m.map (·.1)).Nodup := by
  refine h.imp ?_
  rintro a _ hab rfl
  exact Std.Irrefl.irrefl a hab

variable [Trans (α := α) (β := α) (γ := α) (· < ·) (· < ·) (· < ·)]

variable [Std.Trichotomous (α := α) (· < ·)]

omit [Std.Irrefl (α := α) (· < ·)] in
theorem sorted_insert (a : α) {xs : List α} (h : xs.Pairwise (· < ·)) : (insert a xs).Pairwise (· < ·) := by
  induction xs with
  | nil => exact List.pairwise_singleton ..
  | cons x xs ih =>
    obtain ⟨hx, hxs⟩ := List.pairwise_cons.mp h
    unfold insert
    split
    next hlt =>
      refine List.pairwise_cons.mpr ⟨?_, h⟩
      intro b hb
      rcases List.mem_cons.mp hb with rfl | hb
      · exact hlt
      · exact Trans.trans hlt (hx b hb)
    next hnlt =>
      split
      · exact h
      next hne =>
        refine List.pairwise_cons.mpr ⟨?_, ih hxs⟩
        intro b hb
        rcases mem_insert.mp hb with rfl | hb
        · exact Decidable.not_not.mp fun hxb => hne (Std.Trichotomous.trichotomous _ _ hnlt hxb)
        · exact hx b hb

omit [Std.Irrefl (α := α) (· < ·)] in
theorem Sorted.put (h : Sorted m) (k : α) (v : β) : Sorted (Ascending.put k v m) := by
  unfold Sorted
  rw [map_fst_put]
  exact sorted_insert k h

omit [Std.Trichotomous (α := α) (· < ·)] in
theorem put_eq_append (h : ∀ e ∈ m, e.1 < k) (v : β) : put k v m = m ++ [(k, v)] := by
  induction m with
  | nil => rfl
  | cons e m ih =>
    rw [List.forall_mem_cons] at h
    have hlt : ¬ k < e.1 := fun hlt => Std.Irrefl.irrefl k (Trans.trans hlt h.1)
    have hne : k ≠ e.1 := fun heq => Std.Irrefl.irrefl e.1 (heq ▸ h.1)
    rw [put, if_neg hlt, if_neg hne, ih h.2, List.cons_append]

omit [Std.Trichotomous (α := α) (· < ·)] in
theorem Sorted.put_eq_map (h : Sorted m) (hk : k ∈ m.map (·.1)) (v : β) :
    Ascending.put k v m = m.map fun e => if e.1 = k then (k, v) else e := by
  induction m with
  | nil => cases hk
  | cons e m ih =>
    obtain ⟨he, hm⟩ := List.pairwise_cons.mp h
    by_cases heq : k = e.1
    · have hsame : m.map (fun e' => if e'.1 = k then (k, v) else e') = m := by
        refine (List.map_congr_left fun e' he' => if_neg ?_).trans (List.map_id _)
        intro hk'
        have hlt : e.1 < e'.1 := he e'.1 (List.mem_map_of_mem he')
        rw [← heq, hk'] at hlt
        exact Std.Irrefl.irrefl k hlt
      rw [Ascending.put, if_neg (heq ▸ Std.Irrefl.irrefl _), if_pos heq, List.map_cons, if_pos heq.symm, hsame]
    · have hin : k ∈ m.map (·.1) := (List.mem_cons.mp hk).resolve_left heq
      have hlt : ¬ k < e.1 := fun hlt => Std.Irrefl.irrefl k (Trans.trans hlt (he k hin))
      rw [Ascending.put, if_neg hlt, if_neg heq, List.map_cons, if_neg (Ne.symm heq), ih hm hin]

omit [DecidableLT α] [Trans (α := α) (β := α) (γ := α) (· < ·) (· < ·) (· < ·)]
  [Std.Trichotomous (α := α) (· < ·)] in
theorem get?_eq_none_of_lt (h : ∀ b ∈ m.map (·.1), k < b) : get? k m = none :=
  get?_eq_none_iff.mpr fun hk => Std.Irrefl.irrefl k (h k hk)

omit [DecidableLT α] [Std.Trichotomous (α := α) (· < ·)] in
theorem Sorted.not_lt_of_get? {e e' : α × β} (h : Sorted (e' :: m'))
    (heq : get? e.1 (e :: m) = get? e.1 (e' :: m')) : ¬ e.1 < e'.1 := by
  intro hlt
  have hbelow : ∀ b ∈ (e' :: m').map (·.1), e.1 < b :=
    List.forall_mem_cons.mpr ⟨hlt, fun b hb => Trans.trans hlt (List.rel_of_pairwise_cons h hb)⟩
  rw [get?_eq_none_of_lt hbelow, get?, if_pos rfl] at heq
  cases heq

omit [DecidableLT α] in
theorem Sorted.ext (h : Sorted m) (h' : Sorted m') (heq : ∀ k, get? k m = get? k m') : m = m' := by
  induction m generalizing m' with
  | nil =>
    cases m' with
    | nil => rfl
    | cons e m' => simpa [get?] using heq e.1
  | cons e m ih =>
    cases m' with
    | nil => simpa [get?] using heq e.1
    | cons e' m' =>
      have hkey : e.1 = e'.1 := Std.Trichotomous.trichotomous _ _
        (h'.not_lt_of_get? (heq e.1)) (h.not_lt_of_get? (heq e'.1).symm)
      have hvalue : e.2 = e'.2 := by simpa [get?, hkey] using heq e.1
      obtain ⟨he, hm⟩ := List.pairwise_cons.mp h
      obtain ⟨he', hm'⟩ := List.pairwise_cons.mp h'
      have hrest : ∀ k, get? k m = get? k m' := by
        intro k
        by_cases hk : k = e.1
        · rw [hk, get?_eq_none_of_lt he, get?_eq_none_of_lt (hkey ▸ he')]
        · simpa [get?, hk, ← hkey] using heq k
      rw [Prod.ext hkey hvalue, ih hm hm' hrest]

end Order

end Ascending

end AtomTransport
