import AtomTransport.Program
import AtomTransport.Proofs.OrderedMaps
import Mathlib.Data.List.Nodup
import Mathlib.Data.List.Perm.Basic
import Mathlib.Order.RelClasses

/-!
# Laws of ascending lists

Lookups see exactly the last binding of a key, and binding a new key only adds it. Over a strict total
order the members of an ascending set stand in order, each once. Locations, zones, signatures and
program points are ordered in this sense.
-/

namespace AtomTransport

theorem lex_eq {a b c d : Nat} (h : ¬ (a < c ∨ a = c ∧ b < d)) (h' : ¬ (c < a ∨ c = a ∧ d < b)) :
    a = c ∧ b = d := by
  omega

theorem lex_irrefl (a b : Nat) : ¬ (a < a ∨ a = a ∧ b < b) := by
  omega

theorem lex_trans {a b c d e f : Nat} (h : a < c ∨ a = c ∧ b < d) (h' : c < e ∨ c = e ∧ d < f) :
    a < e ∨ a = e ∧ b < f := by
  omega

instance : IsStrictTotalOrder Location (· < ·) where
  trichotomous := Std.Trichotomous.trichotomous
  irrefl := Std.Irrefl.irrefl
  trans _ _ _ := Trans.trans

instance : IsStrictTotalOrder Point (· < ·) where
  trichotomous a b hab hba := by
    obtain ⟨hb, hi⟩ := lex_eq hab hba
    exact Point.mk.injEq .. ▸ ⟨hb, hi⟩
  irrefl a := lex_irrefl a.block a.index
  trans a b c hab hbc := lex_trans (c := b.block) (d := b.index) hab hbc

instance : IsStrictTotalOrder Zone (· < ·) where
  trichotomous a b hab hba := by
    have h : a.id = b.id := Nat.le_antisymm (Nat.le_of_not_lt hba) (Nat.le_of_not_lt hab)
    exact Zone.mk.injEq .. ▸ h
  irrefl a := Nat.lt_irrefl a.id
  trans a b c hab hbc := Nat.lt_trans hab hbc

namespace Signature

theorem lt_iff (a b : Signature) : a < b ↔ a.kind.bit < b.kind.bit ∨
    a.kind = b.kind ∧ (a.bus < b.bus ∨ a.bus = b.bus ∧ a.direction.bit < b.direction.bit) := Iff.rfl

theorem kind_eq_iff (a b : LaneKind) : a = b ↔ a.bit = b.bit := by
  cases a <;> cases b <;> decide

theorem direction_eq_iff (a b : Direction) : a = b ↔ a.bit = b.bit := by
  cases a <;> cases b <;> decide

end Signature

instance : IsStrictTotalOrder Signature (· < ·) where
  trichotomous a b hab hba := by
    rw [Signature.lt_iff, Signature.kind_eq_iff] at hab hba
    have hk : a.kind.bit = b.kind.bit := by omega
    have hb : a.bus = b.bus := by omega
    have hd : a.direction.bit = b.direction.bit := by omega
    cases a
    cases b
    rw [← Signature.kind_eq_iff] at hk
    rw [← Signature.direction_eq_iff] at hd
    simp only [Signature.mk.injEq]
    exact ⟨hk, hb, hd⟩
  irrefl a := by
    rw [Signature.lt_iff]
    omega
  trans a b c hab hbc := by
    rw [Signature.lt_iff, Signature.kind_eq_iff] at hab hbc ⊢
    omega

namespace Ascending

variable {α β : Type} [LT α] [DecidableLT α] [DecidableEq α]

@[simp] theorem mem_ofList {a : α} {xs : List α} : a ∈ ofList xs ↔ a ∈ xs := by
  induction xs with
  | nil => simp [ofList]
  | cons x xs ih =>
    change a ∈ insert x (ofList xs) ↔ _
    simp only [mem_insert, ih, List.mem_cons]

theorem sorted_ofList [IsStrictTotalOrder α (· < ·)] (xs : List α) :
    (ofList xs).Pairwise (· < ·) := by
  induction xs with
  | nil => exact List.Pairwise.nil
  | cons x xs ih => exact sorted_insert x ih

theorem nodup_ofList [IsStrictTotalOrder α (· < ·)] (xs : List α) : (ofList xs).Nodup := by
  refine (sorted_ofList xs).imp ?_
  intro a b hab heq
  subst heq
  exact irrefl_of (· < ·) a hab

omit [LT α] [DecidableLT α] in
theorem get?_eq_some_iff {k : α} {v : β} {m : List (α × β)} (hm : (m.map Prod.fst).Nodup) :
    get? k m = some v ↔ (k, v) ∈ m := by
  refine ⟨mem_of_get?, ?_⟩
  induction m with
  | nil => simp
  | cons e m ih =>
    obtain ⟨he, hm⟩ := List.nodup_cons.mp hm
    intro hmem
    rcases List.mem_cons.mp hmem with rfl | hmem
    · simp [get?]
    · have hne : k ≠ e.1 := by
        intro heq
        rw [← heq] at he
        exact he (List.mem_map_of_mem (f := Prod.fst) hmem)
      simp only [get?, if_neg hne]
      exact ih hm hmem

theorem mem_of_mem_put {k : α} {v : β} {m : List (α × β)} {e : α × β} (h : e ∈ put k v m) :
    e = (k, v) ∨ e ∈ m := by
  induction m with
  | nil => simpa [put] using h
  | cons e' m ih =>
    simp only [put] at h
    split_ifs at h
    · simpa using h
    · rcases List.mem_cons.mp h with rfl | h
      · exact Or.inl rfl
      · exact Or.inr (List.mem_cons_of_mem _ h)
    · rcases List.mem_cons.mp h with rfl | h
      · exact Or.inr List.mem_cons_self
      · exact (ih h).imp_right (List.mem_cons_of_mem _)

theorem put_perm {k : α} {m : List (α × β)} (h : get? k m = none) (v : β) :
    (put k v m).Perm ((k, v) :: m) := by
  induction m with
  | nil => exact List.Perm.refl _
  | cons e m ih =>
    simp only [get?] at h
    split_ifs at h with heq
    simp only [put, if_neg heq]
    split_ifs with hlt
    · exact List.Perm.refl _
    · exact ((ih h).cons e).trans (List.Perm.swap _ _ _)

theorem ofPairs_perm {bindings : List (α × β)} (h : (bindings.map Prod.fst).Nodup) :
    (ofPairs bindings).Perm bindings := by
  have key : ∀ m : List (α × β), (∀ b ∈ bindings, get? b.1 m = none) →
      (bindings.foldl (fun m b => put b.1 b.2 m) m).Perm (bindings ++ m) := by
    induction bindings with
    | nil => exact fun m _ => List.Perm.refl m
    | cons b bs ih =>
      intro m hm
      obtain ⟨hb, hbs⟩ := List.nodup_cons.mp h
      have hput : ∀ c ∈ bs, get? c.1 (put b.1 b.2 m) = none := by
        intro c hc
        have hne : c.1 ≠ b.1 := by
          intro heq
          exact hb (heq ▸ List.mem_map_of_mem (f := Prod.fst) hc)
        rw [get?_put_of_ne hne]
        exact hm c (List.mem_cons_of_mem _ hc)
      calc bs.foldl (fun m b => put b.1 b.2 m) (put b.1 b.2 m)
          |>.Perm (bs ++ put b.1 b.2 m) := ih hbs _ hput
        _ |>.Perm (bs ++ b :: m) := ((put_perm (hm b List.mem_cons_self) b.2).append_left bs)
        _ |>.Perm (b :: bs ++ m) := List.perm_middle
  simpa [ofPairs] using key [] fun _ _ => rfl

end Ascending

end AtomTransport
