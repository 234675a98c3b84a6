import Mathlib.Data.List.Flatten
import Mathlib.Logic.Relation
import AtomTransport.Proofs.Ascending
import AtomTransport.Proofs.Renaming

/-!
# Removal of empty moves

An empty move passes a value on. If no chain of empty moves is a cycle, then following a chain reaches a
value that no empty move defines, within as many steps as there are empty moves; replacing the results of the
empty moves one after another is then one renaming, because no replacement brings a removed value back. So
the removal keeps everything but the empty moves, and every operand becomes the end of its chain.
-/

namespace AtomTransport

namespace Statement

def passed? (s : Statement) : Option (Var × Var) :=
  match s.op with
  | .move state [] => some (s.result, state)
  | _ => none

theorem passed?_eq_some {s : Statement} {v u : Var} : s.passed? = some (v, u) ↔ s = ⟨v, .move u []⟩ := by
  rcases s with ⟨result, op⟩
  unfold passed?
  split
  next state heq =>
    cases heq
    simp
  next hne =>
    simp only [reduceCtorEq, mk.injEq, false_iff, not_and]
    rintro - rfl
    exact hne u rfl

theorem map_fst_passed? (s : Statement) :
    s.passed?.map Prod.fst = if s.op.isEmptyMove then some s.result else none := by
  rcases s with ⟨result, op⟩
  cases op with
  | move state lanes => cases lanes <;> rfl
  | _ => rfl

theorem map_fst_filterMap_passed? (statements : List Statement) :
    (statements.filterMap passed?).map Prod.fst =
      (statements.filter fun s => s.op.isEmptyMove).map (·.result) := by
  simp only [List.map_filterMap, map_fst_passed?]
  induction statements with
  | nil => rfl
  | cons s rest ih => by_cases h : s.op.isEmptyMove <;> simp [h, ih]

def cleaned (f : Var → Var) (statements : List Statement) : List Statement :=
  (statements.filter fun s => !s.op.isEmptyMove).map fun s => { s with op := s.op.rename f }

end Statement

def Block.cleaned (f : Var → Var) (b : Block) : Block :=
  { b with
    statements := Statement.cleaned f b.statements
    terminator := b.terminator.rename f }

namespace Program

variable {p : Program} {forward : List (Var × Var)} {v u : Var}

def body (p : Program) : List Statement := p.blocks.flatMap (·.statements)

theorem map_snd_statements (p : Program) : p.statements.map Prod.snd = p.body := by
  have hzip : ∀ (blocks : List Block) (n : Nat), (blocks.zipIdx n).flatMap (fun e => e.1.statements) =
      blocks.flatMap (·.statements) := by
    intro blocks
    induction blocks with
    | nil => exact fun _ => rfl
    | cons b rest ih => exact fun n => congrArg (b.statements ++ ·) (ih (n + 1))
  rw [statements, body, ← hzip p.blocks 0, List.map_flatMap]
  refine congrArg (fun f => List.flatMap f _) (funext fun e => ?_)
  rw [List.map_map]
  exact List.zipIdx_map_fst 0 _

theorem numStatements_eq (p : Program) : p.numStatements = p.body.length := by
  rw [numStatements, body, List.length_flatMap, List.sum_eq_foldl]

theorem nodup_body (h : p.definitions.Nodup) : (p.body.map (·.result)).Nodup := by
  have hsublist : ∀ blocks : List Block, ((blocks.flatMap (·.statements)).map (·.result)).Sublist
      (blocks.flatMap fun b => b.params ++ b.statements.map (·.result)) := by
    intro blocks
    induction blocks with
    | nil => exact List.Sublist.refl _
    | cons b rest ih =>
      rw [List.flatMap_cons, List.flatMap_cons, List.map_append]
      exact (List.sublist_append_right _ _).append ih
  exact h.sublist (hsublist p.blocks)

def Passes (p : Program) (v u : Var) : Prop := ⟨v, .move u []⟩ ∈ p.body

/-- A chain of empty moves leads from the first value to the second one, which no empty move defines. -/
def ForwardsTo (p : Program) (v u : Var) : Prop :=
  Relation.ReflTransGen p.Passes v u ∧ ∀ w, ¬ p.Passes u w

/-- The end of the chain of empty moves that starts at a value. -/
def resolve (p : Program) : Var → Var := follow p.emptyMoves (p.emptyMoves.length + 1)

theorem emptyMoves_eq (p : Program) :
    p.emptyMoves = Ascending.ofPairs (p.body.filterMap Statement.passed?) := by
  rw [← map_snd_statements, List.filterMap_map]
  rfl

theorem nodup_passed (h : p.definitions.Nodup) :
    ((p.body.filterMap Statement.passed?).map Prod.fst).Nodup := by
  rw [Statement.map_fst_filterMap_passed?]
  exact (nodup_body h).sublist (List.filter_sublist.map _)

theorem emptyMoves_perm (h : p.definitions.Nodup) :
    p.emptyMoves.Perm (p.body.filterMap Statement.passed?) := by
  rw [emptyMoves_eq]
  exact Ascending.ofPairs_perm (nodup_passed h)

theorem get?_emptyMoves (h : p.definitions.Nodup) :
    Ascending.get? v p.emptyMoves = some u ↔ p.Passes v u := by
  have hperm := emptyMoves_perm h
  have hkeys : (p.emptyMoves.map Prod.fst).Nodup := (hperm.map Prod.fst).nodup_iff.mpr (nodup_passed h)
  rw [Ascending.get?_eq_some_iff hkeys, hperm.mem_iff, List.mem_filterMap, Passes]
  simp only [Statement.passed?_eq_some, exists_eq_right]

theorem get?_emptyMoves_eq_none (h : p.definitions.Nodup) :
    Ascending.get? v p.emptyMoves = none ↔ ∀ u, ¬ p.Passes v u := by
  rw [Option.eq_none_iff_forall_ne_some]
  exact forall_congr' fun u => not_congr (get?_emptyMoves h)

theorem length_emptyMoves (h : p.definitions.Nodup) :
    p.emptyMoves.length = p.body.countP fun s => s.op.isEmptyMove := by
  have hlength := congrArg List.length (Statement.map_fst_filterMap_passed? p.body)
  rw [List.length_map, List.length_map] at hlength
  rw [(emptyMoves_perm h).length_eq, hlength, List.countP_eq_length_filter]

section Chains

abbrev Link (forward : List (Var × Var)) (v u : Var) : Prop := Ascending.get? v forward = some u

theorem follow_reaches (fuel : Nat) (v : Var) :
    Relation.ReflTransGen (Link forward) v (follow forward fuel v) := by
  induction fuel generalizing v with
  | zero => exact .refl
  | succ fuel ih =>
    rw [follow]
    cases hv : Ascending.get? v forward with
    | none => exact .refl
    | some u => exact .head hv (ih u)

/-- Without cycles the visited keys are different, so there is fuel enough to reach the end of the chain. -/
theorem get?_follow_of_visited (hacyclic : ∀ v, ¬ Relation.TransGen (Link forward) v v) {fuel : Nat}
    {visited : List Var} (hnodup : visited.Nodup) (hkeys : visited ⊆ forward.map Prod.fst)
    (hpath : ∀ u ∈ visited, Relation.TransGen (Link forward) u v)
    (hfuel : forward.length < fuel + visited.length) :
    Ascending.get? (follow forward fuel v) forward = none := by
  induction fuel generalizing v visited with
  | zero =>
    have hle := (List.subperm_of_subset hnodup hkeys).length_le
    rw [List.length_map] at hle
    omega
  | succ fuel ih =>
    rw [follow]
    cases hv : Ascending.get? v forward with
    | none => exact hv
    | some u =>
      have hnodup' : (v :: visited).Nodup :=
        List.nodup_cons.mpr ⟨fun hmem => hacyclic v (hpath v hmem), hnodup⟩
      have hkeys' : v :: visited ⊆ forward.map Prod.fst :=
        List.cons_subset.mpr ⟨List.mem_map_of_mem (Ascending.mem_of_get? hv), hkeys⟩
      have hpath' : ∀ w ∈ v :: visited, Relation.TransGen (Link forward) w u :=
        List.forall_mem_cons.mpr ⟨.single hv, fun w hw => (hpath w hw).tail hv⟩
      exact ih hnodup' hkeys' hpath' (by rw [List.length_cons]; omega)

theorem get?_follow (hacyclic : ∀ v, ¬ Relation.TransGen (Link forward) v v) (v : Var) :
    Ascending.get? (follow forward (forward.length + 1) v) forward = none :=
  get?_follow_of_visited hacyclic List.nodup_nil (List.nil_subset _) (by simp) (by simp)

/-- If no key is replaced by a key, then replacing the keys one after another is one renaming. -/
theorem foldl_replaceUses {r : Var → Var} (hr : ∀ e ∈ forward, r e.1 ∉ forward.map Prod.fst) (p : Program) :
    forward.foldl (fun q e => q.replaceUses e.1 (r e.1)) p =
      p.rename fun v => if v ∈ forward.map Prod.fst then r v else v := by
  induction forward generalizing p with
  | nil => simp [rename_id]
  | cons e rest ih =>
    obtain ⟨he, hrest⟩ := List.forall_mem_cons.mp hr
    simp only [List.map_cons, List.mem_cons, not_or] at he hrest ⊢
    rw [List.foldl_cons, ih (fun e' he' => (hrest e' he').2), replaceUses, rename_rename]
    refine congrArg p.rename (funext fun v => ?_)
    -- The new operand of a replaced key is no key, so the other replacements leave it alone.
    by_cases hv : v = e.1
    · simp [hv, he.2]
    · rw [Function.comp_apply, if_neg hv]
      exact if_congr (or_iff_right hv).symm rfl rfl

end Chains

/-- Empty moves that go down in some rank form no cycle. -/
theorem acyclic_of_rank (rank : Var → Nat) (h : ∀ v u, p.Passes v u → rank u < rank v) (v : Var) :
    ¬ Relation.TransGen p.Passes v v := by
  have hlt : ∀ {v u}, Relation.TransGen p.Passes v u → rank u < rank v := by
    intro v u hchain
    induction hchain with
    | single hu => exact h _ _ hu
    | tail _ hu ih => exact Nat.lt_trans (h _ _ hu) ih
  exact fun hcycle => Nat.lt_irrefl _ (hlt hcycle)

section Removal

variable (honce : p.definitions.Nodup)
include honce

theorem link_emptyMoves : Link p.emptyMoves = p.Passes := by
  funext v u
  exact propext (get?_emptyMoves honce)

theorem resolve_eq_self (hv : ∀ u, ¬ p.Passes v u) : p.resolve v = v := by
  rw [resolve, follow, (get?_emptyMoves_eq_none honce).mpr hv]

theorem chain_resolve (v : Var) : Relation.ReflTransGen p.Passes v (p.resolve v) := by
  rw [← link_emptyMoves honce]
  exact follow_reaches _ v

variable (hacyclic : ∀ v, ¬ Relation.TransGen p.Passes v v)
include hacyclic

theorem get?_resolve (v : Var) : Ascending.get? (p.resolve v) p.emptyMoves = none := by
  rw [← link_emptyMoves honce] at hacyclic
  exact get?_follow hacyclic v

theorem forwardsTo_resolve (v : Var) : p.ForwardsTo v (p.resolve v) :=
  ⟨chain_resolve honce v, (get?_emptyMoves_eq_none honce).mp (get?_resolve honce hacyclic v)⟩

theorem dropEmptyMoves_eq :
    p.dropEmptyMoves = { p with blocks := p.blocks.map (Block.cleaned p.resolve) } := by
  have hkeys : ∀ e ∈ p.emptyMoves, p.resolve e.1 ∉ p.emptyMoves.map Prod.fst :=
    fun e _ => Ascending.get?_eq_none_iff.mp (get?_resolve honce hacyclic e.1)
  have hresolve : (fun v => if v ∈ p.emptyMoves.map Prod.fst then p.resolve v else v) = p.resolve := by
    funext v
    by_cases hv : v ∈ p.emptyMoves.map Prod.fst
    · rw [if_pos hv]
    · rw [if_neg hv, resolve, follow, Ascending.get?_eq_none_iff.mpr hv]
  rw [dropEmptyMoves]
  refine (foldl_replaceUses hkeys _).trans ?_
  rw [hresolve, rename, withoutEmptyMoves, List.map_map]
  rfl

theorem wellFormed_dropEmptyMoves (h : p.WellFormed) : p.dropEmptyMoves.WellFormed := by
  have hresolve : ∀ v < p.numValues, p.resolve v < p.numValues := by
    intro v hv
    rcases Relation.ReflTransGen.cases_tail (chain_resolve honce v) with heq | ⟨u, _, hu⟩
    · rwa [heq]
    · obtain ⟨b, hb, hs⟩ := List.mem_flatMap.mp hu
      exact h.operand_lt hb hs List.mem_cons_self
  rw [dropEmptyMoves_eq honce hacyclic]
  refine h.map (fun _ _ => rfl) (fun b _ => b.terminator.frame_rename) fun b hb => ?_
  simp only [Block.mentions, Block.cleaned, Statement.cleaned, List.forall_mem_append,
    List.forall_mem_flatMap, List.forall_mem_map, List.forall_mem_cons, Op.operands_rename,
    Terminator.operands_rename]
  refine ⟨⟨fun v => h.param_lt hb, fun s hs => ?_⟩, fun v hv => hresolve v (h.terminator_lt hb hv)⟩
  have hs := List.mem_of_mem_filter hs
  exact ⟨h.result_lt hb hs, fun v hv => hresolve v (h.operand_lt hb hs hv)⟩

theorem body_dropEmptyMoves : p.dropEmptyMoves.body = Statement.cleaned p.resolve p.body := by
  rw [dropEmptyMoves_eq honce hacyclic, body, body, Statement.cleaned, List.flatMap_map, List.filter_flatMap,
    List.map_flatMap]
  rfl

end Removal

theorem dropEmptyMoves_eq_self (h : ∀ s ∈ p.body, s.op.isEmptyMove = false) :
    p.emptyMoves = [] ∧ p.dropEmptyMoves = p := by
  have hforward : p.emptyMoves = [] := by
    have hkeys := Statement.map_fst_filterMap_passed? p.body
    rw [List.filter_eq_nil_iff.mpr fun s hs => by simp [h s hs], List.map_nil, List.map_eq_nil_iff] at hkeys
    rw [emptyMoves_eq, hkeys]
    rfl
  have hblocks : p.blocks.map (fun b =>
      { b with statements := b.statements.filter fun s => !s.op.isEmptyMove }) = p.blocks := by
    refine (List.map_congr_left fun b hb => ?_).trans (List.map_id _)
    rw [List.filter_eq_self.mpr fun s hs => by simp [h s (List.mem_flatMap.mpr ⟨b, hb, hs⟩)]]
    rfl
  refine ⟨hforward, ?_⟩
  rw [dropEmptyMoves, hforward, withoutEmptyMoves, hblocks]
  rfl

theorem applies_dropEmptyMoves (p : Program) :
    Pass.dropEmptyMoves.applies p = p.body.any fun s => s.op.isEmptyMove := by
  rw [← map_snd_statements, List.any_map]
  rfl

end Program

/-- The second statement is the first one with other operands, each related to the old one. -/
structure Statement.Rewires (R : Var → Var → Prop) (s t : Statement) : Prop where
  result : t.result = s.result
  frame : t.op.frame = s.op.frame
  operands : List.Forall₂ R s.op.operands t.op.operands

structure Terminator.Rewires (R : Var → Var → Prop) (s t : Terminator) : Prop where
  frame : t.frame = s.frame
  operands : List.Forall₂ R s.operands t.operands

structure Block.Rewires (R : Var → Var → Prop) (b c : Block) : Prop where
  params : c.params = b.params
  statements : List.Forall₂ (Statement.Rewires R)
    (b.statements.filter fun s => !s.op.isEmptyMove) c.statements
  terminator : b.terminator.Rewires R c.terminator

def Block.uses (b : Block) : List Var := b.statements.flatMap (·.op.operands) ++ b.terminator.operands

theorem Block.rewires_cleaned {R : Var → Var → Prop} {f : Var → Var} (h : ∀ v, R v (f v)) (b : Block) :
    b.Rewires R (b.cleaned f) := by
  have hoperands : ∀ vs : List Var, List.Forall₂ R vs (vs.map f) := by
    intro vs
    rw [List.forall₂_map_right_iff, List.forall₂_same]
    exact fun v _ => h v
  refine ⟨rfl, ?_, b.terminator.frame_rename, b.terminator.operands_rename ▸ hoperands _⟩
  rw [cleaned, Statement.cleaned, List.forall₂_map_right_iff, List.forall₂_same]
  exact fun s _ => ⟨rfl, s.op.frame_rename, s.op.operands_rename ▸ hoperands _⟩

theorem Block.mem_uses_cleaned {f : Var → Var} {b : Block} {u : Var} (h : u ∈ (b.cleaned f).uses) :
    ∃ v, f v = u := by
  simp only [uses, cleaned, Statement.cleaned, List.mem_append, List.mem_flatMap, List.mem_map,
    Terminator.operands_rename] at h
  rcases h with ⟨_, ⟨s, _, rfl⟩, hu⟩ | ⟨v, _, hv⟩
  · rw [Op.operands_rename] at hu
    obtain ⟨v, _, hv⟩ := List.mem_map.mp hu
    exact ⟨v, hv⟩
  · exact ⟨v, hv⟩

/-- The removal of empty moves from a program that defines every value at most once and has no cycle of empty
moves. All blocks, parameters and other statements stay, and each operand becomes the end of its chain of
empty moves; the removed statements are counted, the program is still accepted if it was, and there is nothing
left to remove. -/
theorem Pass.dropEmptyMoves_exact {p : Program} (facts : ProgramFacts) (honce : p.definitions.Nodup)
    (hacyclic : ∀ v, ¬ Relation.TransGen p.Passes v v) :
    ∃ (q : Program) (n : Nat), Pass.dropEmptyMoves.run p facts = .ok (q, facts.insert .dropped n) ∧
      q.numValues = p.numValues ∧
      List.Forall₂ (Block.Rewires p.ForwardsTo) p.blocks q.blocks ∧
      (∀ c ∈ q.blocks, ∀ u ∈ c.uses, ∀ w, ¬ p.Passes u w) ∧
      (∀ c ∈ q.blocks, ∀ s ∈ c.statements, s.op.isEmptyMove = false) ∧
      p.numStatements = q.numStatements + n ∧
      (p.check = .ok () → q.check = .ok ()) ∧
      Pass.dropEmptyMoves.applies q = false ∧
      ∀ facts', Pass.dropEmptyMoves.run q facts' = .ok (q, facts'.insert .dropped (0 : Nat)) := by
  have hforwards := Program.forwardsTo_resolve honce hacyclic
  have hq := Program.dropEmptyMoves_eq honce hacyclic
  have hbody := Program.body_dropEmptyMoves honce hacyclic
  have hkept : ∀ s ∈ p.dropEmptyMoves.body, s.op.isEmptyMove = false := by
    rw [hbody, Statement.cleaned, List.forall_mem_map]
    intro s hs
    simpa using (List.mem_filter.mp hs).2
  obtain ⟨hnone, hself⟩ := Program.dropEmptyMoves_eq_self hkept
  refine ⟨p.dropEmptyMoves, p.emptyMoves.length, rfl, by rw [hq], ?_, ?_, ?_, ?_, ?_, ?_, ?_⟩
  · rw [hq, List.forall₂_map_right_iff, List.forall₂_same]
    exact fun b _ => Block.rewires_cleaned hforwards b
  · rw [hq, List.forall_mem_map]
    intro b _ u hu
    obtain ⟨v, rfl⟩ := Block.mem_uses_cleaned hu
    exact (hforwards v).2
  · exact fun c hc s hs => hkept s (List.mem_flatMap.mpr ⟨c, hc, hs⟩)
  · rw [Program.numStatements_eq, Program.numStatements_eq, hbody, Statement.cleaned,
      List.length_map, Program.length_emptyMoves honce, List.countP_eq_length_filter]
    rw [Nat.add_comm]
    exact List.length_eq_length_filter_add fun s : Statement => s.op.isEmptyMove
  · intro hcheck
    apply Program.check_of_wellFormed
    exact Program.wellFormed_dropEmptyMoves honce hacyclic (Program.wellFormed_of_check hcheck)
  · rw [Program.applies_dropEmptyMoves, List.any_eq_false]
    exact fun s hs => by simp [hkept s hs]
  · intro facts'
    exact congrArg₂ (fun q (n : Nat) => Except.ok (q, facts'.insert .dropped n)) hself
      (congrArg List.length hnone)

/-- Empty moves in three blocks: the chain from `2` goes over `3` and `4`, against the order of the blocks. -/
def Program.crossingMoves : Program where
  blocks := [
    ⟨[], [⟨0, .load⟩, ⟨4, .move 0 []⟩], .jump 2 []⟩,
    ⟨[1], [⟨2, .move 3 []⟩, ⟨5, .newList [2, 1, 4]⟩], .ret 2⟩,
    ⟨[], [⟨3, .move 4 []⟩], .jump 1 [3]⟩]
  numValues := 6

example : Program.crossingMoves.dropEmptyMoves.blocks = [
    ⟨[], [⟨0, .load⟩], .jump 2 []⟩,
    ⟨[1], [⟨5, .newList [0, 1, 0]⟩], .ret 0⟩,
    ⟨[], [], .jump 1 [0]⟩] := by
  decide

theorem Pass.dropEmptyMoves_exact_crossing : ∃ (q : Program) (n : Nat),
    Pass.dropEmptyMoves.run Program.crossingMoves {} = .ok (q, Facts.insert {} .dropped n) ∧
      Program.crossingMoves.numStatements = q.numStatements + n ∧ q.check = .ok () := by
  have hacyclic : ∀ v, ¬ Relation.TransGen Program.crossingMoves.Passes v v := by
    refine Program.acyclic_of_rank (fun v => [0, 0, 3, 2, 1].getD v 0) fun v u h => ?_
    have hmoves : v = 4 ∧ u = 0 ∨ v = 2 ∧ u = 3 ∨ v = 3 ∧ u = 4 := by
      simpa [Program.Passes, Program.body, Program.crossingMoves] using h
    rcases hmoves with ⟨rfl, rfl⟩ | ⟨rfl, rfl⟩ | ⟨rfl, rfl⟩ <;> decide
  obtain ⟨q, n, hrun, -, -, -, -, hcount, hcheck, -⟩ :=
    Pass.dropEmptyMoves_exact (p := Program.crossingMoves) {} (by decide) hacyclic
  exact ⟨q, n, hrun, hcount, hcheck (by decide)⟩

end AtomTransport
