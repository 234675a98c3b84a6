import Mathlib.Data.List.Nodup
import AtomTransport.Proofs.Evaluation

/-!
# Programs in single assignment form

What the check of a program guarantees, and what follows when every value is defined at most once and no
statement reads a value that it or a later statement of its block defines: a result belongs to one block,
is no parameter of any block, and is not written again by the statements after it.
-/

namespace AtomTransport

structure Block.Ordered (b : Block) : Prop where
  own : ∀ s ∈ b.statements, s.result ∉ s.op.operands
  later : b.statements.Pairwise fun s t => t.result ∉ s.op.operands

theorem Block.ordered_iff {b : Block} : b.Ordered ↔ (∀ s ∈ b.statements, s.result ∉ s.op.operands) ∧
    b.statements.Pairwise fun s t => t.result ∉ s.op.operands :=
  ⟨fun h => ⟨h.own, h.later⟩, fun h => ⟨h.1, h.2⟩⟩

instance (b : Block) : Decidable b.Ordered := decidable_of_iff' _ Block.ordered_iff

namespace Terminator

variable {env : Var → Value} {t : Terminator} {target : Label} {args : List Var}

theorem Leads.mem_successors (h : t.Leads env target args) : (target, args) ∈ t.successors := by
  cases h <;> simp [successors]

theorem mem_operands_of_mem_successors (h : (target, args) ∈ t.successors) {v : Var} (hv : v ∈ args) :
    v ∈ t.operands := by
  cases t with
  | jump target' args' =>
    cases List.mem_singleton.mp h
    exact hv
  | branch cond t ts e es =>
    rcases List.mem_cons.mp h with h | h
    · cases h
      exact List.mem_cons_of_mem _ (List.mem_append_left _ hv)
    · cases List.mem_singleton.mp h
      exact List.mem_cons_of_mem _ (List.mem_append_right _ hv)
  | ret v => cases h

end Terminator

namespace Program

def definitions (p : Program) : List Var :=
  p.blocks.flatMap fun b => b.params ++ b.statements.map (·.result)

/-- Every value is defined at most once, and no block reads a result before it is defined. -/
structure SingleAssignment (p : Program) : Prop where
  once : p.definitions.Nodup
  ordered : ∀ b ∈ p.blocks, b.Ordered

theorem singleAssignment_iff {p : Program} :
    p.SingleAssignment ↔ p.definitions.Nodup ∧ ∀ b ∈ p.blocks, b.Ordered :=
  ⟨fun h => ⟨h.once, h.ordered⟩, fun h => ⟨h.1, h.2⟩⟩

instance (p : Program) : Decidable p.SingleAssignment := decidable_of_iff' _ singleAssignment_iff

def NoNaN (p : Program) : Prop := ∀ b ∈ p.blocks, ∀ s ∈ b.statements, s.op.isNaN = false

instance (p : Program) : Decidable p.NoNaN :=
  inferInstanceAs (Decidable (∀ b ∈ p.blocks, ∀ s ∈ b.statements, s.op.isNaN = false))

structure WellFormed (p : Program) : Prop where
  entry : ∃ block, p.block? 0 = some block
  scope : ∀ block ∈ p.blocks, ∀ v ∈ block.mentions, v < p.numValues
  edges : ∀ block ∈ p.blocks, ∀ edge ∈ block.terminator.successors,
    ∃ target, p.block? edge.1 = some target ∧ target.params.length = edge.2.length

variable {p : Program} {b c : Label} {block other : Block} {s t : Statement} {v : Var}

theorem mem_blocks (h : p.block? b = some block) : block ∈ p.blocks := List.mem_of_getElem? h

theorem edgeFault?_eq_none {edge : Label × List Var} (h : p.edgeFault? edge = none) :
    ∃ target, p.block? edge.1 = some target ∧ target.params.length = edge.2.length := by
  rw [edgeFault?] at h
  split at h
  · cases h
  next target htarget =>
    split_ifs at h with hlength
    exact ⟨target, htarget, Decidable.of_not_not hlength⟩

theorem blockFault?_eq_none (h : p.blockFault? block = none) :
    (∀ v ∈ block.mentions, v < p.numValues) ∧
      ∀ edge ∈ block.terminator.successors, p.edgeFault? edge = none := by
  cases hscope : block.mentions.find? fun v => p.numValues ≤ v with
  | some v => simp [blockFault?, hscope] at h
  | none =>
    have hedges : block.terminator.successors.findSome? p.edgeFault? = none := by
      simpa [blockFault?, hscope] using h
    exact ⟨by simpa using hscope, List.findSome?_eq_none_iff.mp hedges⟩

theorem wellFormed_of_check (h : p.check = .ok ()) : p.WellFormed := by
  rw [check] at h
  split_ifs at h with hempty
  split at h
  · cases h
  next hfault =>
    rw [List.findSome?_eq_none_iff] at hfault
    have hentry : ∃ block, p.block? 0 = some block := by
      rw [List.isEmpty_iff] at hempty
      obtain ⟨block, rest, hblocks⟩ := List.exists_cons_of_ne_nil hempty
      exact ⟨block, by simp [block?, hblocks]⟩
    exact ⟨hentry, fun block hblock => (blockFault?_eq_none (hfault block hblock)).1,
      fun block hblock edge hedge =>
        edgeFault?_eq_none ((blockFault?_eq_none (hfault block hblock)).2 edge hedge)⟩

theorem check_of_wellFormed (h : p.WellFormed) : p.check = .ok () := by
  have hfault : p.blocks.findSome? p.blockFault? = none := by
    rw [List.findSome?_eq_none_iff]
    intro block hblock
    have hscope : block.mentions.find? (fun v => p.numValues ≤ v) = none := by
      simpa using h.scope block hblock
    have hedges : block.terminator.successors.findSome? p.edgeFault? = none := by
      rw [List.findSome?_eq_none_iff]
      intro edge hedge
      obtain ⟨target, htarget, hlength⟩ := h.edges block hblock edge hedge
      simp [edgeFault?, htarget, hlength]
    rw [blockFault?, hscope, hedges]
    rfl
  obtain ⟨block, hblock⟩ := h.entry
  have hempty : p.blocks.isEmpty = false := by
    rw [List.isEmpty_eq_false_iff]
    exact List.ne_nil_of_mem (mem_blocks hblock)
  rw [check, hempty, hfault]
  rfl

theorem ofBlocks_eq_ok_iff {blocks : List Block} {numValues : Nat} :
    ofBlocks blocks numValues = .ok p ↔ p = ⟨blocks, numValues⟩ ∧ p.check = .ok () := by
  unfold ofBlocks
  constructor
  · intro h
    cases hcheck : (Program.mk blocks numValues).check with
    | error e => simp [hcheck, Except.map] at h
    | ok u =>
      simp only [hcheck, Except.map, Except.ok.injEq] at h
      exact ⟨h.symm, h ▸ hcheck⟩
  · rintro ⟨rfl, hcheck⟩
    simp only [hcheck]
    rfl

theorem WellFormed.result_lt (h : p.WellFormed) (hblock : block ∈ p.blocks) (hs : s ∈ block.statements) :
    s.result < p.numValues := by
  apply h.scope block hblock
  apply List.mem_append_left
  exact List.mem_append_right _ (List.mem_flatMap.mpr ⟨s, hs, List.mem_cons_self⟩)

theorem WellFormed.param_lt (h : p.WellFormed) (hblock : block ∈ p.blocks) (hv : v ∈ block.params) :
    v < p.numValues :=
  h.scope block hblock v (List.mem_append_left _ (List.mem_append_left _ hv))

theorem WellFormed.operand_lt (h : p.WellFormed) (hblock : block ∈ p.blocks) (hs : s ∈ block.statements)
    (hv : v ∈ s.op.operands) : v < p.numValues := by
  apply h.scope block hblock
  apply List.mem_append_left
  exact List.mem_append_right _ (List.mem_flatMap.mpr ⟨s, hs, List.mem_cons_of_mem _ hv⟩)

theorem WellFormed.terminator_lt (h : p.WellFormed) (hblock : block ∈ p.blocks)
    (hv : v ∈ block.terminator.operands) : v < p.numValues :=
  h.scope block hblock v (List.mem_append_right _ hv)

theorem mem_users_iff : c ∈ p.users v ↔ ∃ block, p.block? c = some block ∧
    ((∃ s ∈ block.statements, v ∈ s.op.operands) ∨ v ∈ block.terminator.operands) := by
  rw [users, List.mem_map]
  constructor
  · rintro ⟨⟨block, c⟩, hmem, rfl⟩
    obtain ⟨hmem, huse⟩ := List.mem_filter.mp hmem
    exact ⟨block, List.mem_zipIdx_iff_getElem?.mp hmem, by simpa using huse⟩
  · rintro ⟨block, hblock, huse⟩
    exact ⟨(block, c), List.mem_filter.mpr ⟨List.mem_zipIdx_iff_getElem?.mpr hblock, by simpa using huse⟩, rfl⟩

namespace SingleAssignment

theorem disjoint (h : p.SingleAssignment) (hblock : p.block? b = some block)
    (hother : p.block? c = some other) (hne : b ≠ c) :
    (block.params ++ block.statements.map (·.result)).Disjoint
      (other.params ++ other.statements.map (·.result)) := by
  have hpairwise := List.pairwise_iff_getElem.mp (List.nodup_flatMap.mp h.once).2
  obtain ⟨hb, rfl⟩ := List.getElem?_eq_some_iff.mp hblock
  obtain ⟨hc, rfl⟩ := List.getElem?_eq_some_iff.mp hother
  rcases Nat.lt_or_gt_of_ne hne with hlt | hlt
  · exact hpairwise b c hb hc hlt
  · exact fun _ hv hv' => hpairwise c b hc hb hlt hv' hv

theorem nodup (h : p.SingleAssignment) (hblock : block ∈ p.blocks) :
    (block.params ++ block.statements.map (·.result)).Nodup :=
  (List.nodup_flatMap.mp h.once).1 block hblock

theorem result_ne_result (h : p.SingleAssignment) (hblock : p.block? b = some block)
    (hother : p.block? c = some other) (hne : b ≠ c) (hs : s ∈ block.statements)
    (ht : t ∈ other.statements) : s.result ≠ t.result := by
  intro heq
  apply h.disjoint hblock hother hne (List.mem_append_right _ (List.mem_map_of_mem hs))
  exact List.mem_append_right _ (heq ▸ List.mem_map_of_mem ht)

theorem result_ne_param (h : p.SingleAssignment) (hblock : block ∈ p.blocks) (hother : other ∈ p.blocks)
    (hs : s ∈ block.statements) (hv : v ∈ other.params) : s.result ≠ v := by
  rintro rfl
  obtain ⟨b, hb⟩ := List.getElem?_of_mem hblock
  obtain ⟨c, hc⟩ := List.getElem?_of_mem hother
  by_cases hbc : b = c
  · subst hbc
    cases hb.symm.trans hc
    exact (List.nodup_append.mp (h.nodup hblock)).2.2 _ hv _ (List.mem_map_of_mem hs) rfl
  · exact h.disjoint hb hc hbc (List.mem_append_right _ (List.mem_map_of_mem hs))
      (List.mem_append_left _ hv)

theorem pairwise_result_ne (h : p.SingleAssignment) (hblock : block ∈ p.blocks) :
    block.statements.Pairwise fun s t => s.result ≠ t.result :=
  List.pairwise_map.mp (List.nodup_append.mp (h.nodup hblock)).2.1

end SingleAssignment

end Program

end AtomTransport
