import AtomTransport.Proofs.Renaming

/-!
# Replacement of uses

The uses of a program are the operands of its statements and terminators. A renaming is determined by what it
does to them: there is one program that reads the renamed operands and is the same everywhere else. To replace a
value by another one is such a renaming. It changes nothing exactly if the value is not used or is its own
replacement, and otherwise it leaves no use of the value.
-/

namespace AtomTransport

theorem forall₂_eq_map_iff {α β : Type} {F : α → β} {xs : List α} {ys : List β} :
    List.Forall₂ (fun x y => y = F x) xs ys ↔ ys = xs.map F := by
  rw [eq_comm, ← List.forall₂_eq_eq_eq, List.forall₂_map_left_iff]
  simp only [eq_comm]

variable {f g : Var → Var}

structure Op.RenamesTo (f : Var → Var) (op op' : Op) : Prop where
  operands : op'.operands = op.operands.map f
  stateInput : op'.stateInput? = op.stateInput?.map f
  frame : op'.frame = op.frame

theorem Op.renamesTo_iff {op op' : Op} : op.RenamesTo f op' ↔ op' = op.rename f := by
  constructor
  · rintro ⟨hoperands, -, hframe⟩
    apply eq_of_frame_eq
    · rw [hframe, frame_rename]
    · rw [hoperands, operands_rename]
  · rintro rfl
    exact ⟨operands_rename op, stateInput?_rename op, frame_rename op⟩

theorem Op.rename_congr {op : Op} (h : ∀ v ∈ op.operands, f v = g v) : op.rename f = op.rename g := by
  apply eq_of_frame_eq
  · rw [frame_rename, frame_rename]
  · rw [operands_rename, operands_rename, List.map_congr_left h]

structure Terminator.RenamesTo (f : Var → Var) (t t' : Terminator) : Prop where
  operands : t'.operands = t.operands.map f
  successors : t'.successors = t.successors.map fun edge => (edge.1, edge.2.map f)

theorem Terminator.renamesTo_iff {t t' : Terminator} : t.RenamesTo f t' ↔ t' = t.rename f := by
  constructor
  · rintro ⟨hoperands, hsuccessors⟩
    apply eq_of_successors_eq
    · rw [hoperands, operands_rename]
    · rw [hsuccessors, successors_rename]
  · rintro rfl
    exact ⟨operands_rename t, successors_rename t⟩

theorem Terminator.rename_congr {t : Terminator} (h : ∀ v ∈ t.operands, f v = g v) :
    t.rename f = t.rename g := by
  apply eq_of_successors_eq
  · rw [operands_rename, operands_rename, List.map_congr_left h]
  · rw [successors_rename, successors_rename]
    refine List.map_congr_left fun edge hedge => ?_
    rw [List.map_congr_left fun v hv => h v (mem_operands_of_mem_successors hedge hv)]

structure Statement.RenamesTo (f : Var → Var) (s s' : Statement) : Prop where
  result : s'.result = s.result
  op : s.op.RenamesTo f s'.op

theorem Statement.renamesTo_iff {s s' : Statement} :
    s.RenamesTo f s' ↔ s' = { s with op := s.op.rename f } := by
  obtain ⟨result, op⟩ := s
  obtain ⟨result', op'⟩ := s'
  simp only [mk.injEq, ← Op.renamesTo_iff]
  exact ⟨fun h => ⟨h.result, h.op⟩, fun h => ⟨h.1, h.2⟩⟩

structure Block.RenamesTo (f : Var → Var) (b b' : Block) : Prop where
  params : b'.params = b.params
  statements : List.Forall₂ (Statement.RenamesTo f) b.statements b'.statements
  terminator : b.terminator.RenamesTo f b'.terminator

theorem Block.renamesTo_iff {b b' : Block} : b.RenamesTo f b' ↔
    b' = { b with
      statements := b.statements.map fun s => { s with op := s.op.rename f }
      terminator := b.terminator.rename f } := by
  obtain ⟨params, statements, terminator⟩ := b
  obtain ⟨params', statements', terminator'⟩ := b'
  simp only [mk.injEq, ← Terminator.renamesTo_iff, ← forall₂_eq_map_iff, ← Statement.renamesTo_iff]
  exact ⟨fun h => ⟨h.params, h.statements, h.terminator⟩, fun h => ⟨h.1, h.2.1, h.2.2⟩⟩

namespace Program

variable {p q : Program}

/-- The second program has the same number of values, and its blocks read the renamed operands. -/
structure RenamesTo (f : Var → Var) (p q : Program) : Prop where
  numValues : q.numValues = p.numValues
  blocks : List.Forall₂ (Block.RenamesTo f) p.blocks q.blocks

theorem renamesTo_iff : p.RenamesTo f q ↔ q = p.rename f := by
  obtain ⟨blocks, numValues⟩ := p
  obtain ⟨blocks', numValues'⟩ := q
  simp only [rename, mk.injEq, ← forall₂_eq_map_iff, ← Block.renamesTo_iff]
  exact ⟨fun h => ⟨h.blocks, h.numValues⟩, fun h => ⟨h.2, h.1⟩⟩

/-- The operands of all statements and terminators, each as often as it is read. -/
def uses (p : Program) : List Var :=
  p.blocks.flatMap fun b => (b.statements.flatMap fun s => s.op.operands) ++ b.terminator.operands

@[simp] theorem uses_rename : (p.rename f).uses = p.uses.map f := by
  simp [uses, rename, List.flatMap_map, List.map_flatMap]

theorem rename_congr (h : ∀ v ∈ p.uses, f v = g v) : p.rename f = p.rename g := by
  simp only [rename, mk.injEq, and_true]
  refine List.map_congr_left fun b hb => ?_
  have hb : ∀ v ∈ (b.statements.flatMap fun s => s.op.operands) ++ b.terminator.operands, f v = g v :=
    fun v hv => h v (List.mem_flatMap.mpr ⟨b, hb, hv⟩)
  obtain ⟨hstatements, hterminator⟩ := List.forall_mem_append.mp hb
  rw [Terminator.rename_congr hterminator, List.map_congr_left fun s hs => ?_]
  rw [Op.rename_congr fun v hv => hstatements v (List.mem_flatMap.mpr ⟨s, hs, hv⟩)]

theorem rename_eq_self_iff : p.rename f = p ↔ ∀ v ∈ p.uses, f v = v := by
  constructor
  · intro h
    have huses := congrArg uses h
    rw [uses_rename] at huses
    exact List.map_inj_left.mp (huses.trans (List.map_id _).symm)
  · intro h
    rw [rename_congr h, rename_id]

/-- Replacing a value by another one is the renaming that replaces each occurrence among the operands and keeps
everything else. It changes nothing exactly if the two values are the same or the first one is not used, and it
leaves a use of the first one only if the two are the same. -/
theorem replaceUses_exact (p : Program) (old new : Var) :
    (∀ q, q = p.replaceUses old new ↔ p.RenamesTo (fun v => if v = old then new else v) q) ∧
      (p.replaceUses old new = p ↔ old = new ∨ old ∉ p.uses) ∧
      (old ∈ (p.replaceUses old new).uses ↔ old = new ∧ old ∈ p.uses) := by
  refine ⟨fun q => renamesTo_iff.symm, ?_, ?_⟩
  · rw [replaceUses, rename_eq_self_iff]
    constructor
    · intro h
      by_cases hmem : old ∈ p.uses
      · exact Or.inl (by simpa [eq_comm] using h old hmem)
      · exact Or.inr hmem
    · rintro (rfl | hmem) v hv
      · split_ifs with hv'
        · exact hv'.symm
        · rfl
      · have hv' : v ≠ old := fun heq => hmem (heq ▸ hv)
        exact if_neg hv'
  · rw [replaceUses, uses_rename, List.mem_map]
    constructor
    · rintro ⟨v, hv, heq⟩
      split_ifs at heq with hv'
      · exact ⟨heq.symm, hv' ▸ hv⟩
      · exact absurd heq hv'
    · rintro ⟨rfl, hmem⟩
      exact ⟨old, hmem, if_pos rfl⟩

end Program

end AtomTransport
