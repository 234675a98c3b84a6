import AtomTransport.Proofs.Atoms
import AtomTransport.Proofs.EmptyMoves
import AtomTransport.Proofs.OneBlock

/-!
# The analysis after the removal of empty moves

An empty move gives the atoms of its operand as a state, also if the operand is a measurement, and nothing if
the operand has no atoms. Operations on atoms see no difference between such an operand and the result, but
all others do: reading results, building or indexing lists, declaring detectors and observables, returning. So
the analysis of a block is the same without its empty moves exactly if no operation of the second kind notices
that it gets the end of a chain in place of its start.
-/

namespace AtomTransport

variable {g : LaneGraph} {env : Var → Value}

theorem Atoms.move_nil {a a' : Atoms} (h : a.move g [] = .ok a') : a' = a := by
  obtain ⟨hops, hhops, -, hlist⟩ := move_eq_ok h
  cases hhops
  exact ext_list (hlist.trans (List.map_id _))

theorem Op.eval_emptyMove {u : Var} {x : Value} (h : (Op.move u []).eval g env = .ok x) :
    x = match (env u).atoms? with
      | some a => .atoms a
      | none => .bottom := by
  rw [eval_of_stateInput? (s := u) rfl] at h
  cases ha : (env u).atoms? with
  | none =>
    rw [ha] at h
    cases h
    rfl
  | some a =>
    rw [ha] at h
    obtain ⟨_, -, h⟩ := bind_eq_ok.mp h
    obtain ⟨a', hmove, h⟩ := bind_eq_ok.mp h
    cases h
    rw [Atoms.move_nil hmove]

theorem Op.eval_congr_atoms {env' : Var → Value} {op : Op} {s : Var} (hs : op.stateInput? = some s)
    (h : (env s).atoms? = (env' s).atoms?) : op.eval g env = op.eval g env' := by
  rw [eval_of_stateInput? hs, eval_of_stateInput? hs, h]

namespace Statement

variable {s : Statement} {statements : List Statement}

theorem eq_of_isEmptyMove (h : s.op.isEmptyMove = true) : ∃ u, s = ⟨s.result, .move u []⟩ := by
  rcases s with ⟨result, op⟩
  cases op with
  | move u lanes => exact ⟨u, by rw [List.isEmpty_iff.mp h]⟩
  | _ => cases h

theorem mem_cleaned {f : Var → Var} (hs : s ∈ statements) (hkept : s.op.isEmptyMove = false) :
    { s with op := s.op.rename f } ∈ cleaned f statements :=
  List.mem_map_of_mem (List.mem_filter.mpr ⟨hs, by rw [hkept]; rfl⟩)

theorem map_result_cleaned_subset (f : Var → Var) (statements : List Statement) :
    (cleaned f statements).map (·.result) ⊆ statements.map (·.result) := by
  rw [cleaned, List.map_map]
  exact List.map_subset _ List.filter_sublist.subset

end Statement

namespace InOrder

variable {l r : List Statement} {s : Statement} {v u : Var}

theorem append_right (h : InOrder (l ++ r)) : InOrder r := by
  induction l with
  | nil => exact h
  | cons t l ih => exact ih h.2.2

theorem operand_notMem (h : InOrder (l ++ r)) (hs : s ∈ l) (hv : v ∈ s.op.operands) :
    v ∉ r.map (·.result) := by
  induction l with
  | nil => cases hs
  | cons t l ih =>
    rcases List.mem_cons.mp hs with rfl | hs
    · intro hmem
      exact h.2.1 v hv (List.mem_cons_of_mem _ (List.map_subset _ (List.subset_append_right l r) hmem))
    · exact ih h.2.2 hs

end InOrder

namespace Program

variable {p : Program} {b : Block} {l r : List Statement} {v u : Var}

def withoutPassed (p : Program) (env : Var → Value) (v : Var) : Value :=
  if v ∈ p.emptyMoves.map Prod.fst then .bottom else env v

theorem body_eq (h : p.blocks = [b]) : p.body = b.statements := by
  rw [body, h]
  exact List.append_nil _

theorem passes_iff (h : p.body = b.statements) : p.Passes v u ↔ ⟨v, .move u []⟩ ∈ b.statements := by
  rw [Passes, h]

/-- A chain of empty moves goes back: it does not come to values that are defined after its start. -/
theorem notMem_of_chain (horder : InOrder (l ++ r)) (hbody : p.body = l ++ r)
    (hchain : Relation.ReflTransGen p.Passes v u) (hv : v ∉ r.map (·.result)) : u ∉ r.map (·.result) := by
  induction hchain with
  | refl => exact hv
  | tail _ hpass ih =>
    rw [Passes, hbody] at hpass
    rcases List.mem_append.mp hpass with hl | hr
    · exact horder.operand_notMem hl List.mem_cons_self
    · exact absurd (List.mem_map_of_mem hr) ih

theorem acyclic_of_inOrder (horder : InOrder p.body) (v : Var) : ¬ Relation.TransGen p.Passes v v := by
  intro hcycle
  obtain ⟨u, hpass, hchain⟩ := Relation.TransGen.head'_iff.mp hcycle
  obtain ⟨l, r, hbody⟩ := List.append_of_mem hpass
  rw [hbody] at horder
  have hu := (horder.append_right).2.1 u List.mem_cons_self
  exact notMem_of_chain horder hbody hchain hu List.mem_cons_self

section Values

variable (honce : p.definitions.Nodup)
include honce

theorem inOrder_cleaned (horder : InOrder (l ++ r)) (hbody : p.body = l ++ r) :
    InOrder (Statement.cleaned p.resolve r) := by
  induction r generalizing l with
  | nil => trivial
  | cons s rest ih =>
    have hrest := ih (l := l ++ [s]) (by simpa using horder) (by simpa using hbody)
    cases hempty : s.op.isEmptyMove with
    | true => rwa [Statement.cleaned, List.filter_cons, hempty]
    | false =>
      obtain ⟨hresult, hoperands, -⟩ := horder.append_right
      have hsubset := Statement.map_result_cleaned_subset p.resolve rest
      rw [Statement.cleaned, List.filter_cons, hempty]
      refine ⟨fun hmem => hresult (hsubset hmem), fun u hu hmem => ?_, hrest⟩
      rw [Op.operands_rename] at hu
      obtain ⟨v, hv, rfl⟩ := List.mem_map.mp hu
      have hend := notMem_of_chain horder hbody (chain_resolve honce v) (hoperands v hv)
      rcases List.mem_cons.mp hmem with heq | hmem
      · exact hend (heq ▸ List.mem_cons_self)
      · exact hend (List.mem_cons_of_mem _ (hsubset hmem))

theorem withoutPassed_of_not_passes (hv : ∀ u, ¬ p.Passes v u) : p.withoutPassed env v = env v :=
  if_neg (Ascending.get?_eq_none_iff.mp ((get?_emptyMoves_eq_none honce).mpr hv))

theorem withoutPassed_of_passes (hv : p.Passes v u) : p.withoutPassed env v = .bottom := by
  refine if_pos (Decidable.of_not_not fun hmem => ?_)
  exact (get?_emptyMoves_eq_none honce).mp (Ascending.get?_eq_none_iff.mpr hmem) u hv

theorem not_passes_result {s : Statement} (hs : s ∈ p.body) (hkept : s.op.isEmptyMove = false) (u : Var) :
    ¬ p.Passes s.result u := by
  intro hpass
  have heq := List.inj_on_of_nodup_map (nodup_body honce) hs hpass rfl
  rw [heq] at hkept
  cases hkept

theorem withoutPassed_result {s : Statement} (hs : s ∈ p.body) (hkept : s.op.isEmptyMove = false) :
    p.withoutPassed env s.result = env s.result :=
  withoutPassed_of_not_passes honce (not_passes_result honce hs hkept)

end Values

section OneBlock

variable (hp : p.SingleAssignment) (hblocks : p.blocks = [b])
include hp hblocks

theorem sequential_of_blocks : b.Sequential := hp.sequential (hblocks ▸ List.mem_singleton_self b)

theorem acyclic_of_blocks (v : Var) : ¬ Relation.TransGen p.Passes v v := by
  apply acyclic_of_inOrder
  rw [body_eq hblocks]
  exact (sequential_of_blocks hp hblocks).inOrder

theorem forwardsTo_of_blocks (v : Var) : p.ForwardsTo v (p.resolve v) :=
  forwardsTo_resolve hp.once (acyclic_of_blocks hp hblocks) v

theorem blocks_dropEmptyMoves : p.dropEmptyMoves.blocks = [b.cleaned p.resolve] := by
  rw [dropEmptyMoves_eq hp.once (acyclic_of_blocks hp hblocks), hblocks]
  rfl

omit hp hblocks in
theorem terminator_cleaned (hret : b.terminator = .ret v) :
    (b.cleaned p.resolve).terminator = .ret (p.resolve v) := by
  rw [Block.cleaned, hret]
  rfl

theorem sequential_cleaned : (b.cleaned p.resolve).Sequential := by
  have hb := sequential_of_blocks hp hblocks
  refine ⟨inOrder_cleaned (l := []) hp.once hb.inOrder (body_eq hblocks), fun s hs => ?_⟩
  have hmem := Statement.map_result_cleaned_subset p.resolve b.statements (List.mem_map_of_mem hs)
  obtain ⟨t, ht, heq⟩ := List.mem_map.mp hmem
  exact heq ▸ hb.params t ht

end OneBlock

end Program

namespace Block.Solves

variable {p : Program} {b : Block} {v u : Var}

section Chains

variable (hsolves : b.Solves g env) (hbody : p.body = b.statements)
include hsolves hbody

theorem eq_of_passes (h : p.Passes v u) : env v = match (env u).atoms? with
    | some a => .atoms a
    | none => .bottom :=
  Op.eval_emptyMove (hsolves.results _ ((Program.passes_iff hbody).mp h))

theorem atoms?_of_chain (h : Relation.ReflTransGen p.Passes v u) : (env v).atoms? = (env u).atoms? := by
  induction h with
  | refl => rfl
  | tail _ hpass ih =>
    rw [ih, hsolves.eq_of_passes hbody hpass]
    split
    next a ha => rw [ha]; rfl
    next ha => rw [ha]; rfl

/-- An atom state, or nothing, is passed on as it is. -/
theorem eq_of_chain (h : Relation.ReflTransGen p.Passes v u)
    (hu : env u = .bottom ∨ ∃ a, env u = .atoms a) : env v = env u := by
  induction h using Relation.ReflTransGen.head_induction_on with
  | refl => rfl
  | head hpass _ ih =>
    rw [hsolves.eq_of_passes hbody hpass, ih]
    rcases hu with hu | ⟨a, hu⟩
    · rw [hu]; rfl
    · rw [hu]; rfl

end Chains

section Removal

variable (hsolves : b.Solves g env) (hp : p.SingleAssignment) (hblocks : p.blocks = [b])
include hsolves hp hblocks

/-- Without the values of the empty moves a solution is one of the block without empty moves exactly if no
other statement notices that its operands have been forwarded. -/
theorem cleaned_iff : (b.cleaned p.resolve).Solves g (p.withoutPassed env) ↔
    ∀ s ∈ b.statements, s.op.isEmptyMove = false → s.op.eval g (env ∘ p.resolve) = s.op.eval g env := by
  have hbody := Program.body_eq hblocks
  have hb := Program.sequential_of_blocks hp hblocks
  have hresolve : p.withoutPassed env ∘ p.resolve = env ∘ p.resolve :=
    funext fun v => Program.withoutPassed_of_not_passes hp.once (Program.forwardsTo_of_blocks hp hblocks v).2
  have hequation : ∀ s ∈ b.statements, s.op.isEmptyMove = false →
      ((s.op.rename p.resolve).eval g (p.withoutPassed env) = .ok (p.withoutPassed env s.result) ↔
        s.op.eval g (env ∘ p.resolve) = s.op.eval g env) := by
    intro s hs hkept
    rw [Op.eval_rename, hresolve, Program.withoutPassed_result hp.once (hbody ▸ hs) hkept,
      hsolves.results s hs]
  constructor
  · intro h s hs hkept
    exact (hequation s hs hkept).mp (h.results _ (Statement.mem_cleaned hs hkept))
  · intro h
    refine ⟨fun v hv => ?_, List.forall_mem_map.mpr fun s hs => ?_, fun v hv hresults => ?_⟩
    · rw [Program.withoutPassed_of_not_passes hp.once, hsolves.params v hv]
      exact fun u hpass => hb.params _ ((Program.passes_iff hbody).mp hpass) hv
    · obtain ⟨hs, hkept⟩ := List.mem_filter.mp hs
      have hkept : s.op.isEmptyMove = false := by simpa using hkept
      exact (hequation s hs hkept).mpr (h s hs hkept)
    -- A value that the block no longer defines is one of an empty move, or it was never defined.
    · by_cases hpass : ∃ u, p.Passes v u
      · obtain ⟨u, hpass⟩ := hpass
        exact Program.withoutPassed_of_passes hp.once hpass
      · rw [not_exists] at hpass
        rw [Program.withoutPassed_of_not_passes hp.once hpass]
        refine hsolves.others v hv fun hmem => ?_
        obtain ⟨s, hs, rfl⟩ := List.mem_map.mp hmem
        cases hempty : s.op.isEmptyMove with
        | true =>
          obtain ⟨u, heq⟩ := Statement.eq_of_isEmptyMove hempty
          exact hpass u ((Program.passes_iff hbody).mpr (heq ▸ hs))
        | false => exact hresults (List.mem_map.mpr ⟨_, Statement.mem_cleaned hs hempty, rfl⟩)

/-- Operations on atoms never notice, so only the others matter. -/
theorem cleaned_iff_readers : (b.cleaned p.resolve).Solves g (p.withoutPassed env) ↔
    ∀ s ∈ b.statements, s.op.stateInput? = none → s.op.eval g (env ∘ p.resolve) = s.op.eval g env := by
  rw [hsolves.cleaned_iff hp hblocks]
  constructor
  · intro h s hs hinput
    refine h s hs ?_
    rw [← Bool.not_eq_true]
    intro hempty
    obtain ⟨u, heq⟩ := Statement.eq_of_isEmptyMove hempty
    rw [heq] at hinput
    cases hinput
  · intro h s hs _
    cases hinput : s.op.stateInput? with
    | none => exact h s hs hinput
    | some u =>
      have hatoms := hsolves.atoms?_of_chain (Program.body_eq hblocks) (Program.chain_resolve hp.once u)
      exact Op.eval_congr_atoms hinput hatoms.symm

end Removal

end Block.Solves

/-- The second analysis knows everything that the first one knows, but for the results of the empty moves. -/
structure Analysis.Keeps (p : Program) (a a' : Analysis) : Prop where
  values : ∀ v, (∀ u, ¬ p.Passes v u) → a'.value v = a.value v
  returned : a'.returned = a.returned
  detectors : a'.detectors.map (·.2) = a.detectors.map (·.2)
  observables : a'.observables.map (·.2) = a.observables.map (·.2)

/-- The values that a block reads otherwise than for their atoms. -/
def Block.readings (b : Block) : List Var :=
  (b.statements.filter fun s => s.op.stateInput?.isNone).flatMap (·.op.operands) ++ b.terminator.operands

/-- Declarations stay, because no empty move declares anything and no other result is removed. -/
theorem Statement.filterMap_cleaned {α : Type} {f : Var → Var} {env' : Var → Value}
    {declares : Value → Op → Option α} (hrename : ∀ x op, declares x (op.rename f) = declares x op)
    (hempty : ∀ x u, declares x (.move u []) = none) {statements : List Statement}
    (henv : ∀ s ∈ statements, s.op.isEmptyMove = false → env' s.result = env s.result) :
    ((cleaned f statements).filterMap fun s => declares (env' s.result) s.op) =
      statements.filterMap fun s => declares (env s.result) s.op := by
  rw [cleaned, List.filterMap_map, List.filterMap_filter]
  refine List.filterMap_congr fun s hs => ?_
  cases h : s.op.isEmptyMove with
  | true =>
    obtain ⟨u, heq⟩ := eq_of_isEmptyMove h
    rw [heq]
    exact (hempty _ u).symm
  | false => simp [hrename, henv s hs h]

namespace Analysis

variable {p : Program} {b : Block} {v : Var} {cap : Nat} {a a' : Analysis}

section

variable (hp : p.SingleAssignment) (hblocks : p.blocks = [b])
include hp hblocks

theorem value_of_passes {env' : Var → Value} (hsolves : (b.cleaned p.resolve).Solves g env') {u w : Var}
    (hpass : p.Passes u w) : env' u = .bottom := by
  have hb := Program.sequential_of_blocks hp hblocks
  have hbody := Program.body_eq hblocks
  refine hsolves.others u (hb.params _ ((Program.passes_iff hbody).mp hpass)) fun hmem => ?_
  obtain ⟨_, ht, rfl⟩ := List.mem_map.mp hmem
  obtain ⟨s, hs, rfl⟩ := List.mem_map.mp ht
  obtain ⟨hs, hkept⟩ := List.mem_filter.mp hs
  exact Program.not_passes_result (s := s) hp.once (hbody ▸ hs) (by simpa using hkept) w hpass

theorem Keeps.value_eq (hkeeps : a.Keeps p a') (hsolves : (b.cleaned p.resolve).Solves g a'.value) :
    a'.value = p.withoutPassed a.value := by
  funext u
  by_cases hpass : ∃ w, p.Passes u w
  · obtain ⟨w, hpass⟩ := hpass
    rw [value_of_passes hp hblocks hsolves hpass, Program.withoutPassed_of_passes hp.once hpass]
  · rw [not_exists] at hpass
    rw [Program.withoutPassed_of_not_passes hp.once hpass, hkeeps.values u hpass]

variable (hret : b.terminator = .ret v)
include hret

theorem solves_of_run_dropEmptyMoves (h : Analysis.run g p.dropEmptyMoves cap = .ok a') :
    (b.cleaned p.resolve).Solves g a'.value ∧ a'.returned = a'.value (p.resolve v) ∧
      a'.detectors.map (·.2) = (b.cleaned p.resolve).detectors a'.value ∧
      a'.observables.map (·.2) = (b.cleaned p.resolve).observables a'.value := by
  exact solves_of_run (Program.blocks_dropEmptyMoves hp hblocks) (Program.sequential_cleaned hp hblocks)
    (Program.terminator_cleaned hret) h

theorem keeps_of_value_eq (hrun : Analysis.run g p cap = .ok a)
    (hrun' : Analysis.run g p.dropEmptyMoves cap = .ok a') (hvalue : a'.value = p.withoutPassed a.value)
    (hresult : a'.returned = a.returned) : a.Keeps p a' := by
  have hb := Program.sequential_of_blocks hp hblocks
  obtain ⟨-, -, hdetectors, hobservables⟩ := solves_of_run hblocks hb hret hrun
  obtain ⟨-, -, hdetectors', hobservables'⟩ := solves_of_run_dropEmptyMoves hp hblocks hret hrun'
  have hkept : ∀ s ∈ b.statements, s.op.isEmptyMove = false →
      p.withoutPassed a.value s.result = a.value s.result := fun s hs hkept =>
    Program.withoutPassed_result hp.once (Program.body_eq hblocks ▸ hs) hkept
  refine ⟨fun u hu => ?_, hresult, ?_, ?_⟩
  · rw [hvalue, Program.withoutPassed_of_not_passes hp.once hu]
  · rw [hdetectors', hdetectors, hvalue]
    exact Statement.filterMap_cleaned (fun _ op => by cases op <;> rfl) (fun _ _ => rfl) hkept
  · rw [hobservables', hobservables, hvalue]
    exact Statement.filterMap_cleaned (fun _ op => by cases op <;> rfl) (fun _ _ => rfl) hkept

/-- The analysis is kept exactly if the equations of the block without empty moves are still solved. -/
theorem exists_keeps_iff (hrun : Analysis.run g p cap = .ok a) :
    (∃ a', Analysis.run g p.dropEmptyMoves cap = .ok a' ∧ a.Keeps p a') ↔
      (b.cleaned p.resolve).Solves g (p.withoutPassed a.value) ∧ a.value (p.resolve v) = a.value v := by
  obtain ⟨-, hreturned, -⟩ := solves_of_run hblocks (Program.sequential_of_blocks hp hblocks) hret hrun
  have hresolved : p.withoutPassed a.value (p.resolve v) = a.value (p.resolve v) :=
    Program.withoutPassed_of_not_passes hp.once (Program.forwardsTo_of_blocks hp hblocks v).2
  constructor
  · rintro ⟨a', hrun', hkeeps⟩
    obtain ⟨hsolves, hreturned', -⟩ := solves_of_run_dropEmptyMoves hp hblocks hret hrun'
    have hvalue := hkeeps.value_eq hp hblocks hsolves
    refine ⟨hvalue ▸ hsolves, ?_⟩
    rw [← hreturned, ← hkeeps.returned, hreturned', hvalue, hresolved]
  · rintro ⟨hsolves, hresult⟩
    have hcheck : p.dropEmptyMoves.check = .ok () := by
      obtain ⟨hwf, -⟩ := run_eq_ok hrun
      apply Program.check_of_wellFormed
      exact Program.wellFormed_dropEmptyMoves hp.once (Program.acyclic_of_blocks hp hblocks) hwf
    obtain ⟨a', hrun', hvalue⟩ := exists_run_of_solves (Program.blocks_dropEmptyMoves hp hblocks)
      (Program.sequential_cleaned hp hblocks) (Program.terminator_cleaned hret) hcheck (one_le_of_run hrun)
      hsolves
    obtain ⟨-, hreturned', -⟩ := solves_of_run_dropEmptyMoves hp hblocks hret hrun'
    refine ⟨a', hrun', keeps_of_value_eq hp hblocks hret hrun hrun' hvalue ?_⟩
    rw [hreturned', hreturned, hvalue, hresolved, hresult]

end

/-- An analysis of a block that returns is kept by the removal of empty moves exactly if every operation that
does not act on atoms gives the same on the ends of the chains of empty moves as on their starts, and the
returned value is also the same. This is so if every removed value that such an operation reads, or that is
returned, stands for an atom state or for nothing. -/
theorem keeps_dropEmptyMoves_iff (hp : p.SingleAssignment) (hblocks : p.blocks = [b])
    (hret : b.terminator = .ret v) (hrun : Analysis.run g p cap = .ok a) :
    ((∃ a', Analysis.run g p.dropEmptyMoves cap = .ok a' ∧ a.Keeps p a') ↔
      (∀ s ∈ b.statements, s.op.stateInput? = none →
        s.op.eval g (a.value ∘ p.resolve) = s.op.eval g a.value) ∧
      a.value (p.resolve v) = a.value v) ∧
    ((∀ u ∈ b.readings, (∀ w, ¬ p.Passes u w) ∨ a.value (p.resolve u) = .bottom ∨
        ∃ x, a.value (p.resolve u) = .atoms x) →
      ∃ a', Analysis.run g p.dropEmptyMoves cap = .ok a' ∧ a.Keeps p a') := by
  obtain ⟨hsolves, -⟩ := solves_of_run hblocks (Program.sequential_of_blocks hp hblocks) hret hrun
  rw [exists_keeps_iff hp hblocks hret hrun, hsolves.cleaned_iff_readers hp hblocks]
  refine ⟨Iff.rfl, fun hreadings => ?_⟩
  have hsame : ∀ u ∈ b.readings, a.value (p.resolve u) = a.value u := by
    intro u hu
    rcases hreadings u hu with hpass | hstate
    · rw [Program.resolve_eq_self hp.once hpass]
    · exact (hsolves.eq_of_chain (Program.body_eq hblocks) (Program.chain_resolve hp.once u) hstate).symm
  refine ⟨fun s hs hinput => Op.eval_congr fun u hu => hsame u (List.mem_append_left _ ?_), hsame v ?_⟩
  · exact List.mem_flatMap.mpr ⟨s, List.mem_filter.mpr ⟨hs, by rw [hinput]; rfl⟩, hu⟩
  · rw [Block.readings, hret]
    exact List.mem_append_right _ (List.mem_singleton_self v)

def measuredChain : Program where
  blocks := [⟨[], [⟨0, .load⟩, ⟨1, .fill 0 [⟨0, 0⟩]⟩, ⟨2, .move 1 []⟩, ⟨3, .move 2 []⟩,
    ⟨4, .endMeasure 3 [⟨0⟩]⟩, ⟨5, .getFutureResult 4 ⟨0⟩⟩, ⟨6, .setDetector 5 []⟩], .ret 3⟩]
  numValues := 7

/-- The chain stands for an atom state, so that nothing but the empty moves gets lost. -/
theorem keeps_dropEmptyMoves_measuredChain : ∃ a a', Analysis.run oneWord measuredChain 1 = .ok a ∧
    Analysis.run oneWord measuredChain.dropEmptyMoves 1 = .ok a' ∧ a.Keeps measuredChain a' := by
  obtain ⟨a, ha, hstate⟩ := exists_ok_of_any (x := Analysis.run oneWord measuredChain 1)
    (P := fun a => (a.value 1).same (.atoms (.single ⟨0, ⟨0, 0⟩, 0, none⟩))) (by decide +kernel)
  have hatoms : ∃ x, a.value 1 = .atoms x := by
    revert hstate
    cases a.value 1 <;> simp [Value.same]
  have hpasses : ∀ {u w}, measuredChain.Passes u w → u = 2 ∧ w = 1 ∨ u = 3 ∧ w = 2 := by
    intro u w h
    simpa [Program.Passes, Program.body, measuredChain] using h
  have hreadings : ∀ u ∈ [4, 5, 3], (∀ w, ¬ measuredChain.Passes u w) ∨
      a.value (measuredChain.resolve u) = .bottom ∨ ∃ x, a.value (measuredChain.resolve u) = .atoms x := by
    simp only [List.forall_mem_cons]
    refine ⟨.inl fun w h => ?_, .inl fun w h => ?_, .inr (.inr ?_), fun _ h => absurd h List.not_mem_nil⟩
    · simpa using hpasses h
    · simpa using hpasses h
    · exact hatoms
  obtain ⟨-, hkept⟩ := keeps_dropEmptyMoves_iff (p := measuredChain) (by decide) rfl rfl ha
  obtain ⟨a', ha', hkeeps⟩ := hkept hreadings
  exact ⟨a, a', ha, ha', hkeeps⟩

/-- An empty move between a measurement and the reading of its results. -/
def lateReadout : Program where
  blocks := [⟨[], [⟨0, .load⟩, ⟨1, .fill 0 [⟨0, 0⟩]⟩, ⟨2, .endMeasure 1 [⟨0⟩]⟩, ⟨3, .move 2 []⟩,
    ⟨4, .getFutureResult 3 ⟨0⟩⟩, ⟨5, .setDetector 4 []⟩], .ret 4⟩]
  numValues := 6

/-- The empty move gives a state that has no results, so nothing is read and returned; without the move the
results of the measurement are. -/
theorem keeps_fails_lateReadout : lateReadout.check = .ok () ∧ lateReadout.SingleAssignment ∧
    ∃ a a', Analysis.run oneWord lateReadout 1 = .ok a ∧
      Analysis.run oneWord lateReadout.dropEmptyMoves 1 = .ok a' ∧ a.returned = .bottom ∧
      a'.returned ≠ .bottom ∧
      ¬ ∃ a', Analysis.run oneWord lateReadout.dropEmptyMoves 1 = .ok a' ∧ a.Keeps lateReadout a' := by
  obtain ⟨a, ha, hreturned⟩ := exists_ok_of_any (x := Analysis.run oneWord lateReadout 1)
    (P := fun a => a.returned.isBottom) (by decide +kernel)
  obtain ⟨a', ha', hreturned'⟩ := exists_ok_of_any (x := Analysis.run oneWord lateReadout.dropEmptyMoves 1)
    (P := fun a => !a.returned.isBottom) (by decide +kernel)
  have hbottom : a.returned = .bottom := by
    revert hreturned
    cases a.returned <;> simp [Value.isBottom]
  have hresults : a'.returned ≠ .bottom := by
    intro heq
    rw [heq] at hreturned'
    cases hreturned'
  refine ⟨by decide, by decide, a, a', ha, ha', hbottom, hresults, ?_⟩
  rintro ⟨a'', ha'', hkeeps⟩
  cases ha'.symm.trans ha''
  exact hresults (hkeeps.returned.trans hbottom)

end Analysis

end AtomTransport
