import AtomTransport.Pass
import AtomTransport.Proofs.Atoms
import AtomTransport.Proofs.TableAccess

/-!
# Address faults and errors of the analysis

The validation of addresses asks the device about every address of a program; the analysis asks only for
those of the statements that it evaluates, and looks lanes up in the lane graph. Whatever address the
analysis fails on, the validation finds too, at the same place and with the same fault. The other errors of
a program that has passed its check are a matter of where the atoms are, or of the cap on the visits.
-/

namespace AtomTransport

variable {g : LaneGraph} {d : Device} {p : Program} {op : Op}

namespace Program

@[simp] theorem faultOf_eq_some {r : Except AddressError Unit} {c : AddressError} :
    faultOf r = some c ↔ r = .error c := by
  cases r <;> simp [faultOf]

theorem mem_addressFaults {c : AddressError} : c ∈ addressFaults d op ↔
    (∃ l ∈ op.locations, d.checkLocation l = .error c) ∨ (∃ z ∈ op.zones, d.checkZone z = .error c) ∨
      (∃ lane ∈ op.lanes, d.checkLane lane = .error c) ∨ c ∈ incompatiblePairs d op.lanes := by
  simp [addressFaults]

theorem mem_incompatiblePairs {lanes : List Lane} {x y : Lane} (h : d.conflict? lanes = some (x, y)) :
    .incompatibleLanes x y ∈ incompatiblePairs d lanes := by
  induction lanes with
  | nil => cases h
  | cons lane lanes ih =>
    rw [Device.conflict?] at h
    split at h
    next other hfind =>
      cases h
      have hbad := List.find?_some hfind
      apply List.mem_append_left
      exact List.mem_map_of_mem (List.mem_filter.mpr ⟨List.mem_of_find?_eq_some hfind, hbad⟩)
    · exact List.mem_append_right _ (ih h)

theorem mem_statements {point : Point} {s : Statement} :
    (point, s) ∈ p.statements ↔ p.statement? point = some s := by
  simp only [statements, statement?, List.mem_flatMap, List.mem_map, Prod.exists, Prod.mk.injEq,
    List.mem_zipIdx_iff_getElem?, Option.bind_eq_some_iff]
  constructor
  · rintro ⟨block, b, hblock, _, i, hs, rfl, rfl⟩
    exact ⟨block, hblock, hs⟩
  · rintro ⟨block, hblock, hs⟩
    exact ⟨block, point.block, hblock, s, point.index, hs, rfl, rfl⟩

theorem mem_diagnostics {point : Point} {s : Statement} {c : AddressError}
    (hs : p.statement? point = some s) (hc : c ∈ addressFaults d s.op) :
    ⟨point, s.op.name, c⟩ ∈ p.diagnostics d :=
  List.mem_flatMap.mpr ⟨(point, s), mem_statements.mpr hs, List.mem_map_of_mem hc⟩

end Program

theorem Pass.addressValidation_eq_error {facts : ProgramFacts} (hfacts : facts.graph = some g)
    {fault : Diagnostic} (h : fault ∈ p.diagnostics g.device) :
    addressValidation.run p facts = .error (.validation (p.diagnostics g.device)) := by
  simp only [addressValidation, Facts.requireGraph, hfacts, ok_bind]
  split
  next hnone =>
    rw [hnone] at h
    cases h
  · rfl

namespace Op

/-- An error that an operation may give: a fault of one of its addresses, or a matter of where the atoms
are. -/
def Explains (d : Device) (op : Op) : AtomError → Prop
  | .address c => c ∈ Program.addressFaults d op
  | .inconsistent => False
  | _ => True

theorem explains_of_checkAddresses {e : AtomError} (h : op.checkAddresses d = .error e) :
    op.Explains d e := by
  obtain ⟨c, hc, rfl⟩ := mapError_eq_error.mp h
  rcases bind_eq_error.mp hc with hlocation | ⟨_, _, hzone⟩
  · exact Program.mem_addressFaults.mpr (Or.inl (forM_eq_error hlocation))
  · exact Program.mem_addressFaults.mpr (Or.inr (Or.inl (forM_eq_error hzone)))

theorem explains_of_fill {a : Atoms} {locations : List Location} {e : AtomError}
    (h : a.fill locations = .error e) : op.Explains d e := by
  rcases AtomMaps.fillWith_eq_error (Atoms.pack_eq_error.mp h) with ⟨_, rfl⟩ | ⟨_, rfl⟩ <;> trivial

theorem explains_of_move {a : Atoms} {lanes : List Lane} (hlanes : op.lanes = lanes)
    {e : AtomError} (h : a.move g lanes = .error e) : op.Explains g.device e := by
  have hrecords := a.wellFormed.move_records g lanes
  rw [Atoms.pack_eq_error.mp h] at hrecords
  replace h := hrecords.symm
  split at h
  next hconflict =>
    cases h
    refine Program.mem_addressFaults.mpr (Or.inr (Or.inr (Or.inr ?_)))
    exact hlanes ▸ Program.mem_incompatiblePairs hconflict
  rcases bind_eq_error.mp h with hhops | ⟨hops, hhops, h⟩
  · rcases AtomMaps.hops_eq_error hhops with ⟨lane, hlane, hhop⟩ | ⟨_, rfl⟩
    · rcases AtomMaps.hop_eq_error hhop with ⟨c, hc, rfl⟩ | ⟨_, rfl⟩
      · exact Program.mem_addressFaults.mpr (Or.inr (Or.inr (Or.inl ⟨lane, hlanes ▸ hlane, hc⟩)))
      · trivial
    · trivial
  rcases bind_eq_error.mp h with hland | ⟨⟨⟩, _, h⟩
  · obtain ⟨_, _, rfl⟩ := AtomMaps.landing_eq_error hland
    trivial
  · cases h

theorem explains_of_evalAtoms {a : Atoms} {e : AtomError}
    (h : op.evalAtoms g a = .error e) : op.Explains g.device e := by
  rcases bind_eq_error.mp h with hcheck | ⟨_, _, h⟩
  · exact explains_of_checkAddresses hcheck
  split at h
  · rcases bind_eq_error.mp h with hfill | ⟨_, _, h⟩
    · exact explains_of_fill hfill
    · cases h
  · rcases bind_eq_error.mp h with hmove | ⟨_, _, h⟩
    · exact explains_of_move rfl hmove
    · cases h
  · cases h
  · cases h

theorem explains_of_eval {env : Var → Value} {e : AtomError}
    (h : op.eval g env = .error e) : op.Explains g.device e := by
  have hzone : ∀ {z : Zone}, z ∈ op.zones → (g.device.checkZone z).mapError .address = .error e →
      op.Explains g.device e := by
    intro z hz h
    obtain ⟨c, hc, rfl⟩ := mapError_eq_error.mp h
    exact Program.mem_addressFaults.mpr (Or.inr (Or.inl ⟨z, hz, hc⟩))
  cases hinput : op.stateInput? with
  | some s =>
    rw [eval_of_stateInput? hinput] at h
    split at h
    next a ha => exact explains_of_evalAtoms h
    · cases h
  | none =>
    cases op with
    | getFutureResult future zone =>
      simp only [eval, hinput] at h
      split at h
      · rcases bind_eq_error.mp h with h | ⟨_, _, h⟩
        · exact hzone List.mem_cons_self h
        · cases h
      · cases h
      · cases h
    | getZoneIndex zone location =>
      rcases bind_eq_error.mp h with h | ⟨_, _, h⟩
      · exact hzone List.mem_cons_self h
      rcases bind_eq_error.mp h with h | ⟨_, _, h⟩
      · obtain ⟨c, hc, rfl⟩ := mapError_eq_error.mp h
        exact Program.mem_addressFaults.mpr (Or.inl ⟨location, List.mem_cons_self, hc⟩)
      · split at h <;> cases h
    | _ => first | cases h | cases hinput

end Op

namespace Analysis

/-- An error that the analysis of a program may give once the program has passed its check: there were too
many visits, or a statement gave an error that its operation explains. -/
inductive Failure (g : LaneGraph) (p : Program) (cap : Nat) : AnalysisError → Prop where
  | visitLimit : Failure g p cap (.visitLimit cap)
  | atStatement {point : Point} {s : Statement} {cause : AtomError} (hs : p.statement? point = some s)
      (hcause : s.op.Explains g.device cause) : Failure g p cap (.atStatement point s.op.name cause)

namespace Work

variable {w : Work} {cap : Nat} {e : AnalysisError}

theorem failure_of_visit {b : Label} (h : Work.visit g p w b = .error e) :
    Failure g p cap e := by
  cases hblock : p.block? b with
  | none =>
    simp only [Work.visit, hblock] at h
    cases h
  | some block =>
    rw [visit_of_block hblock] at h
    rcases bind_eq_error.mp h with hfold | ⟨_, _, h⟩
    · obtain ⟨⟨s, i⟩, hs, mid, herror⟩ := foldlM_eq_error hfold
      have hs : p.statement? ⟨b, i⟩ = some s := by
        simpa [Program.statement?, hblock] using List.mem_zipIdx_iff_getElem?.mp hs
      rcases bind_eq_error.mp herror with heval | ⟨x, _, h⟩
      · obtain ⟨cause, hcause, rfl⟩ := mapError_eq_error.mp heval
        exact .atStatement hs (Op.explains_of_eval hcause)
      · dsimp only at h
        split_ifs at h
    · cases h

theorem failure_of_run {remaining : Nat} (h : Work.run g p cap remaining w = .error e) : Failure g p cap e := by
  induction remaining generalizing w with
  | zero =>
    rw [Work.run] at h
    split_ifs at h
    cases h
    exact .visitLimit
  | succ remaining ih =>
    rw [Work.run] at h
    split at h
    · cases h
    next b rest _ =>
      rcases bind_eq_error.mp h with hvisit | ⟨next, _, h⟩
      · exact failure_of_visit hvisit
      · exact ih h

end Work

variable {cap : Nat} {e : AnalysisError}

/-- A program that fails its check has no analysis; of all others the analysis fails only for lack of visits
or at a statement. -/
theorem run_eq_error (h : run g p cap = .error e) :
    (∃ c, p.check = .error c ∧ e = .program c) ∨ p.check = .ok () ∧ Failure g p cap e := by
  rcases bind_eq_error.mp h with hcheck | ⟨⟨⟩, hcheck, h⟩
  · obtain ⟨c, hc, rfl⟩ := mapError_eq_error.mp hcheck
    exact Or.inl ⟨c, hc, rfl⟩
  · refine Or.inr ⟨mapError_eq_ok.mp hcheck, ?_⟩
    rcases bind_eq_error.mp h with hrun | ⟨_, _, h⟩
    · exact Work.failure_of_run hrun
    · cases h

/-- An address that the analysis fails on is among the faults that the validation of the program reports, with
the same place, operation and cause. The analysis never looks outside the table of values, and once a program
has passed its check, the analysis fails only for lack of visits or at a statement, and there not because the
atoms had got out of order. -/
theorem run_error_diagnosed (g : LaneGraph) (p : Program) (cap : Nat) :
    (∀ point name c, run g p cap = .error (.atStatement point name (.address c)) →
      (∃ s, p.statement? point = some s ∧ s.op.name = name) ∧
        (⟨point, name, c⟩ : Diagnostic) ∈ p.diagnostics g.device ∧
        ∀ facts : ProgramFacts, facts.graph = some g →
          Pass.addressValidation.run p facts = .error (.validation (p.diagnostics g.device))) ∧
      (p.check = .ok () → ∀ e, run g p cap = .error e → e = .visitLimit cap ∨
        ∃ point name cause, e = .atStatement point name cause ∧ cause ≠ .inconsistent) ∧
      guardedRun g p cap = run g p cap := by
  refine ⟨?_, ?_, guardedRun_eq g p cap⟩
  · intro point name c h
    rcases run_eq_error h with ⟨_, _, he⟩ | ⟨_, hfailure⟩
    · cases he
    cases hfailure with
    | atStatement hs hc =>
      have hmem := Program.mem_diagnostics hs hc
      exact ⟨⟨_, hs, rfl⟩, hmem, fun facts hfacts => Pass.addressValidation_eq_error hfacts hmem⟩
  · intro hcheck e h
    rcases run_eq_error h with ⟨c, hc, _⟩ | ⟨_, hfailure⟩
    · cases hcheck.symm.trans hc
    cases hfailure with
    | visitLimit => exact Or.inl rfl
    | atStatement _ hc =>
      refine Or.inr ⟨_, _, _, rfl, ?_⟩
      rintro rfl
      exact hc

def missingBus : Program where
  blocks := [
    ⟨[], [⟨0, .load⟩], .jump 1 [0]⟩,
    ⟨[1], [⟨2, .fill 1 [⟨0, 0⟩]⟩, ⟨3, .move 2 [⟨.site, 0, 0, 7, .forward⟩]⟩], .ret 3⟩]
  numValues := 4

/-- The fault is reported at the statement at which the analysis fails; with one visit the analysis does not
get there. -/
theorem run_error_diagnosed_missingBus :
    missingBus.check = .ok () ∧
      guardedRun oneWord missingBus 1 = .error (.visitLimit 1) ∧
      guardedRun oneWord missingBus 2 =
        .error (.atStatement ⟨1, 1⟩ "move" (.address (.unknownBus .site 7))) ∧
      ⟨⟨1, 1⟩, "move", .unknownBus .site 7⟩ ∈ missingBus.diagnostics oneWord.device ∧
      Pass.addressValidation.run missingBus { graph := some oneWord } =
        .error (.validation (missingBus.diagnostics oneWord.device)) := by
  have hrun : run oneWord missingBus 2 =
      .error (.atStatement ⟨1, 1⟩ "move" (.address (.unknownBus .site 7))) := rfl
  obtain ⟨hdiagnosed, -, hguarded⟩ := run_error_diagnosed oneWord missingBus 2
  obtain ⟨-, hfault, hpass⟩ := hdiagnosed _ _ _ hrun
  obtain ⟨-, -, hguarded'⟩ := run_error_diagnosed oneWord missingBus 1
  exact ⟨rfl, hguarded'.trans rfl, hguarded.trans hrun, hfault, hpass _ rfl⟩

end Analysis

end AtomTransport
