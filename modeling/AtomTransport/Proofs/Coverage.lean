import Mathlib.Logic.Relation
import AtomTransport.Proofs.PostFixpoint

/-!
# Executions of a program

An execution starts at the entry without any value, evaluates one statement after the other, and binds the
parameters of the next block to the arguments of the edge along which it leaves a block. If nothing in the
result of the analysis is `unknown`, then every execution stays below it: no statement fails, and what an
execution finds or returns is below what the analysis knows.
-/

namespace AtomTransport

namespace Analysis

variable {g : LaneGraph} {p : Program} {a : Analysis} {visited : List Label} {b : Label} {block : Block}
  {env : Var → Value}

theorem containsUnknown_value (h : ∀ x ∈ a.values, x.containsUnknown = false)
    (v : Var) : (a.value v).containsUnknown = false := by
  rw [value, List.getD_eq_getElem?_getD]
  cases hv : a.values[v]? with
  | none => rfl
  | some x => exact h x (List.mem_of_getElem? hv)

/-- Below a post-fixpoint without `unknown` a statement of a visited block succeeds, and its value is
below the known one. -/
theorem PostFixpoint.eval_below (h : a.PostFixpoint g p visited) (hnan : p.NoNaN)
    (hknown : ∀ v, (a.value v).containsUnknown = false) (henv : ∀ v, (env v).le (a.value v) = true)
    (hblock : p.block? b = some block) (hb : b ∈ visited) {s : Statement} (hs : s ∈ block.statements) :
    ∃ x, s.op.eval g env = .ok x ∧ x.le (a.value s.result) = true := by
  obtain ⟨i, hi⟩ := List.getElem?_of_mem hs
  obtain ⟨y, heval, hsame, -⟩ := (h.settled b block hblock hb).statements i s hi
  obtain ⟨x, hx, hle⟩ := Op.eval_mono henv hknown (hnan block (Program.mem_blocks hblock) s hs) heval
  exact ⟨x, hx, Value.le_trans hle (Value.le_of_same (Value.same_symm hsame))⟩

theorem PostFixpoint.accepts_below (h : a.PostFixpoint g p visited)
    (hknown : ∀ v, (a.value v).containsUnknown = false) (henv : ∀ v, (env v).le (a.value v) = true)
    (hblock : p.block? b = some block) (hb : b ∈ visited) {target : Label} {args : List Var}
    (hleads : block.terminator.Leads env target args) : a.Accepts p visited (target, args) :=
  (h.settled b block hblock hb).edges target args (hleads.mono henv hknown)

end Analysis

/-- A point in an execution: the statement that comes next and the value of every number. -/
structure Execution where
  block : Label
  index : Nat
  env : Var → Value

namespace Execution

def bind (env : Var → Value) (params args : List Var) : Var → Value :=
  (params.zip args).foldl (fun bound e => Function.update bound e.1 (env e.2)) env

def initial : Execution := ⟨0, 0, fun _ => .bottom⟩

/-- One step of an execution. There is none where a statement fails, after a return, and at a branch on
nothing. -/
inductive Step (g : LaneGraph) (p : Program) : Execution → Execution → Prop where
  | statement {c : Execution} {block : Block} {s : Statement} {x : Value}
      (hblock : p.block? c.block = some block) (hs : block.statements[c.index]? = some s)
      (heval : s.op.eval g c.env = .ok x) :
      Step g p c ⟨c.block, c.index + 1, Function.update c.env s.result x⟩
  | leave {c : Execution} {block next : Block} {target : Label} {args : List Var}
      (hblock : p.block? c.block = some block) (hend : c.index = block.statements.length)
      (hleads : block.terminator.Leads c.env target args) (hnext : p.block? target = some next) :
      Step g p c ⟨target, 0, bind c.env next.params args⟩

def Reached (g : LaneGraph) (p : Program) : Execution → Prop :=
  Relation.ReflTransGen (Step g p) initial

def Fails (g : LaneGraph) (p : Program) (c : Execution) (e : AtomError) : Prop :=
  ∃ block s, p.block? c.block = some block ∧ block.statements[c.index]? = some s ∧
    s.op.eval g c.env = .error e

def Returns (p : Program) (c : Execution) (x : Value) : Prop :=
  ∃ block v, p.block? c.block = some block ∧ c.index = block.statements.length ∧
    block.terminator = .ret v ∧ x = c.env v

variable {g : LaneGraph} {p : Program} {a : Analysis} {visited : List Label} {c c' : Execution}

theorem update_le {env : Var → Value} (henv : ∀ v, (env v).le (a.value v) = true) {u : Var} {x : Value}
    (hx : x.le (a.value u) = true) (v : Var) : (Function.update env u x v).le (a.value v) = true := by
  by_cases hv : v = u
  · rw [hv, Function.update_self]
    exact hx
  · rw [Function.update_of_ne hv]
    exact henv v

theorem bind_le {env : Var → Value} {params args : List Var} (henv : ∀ v, (env v).le (a.value v) = true)
    (hargs : List.Forall₂ (fun arg param => (a.value arg).le (a.value param) = true) args params) :
    ∀ v, (bind env params args v).le (a.value v) = true := by
  have hzip : ∀ e ∈ params.zip args, (env e.2).le (a.value e.1) = true := by
    intro e he
    have hle := (List.forall₂_iff_zip.mp hargs.flip).2 he
    exact Value.le_trans (henv e.2) hle
  -- The induction is over the bindings; what has been bound so far is below.
  have hfold : ∀ (bindings : List (Var × Var)) (bound : Var → Value),
      (∀ e ∈ bindings, (env e.2).le (a.value e.1) = true) → (∀ v, (bound v).le (a.value v) = true) →
      ∀ v, (bindings.foldl (fun bound e => Function.update bound e.1 (env e.2)) bound v).le
        (a.value v) = true := by
    intro bindings
    induction bindings with
    | nil => exact fun bound _ hbound => hbound
    | cons e rest ih =>
      intro bound hle hbound
      rw [List.forall_mem_cons] at hle
      exact ih _ hle.2 (update_le hbound hle.1)
  exact hfold _ env hzip henv

/-- An execution is where the analysis has been, with values below those that are known. -/
structure Covered (a : Analysis) (visited : List Label) (c : Execution) : Prop where
  block : c.block ∈ visited
  env : ∀ v, (c.env v).le (a.value v) = true

theorem Covered.returns_le (hpost : a.PostFixpoint g p visited) (hc : Covered a visited c) {x : Value}
    (hx : c.Returns p x) : x.le a.returned = true := by
  obtain ⟨block, v, hblock, -, hret, rfl⟩ := hx
  exact Value.le_trans (hc.env v) ((hpost.settled c.block block hblock hc.block).returns v hret)

section Below

variable (hpost : a.PostFixpoint g p visited) (hnan : p.NoNaN)
  (hknown : ∀ v, (a.value v).containsUnknown = false)
include hpost hnan hknown

theorem Covered.step (hc : Covered a visited c) (hstep : Step g p c c') : Covered a visited c' := by
  cases hstep with
  | statement hblock hs heval =>
    obtain ⟨y, hy, hle⟩ := hpost.eval_below hnan hknown hc.env hblock hc.block
      (List.mem_of_getElem? hs)
    cases hy.symm.trans heval
    exact ⟨hc.block, update_le hc.env hle⟩
  | leave hblock hend hleads hnext =>
    obtain ⟨htarget, block, hblock', hargs⟩ := hpost.accepts_below hknown hc.env hblock hc.block hleads
    cases hnext.symm.trans hblock'
    exact ⟨htarget, bind_le hc.env hargs⟩

theorem Reached.covered (h : Reached g p c) : Covered a visited c := by
  induction h with
  | refl => exact ⟨hpost.entry, fun v => Value.bottom_le _⟩
  | tail _ hstep ih => exact ih.step hpost hnan hknown hstep

theorem Covered.not_fails (hc : Covered a visited c) (e : AtomError) : ¬ c.Fails g p e := by
  rintro ⟨block, s, hblock, hs, herror⟩
  obtain ⟨x, hx, -⟩ := hpost.eval_below hnan hknown hc.env hblock hc.block
      (List.mem_of_getElem? hs)
  cases hx.symm.trans herror

end Below

end Execution

/-- If no known value is or contains `unknown`, the analysis covers every execution. -/
theorem Analysis.covers_executions {g : LaneGraph} {p : Program} (hp : p.SingleAssignment)
    (hnan : p.NoNaN) {cap : Nat} {a : Analysis} (h : Analysis.run g p cap = .ok a)
    (hknown : ∀ x ∈ a.values, x.containsUnknown = false) {c : Execution} (hc : c.Reached g p) :
    (∀ e, ¬ c.Fails g p e) ∧ (∀ v, (c.env v).le (a.value v) = true) ∧
      ∀ x, c.Returns p x → x.le a.returned = true := by
  obtain ⟨hwf, w, hw, rfl⟩ := Analysis.run_eq_ok h
  have hpost := Analysis.Work.run_postFixpoint hp hnan hwf hw
  have hknown := Analysis.containsUnknown_value hknown
  have hcovered := Execution.Reached.covered hpost hnan hknown hc
  exact ⟨hcovered.not_fails hpost hnan hknown, hcovered.env,
    fun x hx => hcovered.returns_le hpost hx⟩

def roundTrip : Program where
  blocks := [
    ⟨[], [⟨0, .load⟩, ⟨1, .fill 0 [⟨0, 0⟩]⟩, ⟨2, .constant (.int 0)⟩], .jump 1 [1]⟩,
    ⟨[3], [⟨4, .move 3 [⟨.site, 0, 0, 0, .forward⟩]⟩, ⟨5, .move 4 [⟨.site, 0, 0, 0, .backward⟩]⟩],
      .branch 2 1 [5] 2 [5]⟩,
    ⟨[6], [], .ret 6⟩]
  numValues := 7

theorem roundTrip_singleAssignment : roundTrip.SingleAssignment := by decide

theorem roundTrip_noNaN : roundTrip.NoNaN := by decide

theorem exists_run_roundTrip : ∃ a, Analysis.run Analysis.oneWord roundTrip 4 = .ok a ∧
    ∀ x ∈ a.values, x.containsUnknown = false := by
  have hrun : ((Analysis.run Analysis.oneWord roundTrip 4).toOption.any fun a =>
      a.values.all fun x => !x.containsUnknown) = true := by
    decide +kernel
  obtain ⟨a, ha, hknown⟩ := exists_ok_of_any hrun
  exact ⟨a, ha, by simpa using hknown⟩

/-- One execution runs through the loop twice and returns its atom. -/
theorem exists_reached_roundTrip : ∃ (c : Execution) (x : Atoms),
    c.Reached Analysis.oneWord roundTrip ∧ c.Returns roundTrip (.atoms x) := by
  have start : Execution.Reached Analysis.oneWord roundTrip .initial := .refl
  have loaded := start.tail (.statement rfl rfl rfl)
  have filled := loaded.tail (.statement rfl rfl rfl)
  have chosen := filled.tail (.statement rfl rfl rfl)
  have entered := chosen.tail (.leave rfl rfl (.jump _ _) rfl)
  have there := entered.tail (.statement rfl rfl rfl)
  have back := there.tail (.statement rfl rfl rfl)
  have again := back.tail (.leave rfl rfl (.eitherThen (by nofun) (by nofun) _ _ _ _) rfl)
  have there' := again.tail (.statement rfl rfl rfl)
  have back' := there'.tail (.statement rfl rfl rfl)
  have left := back'.tail (.leave rfl rfl (.eitherElse (by nofun) (by nofun) _ _ _ _) rfl)
  exact ⟨_, _, left, _, _, rfl, rfl, rfl, rfl⟩

/-- The analysis covers the execution that runs through the loop twice. -/
theorem covers_executions_roundTrip : ∃ (a : Analysis) (c : Execution) (x : Atoms),
    Analysis.run Analysis.oneWord roundTrip 4 = .ok a ∧ (∀ y ∈ a.values, y.containsUnknown = false) ∧
      c.Reached Analysis.oneWord roundTrip ∧ c.Returns roundTrip (.atoms x) ∧
      (∀ e, ¬ c.Fails Analysis.oneWord roundTrip e) ∧ (∀ v, (c.env v).le (a.value v) = true) ∧
      (Value.atoms x).le a.returned = true := by
  obtain ⟨a, ha, hknown⟩ := exists_run_roundTrip
  obtain ⟨c, x, hc, hx⟩ := exists_reached_roundTrip
  obtain ⟨hfails, hle, hreturns⟩ :=
    Analysis.covers_executions roundTrip_singleAssignment roundTrip_noNaN ha hknown hc
  exact ⟨a, c, x, ha, hknown, hc, hx, hfails, hle, hreturns _ hx⟩

end AtomTransport
