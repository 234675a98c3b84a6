import AtomTransport.Proofs.Coverage

/-!
# What a program returns

The analysis joins what a block returns at each of its visits, and a value of an earlier visit stays in the
join when a later visit of the block finds another one. What is reported is therefore never below the join
of the final values that the visited blocks return, and may be above it. If no final value is `unknown`,
every value that a visit ever finds is below the final one, and then the two agree.
-/

namespace AtomTransport

namespace Value

variable {x z : Value} {xs : List Value}

theorem foldl_join_le (hx : x.le z = true) (hxs : ∀ y ∈ xs, y.le z = true) :
    (xs.foldl join x).le z = true := by
  induction xs generalizing x with
  | nil => exact hx
  | cons y ys ih =>
    rw [List.forall_mem_cons] at hxs
    exact ih (join_le hx hxs.1) hxs.2

theorem le_foldl_join (hx : x.same x = true) (hxs : ∀ y ∈ xs, y.same y = true) :
    x.le (xs.foldl join x) = true ∧ ∀ y ∈ xs, y.le (xs.foldl join x) = true := by
  induction xs generalizing x with
  | nil => exact ⟨le_of_same hx, by simp⟩
  | cons y ys ih =>
    rw [List.forall_mem_cons] at hxs
    obtain ⟨hjoin, hys⟩ := ih (join_same_self hx hxs.1) hxs.2
    rw [List.foldl_cons, List.forall_mem_cons]
    exact ⟨le_trans (le_join_left y hx) hjoin, le_trans (le_join_right x hxs.1) hjoin, hys⟩

end Value

def Terminator.returned? : Terminator → Option Var
  | ret v => some v
  | _ => none

namespace Analysis

def returns (a : Analysis) (p : Program) (blocks : List Label) : List Value :=
  blocks.filterMap fun b => ((p.block? b).bind (·.terminator.returned?)).map a.value

def joinReturns (a : Analysis) (p : Program) (blocks : List Label) : Value :=
  (a.returns p blocks).foldl Value.join .bottom

variable {g : LaneGraph} {p : Program} {a : Analysis} {visited : List Label} {b : Label} {block : Block}

theorem mem_returns {x : Value} : x ∈ a.returns p visited ↔
    ∃ b ∈ visited, ∃ block v, p.block? b = some block ∧ block.terminator = .ret v ∧ a.value v = x := by
  have hret : ∀ (t : Terminator) v, t.returned? = some v ↔ t = .ret v := by
    intro t v
    cases t <;> simp [Terminator.returned?]
  simp [returns, Option.bind_eq_some_iff, hret]

theorem PostFixpoint.joinReturns_le (h : a.PostFixpoint g p visited) :
    (a.joinReturns p visited).le a.returned = true := by
  apply Value.foldl_join_le (Value.bottom_le _)
  intro x hx
  obtain ⟨b, hb, block, v, hblock, hret, rfl⟩ := mem_returns.mp hx
  exact (h.settled b block hblock hb).returns v hret

theorem le_joinReturns (ha : ∀ v, (a.value v).same (a.value v) = true) (hblock : p.block? b = some block)
    (hb : b ∈ visited) {v : Var} (hret : block.terminator = .ret v) :
    (a.value v).le (a.joinReturns p visited) = true := by
  apply (Value.le_foldl_join rfl ?_).2
  · exact mem_returns.mpr ⟨b, hb, block, v, hblock, hret, rfl⟩
  · intro x hx
    obtain ⟨_, _, _, u, _, _, rfl⟩ := mem_returns.mp hx
    exact ha u

namespace Work

structure Below (p : Program) (a : Analysis) (visited : List Label) (w : Work) : Prop where
  values : ∀ v, (w.known.value v).le (a.value v) = true
  returned : w.known.returned.le (a.joinReturns p visited) = true
  reached : ∀ b ∈ w.visited ++ w.queue, b ∈ visited

variable {w w' : Work} {cap remaining : Nat}

theorem Below.enqueueAll (h : Below p a visited w) {bs : List Label} (hbs : ∀ b ∈ bs, b ∈ visited) :
    Below p a visited (w.enqueueAll bs) := by
  obtain ⟨hknown, hvisited, hqueue⟩ := enqueueAll_fields w bs
  refine ⟨hknown ▸ h.values, hknown ▸ h.returned, fun b hb => ?_⟩
  rw [hvisited, List.mem_append, hqueue, ← or_assoc, ← List.mem_append] at hb
  exact hb.elim (h.reached b) (hbs b)

theorem Below.write (h : Below p a visited w) {v : Var} {x : Value} (hx : x.le (a.value v) = true)
    {bs : List Label} (hbs : ∀ b ∈ bs, b ∈ w.visited) :
    Below p a visited ((w.setValue v x).enqueueAll bs) := by
  have hset : Below p a visited (w.setValue v x) := by
    refine ⟨fun u => ?_, h.returned, h.reached⟩
    by_cases hu : u = v
    · subst hu
      by_cases hlt : u < w.known.values.length
      · rw [value_setValue_self hlt]
        exact hx
      · simp [setValue, value, Nat.le_of_not_lt hlt]
    · rw [value_setValue_of_ne hu]
      exact h.values u
  exact hset.enqueueAll fun b hb => h.reached b (List.mem_append_left _ (hbs b hb))

theorem Below.record (h : Below p a visited w) (point : Point) (op : Op) (x : Value) :
    Below p a visited (w.record point op x) := by
  obtain ⟨-, hreturned, hqueue, hvisited⟩ := record_fields (w := w) point op x
  refine ⟨?_, ?_, ?_⟩
  · rw [value_record]
    exact h.values
  · rw [hreturned]
    exact h.returned
  · rw [hvisited, hqueue]
    exact h.reached

theorem Below.bindParam {changed changed' : Bool} {param arg : Var} (h : Below p a visited w)
    (hle : (a.value arg).le (a.value param) = true)
    (hbind : bindParam p (w, changed) (param, arg) = (w', changed')) : Below p a visited w' := by
  rcases bindParam_eq hbind with ⟨-, rfl, -⟩ | ⟨rfl, -⟩
  · exact h
  · apply h.write (Value.join_le (h.values param) (Value.le_trans (h.values arg) hle))
    intro b hb
    exact List.contains_iff_mem.mp (List.mem_filter.mp hb).2

theorem Below.bindParams {bindings : List (Var × Var)} {changed changed' : Bool}
    (h : Below p a visited w) (hle : ∀ e ∈ bindings, (a.value e.2).le (a.value e.1) = true)
    (hbind : bindings.foldl (Work.bindParam p) (w, changed) = (w', changed')) : Below p a visited w' := by
  induction bindings generalizing w changed with
  | nil =>
    cases hbind
    exact h
  | cons e rest ih =>
    rw [List.forall_mem_cons] at hle
    rw [List.foldl_cons] at hbind
    exact ih (h.bindParam hle.1 rfl) hle.2 hbind

theorem Below.followEdge {edge : Label × List Var} (h : Below p a visited w)
    (haccepts : a.Accepts p visited edge) : Below p a visited (w.followEdge p edge) := by
  obtain ⟨hreached, target, htarget, hargs⟩ := haccepts
  obtain ⟨mid, flag, hfold, hfollow⟩ := followEdge_eq (w := w) htarget
  have hmid : Below p a visited mid :=
    h.bindParams (fun e he => (List.forall₂_iff_zip.mp hargs.flip).2 he) hfold
  have htarget : ∀ b ∈ [edge.1], b ∈ visited := by simpa using hreached
  rw [hfollow]
  cases flag with
  | false => exact hmid
  | true => exact hmid.enqueueAll htarget

theorem Below.followEdges {edges : List (Label × List Var)} (h : Below p a visited w)
    (haccepts : ∀ edge ∈ edges, a.Accepts p visited edge) :
    Below p a visited (edges.foldl (Work.followEdge p) w) := by
  induction edges generalizing w with
  | nil => exact h
  | cons edge rest ih =>
    rw [List.forall_mem_cons] at haccepts
    exact ih (h.followEdge haccepts.1) haccepts.2

theorem Below.leave (h : Below p a visited w) (ha : ∀ v, (a.value v).same (a.value v) = true)
    (hblock : p.block? b = some block) (hb : b ∈ visited) : Below p a visited (w.leave block.terminator) := by
  cases hret : block.terminator with
  | ret v =>
    refine ⟨h.values, ?_, h.reached⟩
    exact Value.join_le h.returned (Value.le_trans (h.values v) (le_joinReturns ha hblock hb hret))
  | _ => exact h

section Final

variable (hpost : a.PostFixpoint g p visited) (hnan : p.NoNaN)
  (hknown : ∀ v, (a.value v).containsUnknown = false)
include hpost hnan hknown

theorem Below.runStatement {point : Point} {s : Statement} (h : Below p a visited w)
    (hblock : p.block? b = some block) (hb : b ∈ visited) (hs : s ∈ block.statements)
    (hrun : w.runStatement g p point s = .ok w') : Below p a visited w' := by
  obtain ⟨x, heval, hw'⟩ := runStatement_eq_ok hrun
  obtain ⟨y, hy, hle⟩ := hpost.eval_below hnan hknown h.values hblock hb hs
  cases heval.symm.trans hy
  obtain ⟨-, rfl⟩ | rfl := hw'
  · exact h.record point s.op x
  · apply (h.record point s.op x).write hle
    intro c hc
    have hvisited := (List.mem_filter.mp hc).2
    rw [Bool.and_eq_true] at hvisited
    rw [(record_fields point s.op x).2.2.2]
    exact List.contains_iff_mem.mp hvisited.2

theorem Below.runStatements {rest : List Statement} {i : Nat} (h : Below p a visited w)
    (hblock : p.block? b = some block) (hb : b ∈ visited) (hrest : ∀ s ∈ rest, s ∈ block.statements)
    (hrun : (rest.zipIdx i).foldlM (fun w (s, i) => w.runStatement g p ⟨b, i⟩ s) w = .ok w') :
    Below p a visited w' := by
  induction rest generalizing i w with
  | nil =>
    cases hrun
    exact h
  | cons s rest ih =>
    rw [List.forall_mem_cons] at hrest
    rw [List.zipIdx_cons, List.foldlM_cons] at hrun
    obtain ⟨mid, hmid, hrun⟩ := bind_eq_ok.mp hrun
    exact ih (h.runStatement hpost hnan hknown hblock hb hrest.1 hmid) hrest.2 hrun

theorem Below.visit (ha : ∀ v, (a.value v).same (a.value v) = true) (h : Below p a visited w)
    {rest : List Label} (hqueue : w.queue = b :: rest)
    (hvisit : Work.visit g p { w with queue := rest } b = .ok w') : Below p a visited w' := by
  have hb : b ∈ visited := h.reached b (by simp [hqueue])
  have hmark : Below p a visited (mark { w with queue := rest } b) := by
    refine ⟨h.values, h.returned, fun c hc => ?_⟩
    rcases List.mem_append.mp hc with hc | hc
    · rcases mem_visited_mark.mp hc with hc | rfl
      · exact h.reached c (List.mem_append_left _ hc)
      · exact hb
    · exact h.reached c (List.mem_append_right _ (hqueue ▸ List.mem_cons_of_mem _ hc))
  cases hblock : p.block? b with
  | none =>
    simp only [Work.visit, hblock] at hvisit
    cases hvisit
    exact hmark
  | some block =>
    obtain ⟨mid, hfold, rfl⟩ := visit_eq_ok hblock hvisit
    have hmid := hmark.runStatements hpost hnan hknown hblock hb (fun _ hs => hs) hfold
    apply Below.leave _ ha hblock hb
    apply hmid.followEdges
    intro edge hedge
    exact hpost.accepts_below hknown hmid.values hblock hb (Terminator.mem_takenEdges_iff.mp hedge)

end Final

theorem Below.initial (hpost : a.PostFixpoint g p visited) (hwf : p.WellFormed) :
    Below p a visited (initial p) := by
  obtain ⟨entry, hentry⟩ := hwf.entry
  refine ⟨fun v => ?_, Value.bottom_le _, ?_⟩
  · rw [initial_value hentry]
    split_ifs with hv
    · exact Value.unknown_le_iff.mpr (hpost.arguments entry hentry v hv.1)
    · exact Value.bottom_le _
  · intro b hb
    rw [List.mem_singleton.mp hb]
    exact hpost.entry

end Work

/-- What the analysis reports as returned is above the join of the final values that the visited blocks
return, and it is equal to it if no final value is or contains `unknown`. -/
theorem run_returned (hp : p.SingleAssignment) (hnan : p.NoNaN) {cap : Nat}
    (h : Analysis.run g p cap = .ok a) :
    ∃ w, Work.run g p cap cap (Work.initial p) = .ok w ∧ w.known = a ∧
      (a.joinReturns p w.visited).le a.returned = true ∧
      ((∀ x ∈ a.values, x.containsUnknown = false) →
        a.returned.equiv (a.joinReturns p w.visited) = true) := by
  obtain ⟨hwf, w, hw, rfl⟩ := run_eq_ok h
  have hpost := Work.run_postFixpoint hp hnan hwf hw
  have hlower := hpost.joinReturns_le
  refine ⟨w, hw, rfl, hlower, fun hknown => ?_⟩
  have hcomparable := (Work.run_invariant hp hnan hwf hw).1.comparable.values
  obtain ⟨hbelow, -⟩ := Work.run_induction
    (fun _ _ _ _ hw hqueue hvisit => Work.Below.visit hpost hnan (containsUnknown_value hknown) hcomparable
      hw hqueue hvisit)
    (Work.Below.initial hpost hwf) hw
  rw [Value.equiv, Bool.and_eq_true]
  exact ⟨hbelow.returned, hlower⟩

/-- The loop returns exactly what its last block returns. -/
theorem run_returned_roundTrip : ∃ a w, Analysis.run oneWord roundTrip 4 = .ok a ∧
    Work.run oneWord roundTrip 4 4 (Work.initial roundTrip) = .ok w ∧ w.known = a ∧
    (a.joinReturns roundTrip w.visited).le a.returned = true ∧
    a.returned.equiv (a.joinReturns roundTrip w.visited) = true := by
  obtain ⟨a, ha, hknown⟩ := exists_run_roundTrip
  obtain ⟨w, hw, hwa, hle, hequiv⟩ := run_returned roundTrip_singleAssignment roundTrip_noNaN ha
  exact ⟨a, w, ha, hw, hwa, hle, hequiv hknown⟩

/-- After the uneven merge nothing is returned any more, but the atom that the first visit of the last
block has returned is still reported. -/
theorem stale_return : unevenMerge.SingleAssignment ∧ unevenMerge.NoNaN ∧
    ∃ w, Analysis.run oneWord unevenMerge 4 = .ok w.known ∧
      Work.run oneWord unevenMerge 4 4 (Work.initial unevenMerge) = .ok w ∧
      w.known.joinReturns unevenMerge w.visited = .bottom ∧ (w.known.returned.atoms?).isSome = true ∧
      w.known.returned.equiv (w.known.joinReturns unevenMerge w.visited) = false := by
  have hrun : ((Work.run oneWord unevenMerge 4 4 (Work.initial unevenMerge)).toOption.any fun w =>
      (w.known.joinReturns unevenMerge w.visited).isBottom && w.known.returned.atoms?.isSome) = true := by
    decide +kernel
  obtain ⟨w, hw, hstale⟩ := exists_ok_of_any hrun
  rw [Bool.and_eq_true] at hstale
  have hbottom : w.known.joinReturns unevenMerge w.visited = .bottom := by
    revert hstale
    cases w.known.joinReturns unevenMerge w.visited <;> simp [Value.isBottom]
  have hcheck : unevenMerge.check = .ok () := by decide
  refine ⟨unevenMerge_singleAssignment, unevenMerge_noNaN, w, ?_, hw, hbottom, hstale.2, ?_⟩
  · simp only [Analysis.run, hcheck, Except.mapError, ok_bind, hw]
  · rw [hbottom]
    revert hstale
    cases w.known.returned <;> simp [Value.equiv, Value.atoms?, Value.le]

end Analysis

end AtomTransport
