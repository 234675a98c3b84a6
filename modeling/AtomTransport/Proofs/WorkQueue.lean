import AtomTransport.Proofs.SingleAssignment
import AtomTransport.Proofs.StraightLine

/-!
# The parts of a visit

A visit evaluates statements, passes arguments and joins what is returned. `Frame` says what any of these
parts leaves alone: a block that has been visited and is not put into the queue keeps all values that it
reads, results and records belong to their own block, and parameters and the returned value only go up.
Beside it stands what each part achieves: a statement that has been run `Holds`, and an edge that has been
followed is one that the target `Accepts`.
-/

namespace AtomTransport

namespace Analysis

def Records (a : Analysis) (point : Point) (x : Value) : Op → Prop
  | .setDetector _ coordinates => Ascending.get? point a.detectors = some ⟨x, coordinates⟩
  | .setObservable _ index => Ascending.get? point a.observables = some ⟨x, index⟩
  | op => op.producesState = true → a.stateAt? point = some x

/-- A statement holds if its operation has a value under what is known, this value is the one known for
its result, and it has been recorded. -/
def Holds (g : LaneGraph) (a : Analysis) (point : Point) (s : Statement) : Prop :=
  ∃ x, s.op.eval g a.value = .ok x ∧ (a.value s.result).same x = true ∧ a.Records point x s.op

/-- The target of an edge accepts its arguments if it is among the reached blocks and every argument is
below its parameter. -/
def Accepts (p : Program) (a : Analysis) (reached : List Label) (edge : Label × List Var) : Prop :=
  edge.1 ∈ reached ∧ ∃ target, p.block? edge.1 = some target ∧
    List.Forall₂ (fun arg param => (a.value arg).le (a.value param) = true) edge.2 target.params

namespace Work

variable {g : LaneGraph} {p : Program} {w w' w'' : Work} {own : List Label} {b : Label} {block : Block}
  {point : Point} {s : Statement}

section Updates

variable {v u : Var} {x : Value}

theorem enqueue_fields (w : Work) (b : Label) : (w.enqueue b).known = w.known ∧
    (w.enqueue b).visited = w.visited ∧ ∀ c, c ∈ (w.enqueue b).queue ↔ c ∈ w.queue ∨ c = b := by
  rw [enqueue]
  split_ifs with h
  · refine ⟨rfl, rfl, fun c => ⟨Or.inl, ?_⟩⟩
    rintro (hc | rfl)
    · exact hc
    · exact List.contains_iff_mem.mp h
  · exact ⟨rfl, rfl, fun c => by simp⟩

theorem enqueueAll_fields (w : Work) (bs : List Label) : (w.enqueueAll bs).known = w.known ∧
    (w.enqueueAll bs).visited = w.visited ∧
      ∀ c, c ∈ (w.enqueueAll bs).queue ↔ c ∈ w.queue ∨ c ∈ bs := by
  induction bs generalizing w with
  | nil => simp [enqueueAll]
  | cons b bs ih =>
    obtain ⟨hknown, hvisited, hqueue⟩ := ih (w.enqueue b)
    obtain ⟨hknown', hvisited', hqueue'⟩ := enqueue_fields w b
    refine ⟨hknown.trans hknown', hvisited.trans hvisited', fun c => ?_⟩
    rw [show (w.enqueueAll (b :: bs)).queue = ((w.enqueue b).enqueueAll bs).queue from rfl, hqueue, hqueue',
      List.mem_cons, or_assoc]

theorem value_setValue_of_ne (h : v ≠ u) : (w.setValue u x).known.value v = w.known.value v := by
  simp [setValue, value, List.getElem?_set_ne h.symm]

theorem value_setValue_self (h : v < w.known.values.length) : (w.setValue v x).known.value v = x := by
  simp [setValue, value, h]

end Updates

/-- All known values are equal to themselves, so that the order can compare them. -/
structure Comparable (w : Work) : Prop where
  values : ∀ v, (w.known.value v).same (w.known.value v) = true
  returned : w.known.returned.same w.known.returned = true

/-- What a part of a visit leaves alone, where the blocks in `own` are taken care of by other means. -/
structure Frame (p : Program) (own : List Label) (w w' : Work) : Prop where
  visited : w'.visited = w.visited
  queue : w.queue ⊆ w'.queue
  length : w'.known.values.length = w.known.values.length
  reads : ∀ v, ∀ c ∈ p.users v, c ∈ w.visited → c ∉ own → c ∉ w'.queue →
    w'.known.value v = w.known.value v
  results : ∀ c block, p.block? c = some block → c ∉ own → ∀ s ∈ block.statements,
    w'.known.value s.result = w.known.value s.result
  params : ∀ block ∈ p.blocks, ∀ v ∈ block.params, ∀ x : Value, x.le (w.known.value v) = true →
    x.le (w'.known.value v) = true
  records : ∀ point, point.block ∉ own → ∀ x op, w.known.Records point x op → w'.known.Records point x op
  returned : ∀ x : Value, x.le w.known.returned = true → x.le w'.known.returned = true

namespace Frame

theorem refl (p : Program) (own : List Label) (w : Work) : Frame p own w w where
  visited := rfl
  queue := List.Subset.refl _
  length := rfl
  reads _ _ _ _ _ _ := rfl
  results _ _ _ _ _ _ := rfl
  params _ _ _ _ _ h := h
  records _ _ _ _ h := h
  returned _ h := h

theorem trans (h : Frame p own w w') (h' : Frame p own w' w'') : Frame p own w w'' where
  visited := h'.visited.trans h.visited
  queue := List.Subset.trans h.queue h'.queue
  length := h'.length.trans h.length
  reads v c hc hvisited hown hqueue :=
    (h'.reads v c hc (h.visited ▸ hvisited) hown hqueue).trans
      (h.reads v c hc hvisited hown fun hc => hqueue (h'.queue hc))
  results c block hblock hown s hs :=
    (h'.results c block hblock hown s hs).trans (h.results c block hblock hown s hs)
  params block hblock v hv x hx := h'.params block hblock v hv x (h.params block hblock v hv x hx)
  records point hown x op hx := h'.records point hown x op (h.records point hown x op hx)
  returned x hx := h'.returned x (h.returned x hx)

theorem weaken (h : Frame p [] w w') (own : List Label) : Frame p own w w' where
  visited := h.visited
  queue := h.queue
  length := h.length
  reads v c hc hvisited _ hqueue := h.reads v c hc hvisited List.not_mem_nil hqueue
  results c block hblock _ s hs := h.results c block hblock List.not_mem_nil s hs
  params := h.params
  records point _ x op hx := h.records point List.not_mem_nil x op hx
  returned := h.returned

theorem eval_eq (h : Frame p own w w') (hblock : p.block? b = some block) (hvisited : b ∈ w.visited)
    (hown : b ∉ own) (hqueue : b ∉ w'.queue) (hs : s ∈ block.statements) :
    s.op.eval g w'.known.value = s.op.eval g w.known.value := by
  apply Op.eval_congr
  intro v hv
  exact h.reads v b (Program.mem_users_iff.mpr ⟨block, hblock, Or.inl ⟨s, hs, hv⟩⟩) hvisited hown hqueue

theorem value_eq_of_operand (h : Frame p own w w') (hblock : p.block? b = some block)
    (hvisited : b ∈ w.visited) (hown : b ∉ own) (hqueue : b ∉ w'.queue) {v : Var}
    (hv : v ∈ block.terminator.operands) : w'.known.value v = w.known.value v :=
  h.reads v b (Program.mem_users_iff.mpr ⟨block, hblock, Or.inr hv⟩) hvisited hown hqueue

theorem holds (h : Frame p own w w') (hblock : p.block? b = some block) (hvisited : b ∈ w.visited)
    (hown : b ∉ own) (hqueue : b ∉ w'.queue) {i : Nat} (hs : s ∈ block.statements)
    (hholds : w.known.Holds g ⟨b, i⟩ s) : w'.known.Holds g ⟨b, i⟩ s := by
  obtain ⟨x, heval, hsame, hrecords⟩ := hholds
  refine ⟨x, ?_, ?_, h.records _ hown x s.op hrecords⟩
  · rw [h.eval_eq hblock hvisited hown hqueue hs, heval]
  · rw [h.results b block hblock hown s hs]
    exact hsame

theorem le_param (h : Frame p own w w') (hblock : p.block? b = some block) (hvisited : b ∈ w.visited)
    (hown : b ∉ own) (hqueue : b ∉ w'.queue) {target : Block} (htarget : target ∈ p.blocks) {arg param : Var}
    (harg : arg ∈ block.terminator.operands) (hparam : param ∈ target.params)
    (hle : (w.known.value arg).le (w.known.value param) = true) :
    (w'.known.value arg).le (w'.known.value param) = true := by
  rw [h.value_eq_of_operand hblock hvisited hown hqueue harg]
  exact h.params target htarget param hparam _ hle

theorem accepts (h : Frame p own w w') (hblock : p.block? b = some block) (hvisited : b ∈ w.visited)
    (hown : b ∉ own) (hqueue : b ∉ w'.queue) {edge : Label × List Var}
    (hedge : edge ∈ block.terminator.successors)
    (haccepts : w.known.Accepts p (w.visited ++ w.queue) edge) :
    w'.known.Accepts p (w'.visited ++ w'.queue) edge := by
  obtain ⟨hreached, target, htarget, hargs⟩ := haccepts
  refine ⟨?_, target, htarget, ?_⟩
  · rw [h.visited]
    rcases List.mem_append.mp hreached with hreached | hreached
    · exact List.mem_append_left _ hreached
    · exact List.mem_append_right _ (h.queue hreached)
  · rw [List.forall₂_iff_get] at hargs ⊢
    refine ⟨hargs.1, fun i hi hi' => ?_⟩
    have harg : edge.2[i] ∈ block.terminator.operands :=
      Terminator.mem_operands_of_mem_successors hedge (List.getElem_mem hi)
    exact h.le_param hblock hvisited hown hqueue (Program.mem_blocks htarget) harg (List.getElem_mem hi')
      (hargs.2 i hi hi')

end Frame

section Write

variable {v : Var} {x : Value} {bs : List Label}

theorem value_write_of_ne {u : Var} (h : u ≠ v) :
    ((w.setValue v x).enqueueAll bs).known.value u = w.known.value u := by
  rw [(enqueueAll_fields _ _).1, value_setValue_of_ne h]

theorem value_write_self (h : v < w.known.values.length) :
    ((w.setValue v x).enqueueAll bs).known.value v = x := by
  rw [(enqueueAll_fields _ _).1, value_setValue_self h]

theorem Comparable.write (hw : w.Comparable) (hx : x.same x = true) :
    ((w.setValue v x).enqueueAll bs).Comparable := by
  constructor
  · intro u
    rw [(enqueueAll_fields _ _).1]
    by_cases hu : u = v
    · subst hu
      by_cases hlt : u < w.known.values.length
      · rw [value_setValue_self hlt]
        exact hx
      · simp [setValue, value, Nat.le_of_not_lt hlt, Value.same]
    · rw [value_setValue_of_ne hu]
      exact hw.values u
  · rw [(enqueueAll_fields _ _).1]
    exact hw.returned

/-- Writing one value is within the frame if the visited blocks that read it are put into the queue, it is
a result of a block that is taken care of or else a parameter, and as a parameter it goes up. -/
theorem Frame.write (hlt : v < w.known.values.length)
    (hreads : ∀ c ∈ p.users v, c ∈ w.visited → c ∉ own → c ∈ bs)
    (hresults : ∀ c block, p.block? c = some block → c ∉ own → ∀ s ∈ block.statements, s.result ≠ v)
    (hparams : ∀ block ∈ p.blocks, v ∈ block.params → ∀ y : Value, y.le (w.known.value v) = true →
      y.le x = true) :
    Frame p own w ((w.setValue v x).enqueueAll bs) := by
  obtain ⟨hknown, hvisited, hqueue⟩ := enqueueAll_fields (w.setValue v x) bs
  constructor
  case visited => exact hvisited
  case queue => exact fun c hc => (hqueue c).mpr (Or.inl hc)
  case length =>
    rw [hknown]
    exact List.length_set
  case reads =>
    intro u c hc hv hown hqueued
    apply value_write_of_ne
    rintro rfl
    exact hqueued ((hqueue c).mpr (Or.inr (hreads c hc hv hown)))
  case results =>
    intro c block hblock hown s hs
    exact value_write_of_ne (hresults c block hblock hown s hs)
  case params =>
    intro block hblock u hu y hy
    by_cases huv : u = v
    · subst huv
      rw [value_write_self hlt]
      exact hparams block hblock hu y hy
    · rw [value_write_of_ne huv]
      exact hy
  case records =>
    intro point _ y op hy
    rw [hknown]
    cases op <;> exact hy
  case returned =>
    intro y hy
    rw [hknown]
    exact hy

end Write

section Statements

variable {x : Value}

theorem record_self (w : Work) (point : Point) (op : Op) (x : Value) :
    (w.record point op x).known.Records point x op := by
  cases op <;> simp [record, Records, stateAt?, Op.producesState, Op.stateInput?]

theorem records_record_of_ne {point' : Point} (hne : point' ≠ point) {y : Value} {op op' : Op}
    (h : w.known.Records point' y op') : (w.record point op x).known.Records point' y op' := by
  have hlookup : (w.record point op x).known.stateAt? point' = w.known.stateAt? point' ∧
      Ascending.get? point' (w.record point op x).known.detectors =
        Ascending.get? point' w.known.detectors ∧
      Ascending.get? point' (w.record point op x).known.observables =
        Ascending.get? point' w.known.observables := by
    cases op <;> simp [record, stateAt?, Op.producesState, Op.stateInput?, Ascending.get?_put_of_ne hne]
  obtain ⟨hstates, hdetectors, hobservables⟩ := hlookup
  cases op' <;> simp_all [Records]

theorem value_record (w : Work) (point : Point) (op : Op) (x : Value) :
    (w.record point op x).known.value = w.known.value := by
  funext v
  rw [value, value, (record_fields point op x).1]

theorem Frame.record (w : Work) (point : Point) (op : Op) (x : Value) :
    Frame p [point.block] w (w.record point op x) := by
  obtain ⟨hvalues, hreturned, hqueue, hvisited⟩ := record_fields (w := w) point op x
  have hvalue := value_record w point op x
  constructor
  case visited => exact hvisited
  case queue => exact hqueue ▸ List.Subset.refl _
  case length => rw [hvalues]
  case reads => exact fun v _ _ _ _ _ => congrFun hvalue v
  case results => exact fun _ _ _ _ s _ => congrFun hvalue s.result
  case params =>
    intro block _ v _ y hy
    rw [hvalue]
    exact hy
  case records =>
    intro point' hown y op' hy
    apply records_record_of_ne _ hy
    rintro rfl
    exact hown (List.mem_singleton_self _)
  case returned =>
    intro y hy
    rw [hreturned]
    exact hy

theorem runStatement_eq_ok (h : w.runStatement g p point s = .ok w') :
    ∃ x, s.op.eval g w.known.value = .ok x ∧
      ((w.known.value s.result).same x = true ∧ w' = w.record point s.op x ∨
        w' = ((w.record point s.op x).setValue s.result x).enqueueAll
          ((p.users s.result).filter fun c => c ≠ point.block && w.visited.contains c)) := by
  obtain ⟨x, hx, h⟩ := bind_eq_ok.mp h
  refine ⟨x, mapError_eq_ok.mp hx, ?_⟩
  simp only [value_record, (record_fields (w := w) point s.op x).2.2.2] at h
  split_ifs at h with hsame
  · cases h
    exact Or.inl ⟨hsame, rfl⟩
  · cases h
    exact Or.inr rfl

theorem runStatement_frame (hp : p.SingleAssignment) (hblock : p.block? point.block = some block)
    (hs : s ∈ block.statements) (hlt : s.result < w.known.values.length)
    (h : w.runStatement g p point s = .ok w') : Frame p [point.block] w w' := by
  obtain ⟨x, -, ⟨-, rfl⟩ | rfl⟩ := runStatement_eq_ok h
  · exact Frame.record w point s.op x
  · obtain ⟨hvalues, -, -, hvisited⟩ := record_fields (w := w) point s.op x
    refine (Frame.record w point s.op x).trans (Frame.write (hvalues ▸ hlt) ?_ ?_ ?_)
    · intro c hc hcv hown
      rw [hvisited] at hcv
      simpa [hc, hcv] using hown
    · intro c other hother hown t ht
      exact hp.result_ne_result hother hblock (fun heq => hown (heq ▸ List.mem_singleton_self _)) ht hs
    · intro other hother hparam
      exact absurd rfl (hp.result_ne_param (Program.mem_blocks hblock) hother hs hparam)

theorem runStatement_value_of_ne {v : Var} (hv : v ≠ s.result)
    (h : w.runStatement g p point s = .ok w') : w'.known.value v = w.known.value v := by
  obtain ⟨x, -, ⟨-, rfl⟩ | rfl⟩ := runStatement_eq_ok h
  · exact congrFun (value_record w point s.op x) v
  · rw [value_write_of_ne hv, value_record]

theorem Comparable.runStatement (hw : w.Comparable) (hnan : s.op.isNaN = false)
    (h : w.runStatement g p point s = .ok w') : w'.Comparable := by
  obtain ⟨x, heval, hw'⟩ := runStatement_eq_ok h
  have hrecord : (w.record point s.op x).Comparable := by
    refine ⟨?_, ?_⟩
    · rw [value_record]
      exact hw.values
    · rw [(record_fields point s.op x).2.1]
      exact hw.returned
  obtain ⟨-, rfl⟩ | rfl := hw'
  · exact hrecord
  · exact hrecord.write (Op.eval_same_self hw.values hnan heval)

/-- A statement that does not read its own result holds after it has been run. -/
theorem runStatement_holds (hw : w.Comparable) (hnan : s.op.isNaN = false)
    (hown : s.result ∉ s.op.operands) (hlt : s.result < w.known.values.length)
    (h : w.runStatement g p point s = .ok w') : w'.known.Holds g point s := by
  have heq : s.op.eval g w'.known.value = s.op.eval g w.known.value := by
    apply Op.eval_congr
    intro v hv
    exact runStatement_value_of_ne (fun heq => hown (heq ▸ hv)) h
  obtain ⟨x, heval, ⟨hsame, rfl⟩ | rfl⟩ := runStatement_eq_ok h
  · refine ⟨x, heq.trans heval, ?_, record_self w point s.op x⟩
    rw [value_record]
    exact hsame
  · refine ⟨x, heq.trans heval, ?_, ?_⟩
    · rw [← (record_fields point s.op x).1] at hlt
      rw [value_write_self hlt]
      exact Op.eval_same_self hw.values hnan heval
    · rw [(enqueueAll_fields _ _).1]
      have hrecord := record_self w point s.op x
      cases hop : s.op <;> rw [hop] at hrecord <;> exact hrecord

/-- A statement that holds also holds after another one has been run that writes nothing it mentions. -/
theorem Holds.runStatement {t : Statement} {point' : Point} (hholds : w.known.Holds g point' t)
    (hread : s.result ∉ t.op.operands) (hresult : t.result ≠ s.result) (hpoint : point' ≠ point)
    (h : w.runStatement g p point s = .ok w') : w'.known.Holds g point' t := by
  obtain ⟨y, heval, hsame, hrecords⟩ := hholds
  have heq : t.op.eval g w'.known.value = t.op.eval g w.known.value := by
    apply Op.eval_congr
    intro v hv
    exact runStatement_value_of_ne (fun heq => hread (heq ▸ hv)) h
  refine ⟨y, heq.trans heval, ?_, ?_⟩
  · rw [runStatement_value_of_ne hresult h]
    exact hsame
  · obtain ⟨x, -, ⟨-, rfl⟩ | rfl⟩ := runStatement_eq_ok h
    · exact records_record_of_ne hpoint hrecords
    · rw [(enqueueAll_fields _ _).1]
      have hrecord : (w.record point s.op x).known.Records point' y t.op :=
        records_record_of_ne hpoint hrecords
      cases hop : t.op <;> rw [hop] at hrecord <;> exact hrecord

theorem Holds.runStatements {rest : List Statement} {i k : Nat} {t : Statement}
    (hholds : w.known.Holds g ⟨b, k⟩ t) (hk : k < i)
    (hrest : ∀ s ∈ rest, s.result ∉ t.op.operands ∧ t.result ≠ s.result)
    (h : (rest.zipIdx i).foldlM (fun w (s, i) => w.runStatement g p ⟨b, i⟩ s) w = .ok w') :
    w'.known.Holds g ⟨b, k⟩ t := by
  induction rest generalizing i w with
  | nil =>
    cases h
    exact hholds
  | cons s rest ih =>
    rw [List.zipIdx_cons, List.foldlM_cons] at h
    obtain ⟨mid, hmid, h⟩ := bind_eq_ok.mp h
    rw [List.forall_mem_cons] at hrest
    have hpoint : (⟨b, k⟩ : Point) ≠ ⟨b, i⟩ := by
      intro heq
      cases heq
      exact Nat.lt_irrefl _ hk
    exact ih (Holds.runStatement hholds hrest.1.1 hrest.1.2 hpoint hmid) (Nat.lt_succ_of_lt hk) hrest.2 h

/-- The statements of a block, run in order, all hold in the end. -/
theorem runStatements_spec (hp : p.SingleAssignment) (hnan : p.NoNaN) (hwf : p.WellFormed)
    (hblock : p.block? b = some block) {rest : List Statement} {i : Nat}
    (hrest : rest.Sublist block.statements) (hw : w.Comparable)
    (hlength : w.known.values.length = p.numValues)
    (h : (rest.zipIdx i).foldlM (fun w (s, i) => w.runStatement g p ⟨b, i⟩ s) w = .ok w') :
    Frame p [b] w w' ∧ w'.Comparable ∧
      ∀ j s, rest[j]? = some s → w'.known.Holds g ⟨b, i + j⟩ s := by
  have hmem := Program.mem_blocks hblock
  induction rest generalizing i w with
  | nil =>
    cases h
    exact ⟨Frame.refl p [b] _, hw, by simp⟩
  | cons s rest ih =>
    rw [List.zipIdx_cons, List.foldlM_cons] at h
    obtain ⟨mid, hmid, h⟩ := bind_eq_ok.mp h
    have hs : s ∈ block.statements := hrest.subset List.mem_cons_self
    have hlt : s.result < w.known.values.length := hlength ▸ hwf.result_lt hmem hs
    have hframe : Frame p [b] w mid := runStatement_frame hp hblock hs hlt hmid
    have hholds := runStatement_holds hw (hnan block hmem s hs) ((hp.ordered block hmem).own s hs) hlt hmid
    obtain ⟨hframe', hw', hholds'⟩ := ih ((List.sublist_cons_self s rest).trans hrest)
      (hw.runStatement (hnan block hmem s hs) hmid) (hframe.length.trans hlength) h
    refine ⟨hframe.trans hframe', hw', ?_⟩
    intro j t ht
    cases j with
    | zero =>
      cases ht
      have hlater := List.pairwise_cons.mp ((hp.ordered block hmem).later.sublist hrest)
      have hne := List.pairwise_cons.mp ((hp.pairwise_result_ne hmem).sublist hrest)
      exact Holds.runStatements hholds (Nat.lt_succ_self i)
        (fun t ht => ⟨hlater.1 t ht, hne.1 t ht⟩) h
    | succ j =>
      rw [Nat.add_comm j 1, ← Nat.add_assoc]
      exact hholds' j t ht

end Statements

section Edges

variable {target : Block} {changed changed' : Bool} {param arg : Var} {edge : Label × List Var}

theorem bindParam_eq (h : bindParam p (w, changed) (param, arg) = (w', changed')) :
    ((w.known.value param).join (w.known.value arg)).same (w.known.value param) = true ∧ w' = w ∧
        changed' = changed ∨
      w' = (w.setValue param ((w.known.value param).join (w.known.value arg))).enqueueAll
        ((p.users param).filter w.visited.contains) ∧ changed' = true := by
  simp only [bindParam] at h
  split_ifs at h with hsame
  · cases h
    exact Or.inl ⟨hsame, rfl, rfl⟩
  · cases h
    exact Or.inr ⟨rfl, rfl⟩

theorem bindParam_spec (hp : p.SingleAssignment) (htarget : target ∈ p.blocks)
    (hparam : param ∈ target.params) (hlt : param < w.known.values.length) (hw : w.Comparable)
    (h : bindParam p (w, changed) (param, arg) = (w', changed')) :
    Frame p [] w w' ∧ w'.Comparable ∧ (changed = true → changed' = true) ∧
      (w'.known.value arg).le (w'.known.value param) = true := by
  have hright := Value.le_join_right (w.known.value param) (hw.values arg)
  rcases bindParam_eq h with ⟨hsame, rfl, rfl⟩ | ⟨rfl, rfl⟩
  · exact ⟨Frame.refl p [] w', hw, id, Value.le_trans hright (Value.le_of_same hsame)⟩
  · have hjoin := Value.join_same_self (hw.values param) (hw.values arg)
    refine ⟨Frame.write hlt ?_ ?_ ?_, hw.write hjoin, fun _ => rfl, ?_⟩
    · intro c hc hcv _
      exact List.mem_filter.mpr ⟨hc, List.contains_iff_mem.mpr hcv⟩
    · intro c other hother _ s hs
      exact hp.result_ne_param (Program.mem_blocks hother) htarget hs hparam
    · intro _ _ _ y hy
      exact Value.le_trans hy (Value.le_join_left _ (hw.values param))
    · rw [value_write_self hlt]
      by_cases heq : arg = param
      · subst heq
        rw [value_write_self hlt]
        exact Value.le_of_same hjoin
      · rw [value_write_of_ne heq]
        exact hright

theorem bindParams_spec (hp : p.SingleAssignment) (htarget : target ∈ p.blocks)
    (hblock : p.block? b = some block) (hvisited : b ∈ w.visited) {bindings : List (Var × Var)}
    (hbindings : ∀ e ∈ bindings, e.1 ∈ target.params ∧ e.1 < w.known.values.length ∧
      e.2 ∈ block.terminator.operands) (hw : w.Comparable)
    (h : bindings.foldl (bindParam p) (w, changed) = (w', changed')) :
    Frame p [] w w' ∧ w'.Comparable ∧ (changed = true → changed' = true) ∧
      (b ∉ w'.queue → ∀ e ∈ bindings, (w'.known.value e.2).le (w'.known.value e.1) = true) := by
  induction bindings generalizing w changed with
  | nil =>
    cases h
    exact ⟨Frame.refl p [] _, hw, id, by simp⟩
  | cons e rest ih =>
    obtain ⟨param, arg⟩ := e
    rw [List.forall_mem_cons] at hbindings
    obtain ⟨⟨hparam, hlt, harg⟩, hrest⟩ := hbindings
    rw [List.foldl_cons] at h
    obtain ⟨⟨mid, flag⟩, hmid⟩ : ∃ step, bindParam p (w, changed) (param, arg) = step := ⟨_, rfl⟩
    rw [hmid] at h
    obtain ⟨hframe, hmid, hflag, hle⟩ := bindParam_spec hp htarget hparam hlt hw hmid
    have hvisited' : b ∈ mid.visited := hframe.visited ▸ hvisited
    obtain ⟨hframe', hw', hflag', hle'⟩ := ih hvisited' (hframe.length ▸ hrest) hmid h
    refine ⟨hframe.trans hframe', hw', fun hc => hflag' (hflag hc), fun hqueue => ?_⟩
    rw [List.forall_mem_cons]
    exact ⟨hframe'.le_param hblock hvisited' List.not_mem_nil hqueue htarget harg hparam hle, hle' hqueue⟩

theorem Frame.enqueue (w : Work) (b : Label) : Frame p [] w (w.enqueue b) := by
  obtain ⟨hknown, hvisited, hqueue⟩ := enqueue_fields w b
  constructor
  case visited => exact hvisited
  case queue => exact fun c hc => (hqueue c).mpr (Or.inl hc)
  case length => rw [hknown]
  case reads => exact fun v _ _ _ _ _ => by rw [hknown]
  case results => exact fun _ _ _ _ _ _ => by rw [hknown]
  case params => exact fun _ _ _ _ _ hx => by rwa [hknown]
  case records => exact fun _ _ _ _ hx => by rwa [hknown]
  case returned => exact fun _ hx => by rwa [hknown]

theorem Comparable.enqueue (hw : w.Comparable) (b : Label) : (w.enqueue b).Comparable := by
  constructor
  · rw [(enqueue_fields w b).1]
    exact hw.values
  · rw [(enqueue_fields w b).1]
    exact hw.returned

theorem followEdge_eq (htarget : p.block? edge.1 = some target) :
    ∃ mid flag, (target.params.zip edge.2).foldl (bindParam p) (w, !w.visited.contains edge.1) =
      (mid, flag) ∧ w.followEdge p edge = if flag then mid.enqueue edge.1 else mid := by
  refine ⟨_, _, rfl, ?_⟩
  simp only [followEdge, htarget]

/-- An edge that has been followed is accepted, unless its block has to be visited again. -/
theorem followEdge_spec (hp : p.SingleAssignment) (hwf : p.WellFormed)
    (hblock : p.block? b = some block) (hvisited : b ∈ w.visited)
    (hedge : edge ∈ block.terminator.successors) (hw : w.Comparable)
    (hlength : w.known.values.length = p.numValues) (h : w.followEdge p edge = w') :
    Frame p [] w w' ∧ w'.Comparable ∧
      (b ∉ w'.queue → w'.known.Accepts p (w'.visited ++ w'.queue) edge) := by
  obtain ⟨target, htarget, hargs⟩ := hwf.edges block (Program.mem_blocks hblock) edge hedge
  have hmem := Program.mem_blocks htarget
  have hbindings : ∀ e ∈ target.params.zip edge.2, e.1 ∈ target.params ∧
      e.1 < w.known.values.length ∧ e.2 ∈ block.terminator.operands := by
    intro e he
    obtain ⟨hparam, harg⟩ := List.of_mem_zip he
    exact ⟨hparam, hlength ▸ hwf.param_lt hmem hparam,
      Terminator.mem_operands_of_mem_successors hedge harg⟩
  obtain ⟨mid, flag, hfold, hfollow⟩ := followEdge_eq (w := w) htarget
  obtain ⟨hframe, hmid, hflag, hle⟩ := bindParams_spec hp hmem hblock hvisited hbindings hw hfold
  have hforall : b ∉ mid.queue → List.Forall₂
      (fun arg param => (mid.known.value arg).le (mid.known.value param) = true) edge.2 target.params := by
    intro hqueue
    apply List.Forall₂.flip
    exact List.forall₂_iff_zip.mpr ⟨hargs, fun he => hle hqueue _ he⟩
  rw [hfollow] at h
  cases flag with
  | false =>
    have hold : edge.1 ∈ w.visited := by
      by_contra hnew
      cases hflag (by simpa using hnew)
    subst h
    refine ⟨hframe, hmid, fun hqueue => ⟨?_, target, htarget, hforall hqueue⟩⟩
    exact List.mem_append_left _ (hframe.visited ▸ hold)
  | true =>
    obtain ⟨hknown, -, hqueued⟩ := enqueue_fields mid edge.1
    rw [if_pos rfl] at h
    subst h
    refine ⟨hframe.trans (Frame.enqueue mid edge.1), hmid.enqueue edge.1, fun hqueue => ?_⟩
    refine ⟨List.mem_append_right _ ((hqueued _).mpr (Or.inr rfl)), target, htarget, ?_⟩
    rw [hknown]
    exact hforall fun hb => hqueue ((hqueued b).mpr (Or.inl hb))

theorem followEdges_spec (hp : p.SingleAssignment) (hwf : p.WellFormed)
    (hblock : p.block? b = some block) (hvisited : b ∈ w.visited) {edges : List (Label × List Var)}
    (hedges : ∀ edge ∈ edges, edge ∈ block.terminator.successors) (hw : w.Comparable)
    (hlength : w.known.values.length = p.numValues) (h : edges.foldl (followEdge p) w = w') :
    Frame p [] w w' ∧ w'.Comparable ∧
      (b ∉ w'.queue → ∀ edge ∈ edges, w'.known.Accepts p (w'.visited ++ w'.queue) edge) := by
  induction edges generalizing w with
  | nil =>
    subst h
    exact ⟨Frame.refl p [] _, hw, by simp⟩
  | cons edge rest ih =>
    rw [List.forall_mem_cons] at hedges
    obtain ⟨hframe, hmid, haccepts⟩ := followEdge_spec hp hwf hblock hvisited hedges.1 hw hlength rfl
    have hvisited' := hframe.visited ▸ hvisited
    obtain ⟨hframe', hw', haccepts'⟩ := ih hvisited' hedges.2 hmid (hframe.length.trans hlength) h
    refine ⟨hframe.trans hframe', hw', fun hqueue => ?_⟩
    rw [List.forall_mem_cons]
    refine ⟨?_, haccepts' hqueue⟩
    apply hframe'.accepts hblock hvisited' List.not_mem_nil hqueue hedges.1
    exact haccepts fun hb => hqueue (hframe'.queue hb)

theorem Frame.leave (hw : w.Comparable) (t : Terminator) : Frame p [] w (w.leave t) := by
  cases t with
  | ret v =>
    constructor
    case visited => rfl
    case queue => exact List.Subset.refl _
    case length => rfl
    case reads => exact fun _ _ _ _ _ _ => rfl
    case results => exact fun _ _ _ _ _ _ => rfl
    case params => exact fun _ _ _ _ _ hx => hx
    case records =>
      intro point _ x op hx
      cases op <;> exact hx
    case returned => exact fun x hx => Value.le_trans hx (Value.le_join_left _ hw.returned)
  | _ => exact Frame.refl p [] w

theorem Comparable.leave (hw : w.Comparable) (t : Terminator) : (w.leave t).Comparable := by
  cases t with
  | ret v => exact ⟨hw.values, Value.join_same_self hw.returned (hw.values v)⟩
  | _ => exact hw

theorem value_leave (w : Work) (t : Terminator) : (w.leave t).known.value = w.known.value := by
  cases t <;> rfl

theorem le_returned_leave (hw : w.Comparable) {t : Terminator} {v : Var} (ht : t = .ret v) :
    (w.known.value v).le (w.leave t).known.returned = true := by
  subst ht
  exact Value.le_join_right _ (hw.values v)

end Edges

end Work

end Analysis

end AtomTransport
