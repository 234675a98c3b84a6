import Mathlib.Data.Finset.Card
import Mathlib.Data.Finset.Max
import Mathlib.Data.Nat.Choose.Basic
import AtomTransport.Proofs.PostFixpoint

/-!
# How many visits an analysis takes

A visit puts only those blocks into the queue that its block `Wakes`. If the blocks can be ranked so that
control and values only go up, a block wakes blocks of higher rank only. The queue is then worked off in
rounds: a round consists of the blocks that the visits of the round before have put there, so before a block
of the `k`-th round can be visited there must be `k` blocks of lower rank. A program of `n` blocks is done
after at most one visit and one more for each pair of blocks. A cap that is not reached has no influence on
the outcome.
-/

namespace AtomTransport

namespace Program

/-- What a visit of a block can put into the queue: another block that reads one of its results, a block that
it leads to, or a block that reads a parameter of such a block. -/
inductive Wakes (p : Program) (b : Label) : Label → Prop where
  | reader {block : Block} {s : Statement} {c : Label} (hblock : p.block? b = some block)
      (hs : s ∈ block.statements) (hc : c ∈ p.users s.result) (hne : c ≠ b) : Wakes p b c
  | target {block target : Block} {edge : Label × List Var} (hblock : p.block? b = some block)
      (hedge : edge ∈ block.terminator.successors) (htarget : p.block? edge.1 = some target) :
      Wakes p b edge.1
  | parameter {block target : Block} {edge : Label × List Var} {v : Var} {c : Label}
      (hblock : p.block? b = some block) (hedge : edge ∈ block.terminator.successors)
      (htarget : p.block? edge.1 = some target) (hv : v ∈ target.params) (hc : c ∈ p.users v) : Wakes p b c

/-- Along a rank control and values only go up: every edge leads to a block of higher rank, and a value is
read by a block that defines it or by blocks of higher rank. -/
structure Ranked (p : Program) (rank : Label → Nat) : Prop where
  edges : ∀ b block, p.block? b = some block → ∀ edge ∈ block.terminator.successors, rank b < rank edge.1
  uses : ∀ b block, p.block? b = some block → ∀ v ∈ block.params ++ block.statements.map (·.result),
    ∀ c ∈ p.users v, c = b ∨ rank b < rank c

theorem ranked_iff {p : Program} {rank : Label → Nat} : p.Ranked rank ↔
    ∀ e ∈ p.blocks.zipIdx, (∀ edge ∈ e.1.terminator.successors, rank e.2 < rank edge.1) ∧
      ∀ v ∈ e.1.params ++ e.1.statements.map (·.result), ∀ c ∈ p.users v, c = e.2 ∨ rank e.2 < rank c := by
  constructor
  · rintro h ⟨block, b⟩ he
    have hblock : p.block? b = some block := List.mem_zipIdx_iff_getElem?.mp he
    exact ⟨h.edges b block hblock, h.uses b block hblock⟩
  · intro h
    have hblocks : ∀ b block, p.block? b = some block → (block, b) ∈ p.blocks.zipIdx :=
      fun b block hblock => List.mem_zipIdx_iff_getElem?.mpr hblock
    exact ⟨fun b block hblock => (h _ (hblocks b block hblock)).1,
      fun b block hblock => (h _ (hblocks b block hblock)).2⟩

instance (p : Program) (rank : Label → Nat) : Decidable (p.Ranked rank) := decidable_of_iff' _ ranked_iff

def below (p : Program) (rank : Label → Nat) (b : Label) : Finset Label :=
  (Finset.range p.blocks.length).filter (rank · < rank b)

variable {p : Program} {rank : Label → Nat} {b c : Label}

theorem lt_length {block : Block} (h : p.block? b = some block) : b < p.blocks.length :=
  (List.getElem?_eq_some_iff.mp h).1

theorem Wakes.lt_length (h : p.Wakes b c) : c < p.blocks.length := by
  have husers : ∀ {v}, c ∈ p.users v → c < p.blocks.length := by
    intro v hc
    obtain ⟨block, hblock, -⟩ := mem_users_iff.mp hc
    exact Program.lt_length hblock
  cases h with
  | reader _ _ hc _ => exact husers hc
  | target _ _ htarget => exact Program.lt_length htarget
  | parameter _ _ _ _ hc => exact husers hc

theorem Ranked.lt_of_wakes (hrank : p.Ranked rank) (h : p.Wakes b c) : rank b < rank c := by
  cases h with
  | reader hblock hs hc hne =>
    refine (hrank.uses b _ hblock _ ?_ c hc).resolve_left hne
    exact List.mem_append_right _ (List.mem_map_of_mem hs)
  | target hblock hedge _ => exact hrank.edges b _ hblock _ hedge
  | parameter hblock hedge htarget hv hc =>
    have hlt := hrank.edges b _ hblock _ hedge
    rcases hrank.uses _ _ htarget _ (List.mem_append_left _ hv) c hc with rfl | hlt'
    · exact hlt
    · exact hlt.trans hlt'

theorem card_below_lt (hb : b < p.blocks.length) (h : rank b < rank c) :
    (p.below rank b).card < (p.below rank c).card := by
  apply Finset.card_lt_card
  rw [Finset.ssubset_iff_of_subset]
  · exact ⟨b, by simp [below, hb, h], by simp [below]⟩
  · intro d hd
    simp only [below, Finset.mem_filter] at hd ⊢
    exact ⟨hd.1, hd.2.trans h⟩

/-- Blocks that all have many blocks below them are few: those below the lowest of them are none of them. -/
theorem length_add_le {labels : List Label} (hne : labels ≠ []) (hnodup : labels.Nodup)
    (hlt : ∀ b ∈ labels, b < p.blocks.length) {k : Nat} (hk : ∀ b ∈ labels, k ≤ (p.below rank b).card) :
    labels.length + k ≤ p.blocks.length := by
  obtain ⟨b, hb, hmin⟩ := labels.toFinset.exists_min_image rank (List.toFinset_nonempty_iff _ |>.mpr hne)
  have hdisjoint : Disjoint labels.toFinset (p.below rank b) := by
    rw [Finset.disjoint_left]
    intro c hc hbelow
    exact Nat.not_lt.mpr (hmin c hc) (Finset.mem_filter.mp hbelow).2
  have hsubset : labels.toFinset ∪ p.below rank b ⊆ Finset.range p.blocks.length := by
    apply Finset.union_subset
    · intro c hc
      exact Finset.mem_range.mpr (hlt c (List.mem_toFinset.mp hc))
    · exact Finset.filter_subset _ _
  calc labels.length + k ≤ labels.toFinset.card + (p.below rank b).card := by
        rw [List.toFinset_card_of_nodup hnodup]
        exact Nat.add_le_add_left (hk b (List.mem_toFinset.mp hb)) _
    _ = (labels.toFinset ∪ p.below rank b).card := (Finset.card_union_of_disjoint hdisjoint).symm
    _ ≤ p.blocks.length := by simpa using Finset.card_le_card hsubset

end Program

namespace Analysis

variable {g : LaneGraph} {p : Program} {b : Label} {block : Block}

namespace Work

variable {w w' w'' : Work} {P : Label → Prop}

def Extends (P : Label → Prop) (w w' : Work) : Prop :=
  ∃ new, w'.queue = w.queue ++ new ∧ new.Nodup ∧ ∀ c ∈ new, c ∉ w.queue ∧ P c

namespace Extends

theorem of_queue_eq (h : w'.queue = w.queue) : Extends P w w' :=
  ⟨[], by simp [h], List.nodup_nil, by simp⟩

theorem trans (h : Extends P w w') (h' : Extends P w' w'') : Extends P w w'' := by
  obtain ⟨new, hqueue, hnodup, hnew⟩ := h
  obtain ⟨more, hqueue', hnodup', hmore⟩ := h'
  refine ⟨new ++ more, by rw [hqueue', hqueue, List.append_assoc], ?_, ?_⟩
  · refine List.nodup_append'.mpr ⟨hnodup, hnodup', fun c hc hc' => ?_⟩
    exact (hmore c hc').1 (hqueue ▸ List.mem_append_right _ hc)
  · intro c hc
    rcases List.mem_append.mp hc with hc | hc
    · exact hnew c hc
    · exact ⟨fun hold => (hmore c hc).1 (hqueue ▸ List.mem_append_left _ hold), (hmore c hc).2⟩

theorem enqueue (w : Work) (hb : P b) : Extends P w (w.enqueue b) := by
  rw [Work.enqueue]
  split_ifs with h
  · exact of_queue_eq rfl
  · refine ⟨[b], rfl, List.nodup_singleton b, ?_⟩
    simpa [hb] using h

theorem enqueueAll (w : Work) {bs : List Label} (hbs : ∀ b ∈ bs, P b) : Extends P w (w.enqueueAll bs) :=
  List.foldlRecOn bs Work.enqueue (motive := Extends P w) (of_queue_eq rfl)
    fun v hv b hb => hv.trans (enqueue v (hbs b hb))

theorem write (w : Work) (v : Var) (x : Value) {bs : List Label} (hbs : ∀ b ∈ bs, P b) :
    Extends P w ((w.setValue v x).enqueueAll bs) :=
  (of_queue_eq rfl : Extends P w (w.setValue v x)).trans (enqueueAll _ hbs)

end Extends

theorem runStatement_extends {s : Statement} {i : Nat} (hblock : p.block? b = some block)
    (hs : s ∈ block.statements) (h : w.runStatement g p ⟨b, i⟩ s = .ok w') : Extends (p.Wakes b) w w' := by
  obtain ⟨x, -, hw'⟩ := runStatement_eq_ok h
  have hrecord : Extends (p.Wakes b) w (w.record ⟨b, i⟩ s.op x) :=
    .of_queue_eq (record_fields _ _ _).2.2.1
  obtain ⟨-, rfl⟩ | rfl := hw'
  · exact hrecord
  · refine hrecord.trans (.write _ _ _ fun c hc => ?_)
    obtain ⟨hc, hother⟩ := List.mem_filter.mp hc
    rw [Bool.and_eq_true, decide_eq_true_eq] at hother
    exact .reader hblock hs hc hother.1

theorem bindParam_extends {target : Block} {edge : Label × List Var} (hblock : p.block? b = some block)
    (hedge : edge ∈ block.terminator.successors) (htarget : p.block? edge.1 = some target)
    {binding : Var × Var} (hparam : binding.1 ∈ target.params) (step : Work × Bool) :
    Extends (p.Wakes b) step.1 (bindParam p step binding).1 := by
  rw [bindParam]
  split_ifs
  · exact .of_queue_eq rfl
  · exact .write _ _ _ fun c hc => .parameter hblock hedge htarget hparam (List.mem_filter.mp hc).1

theorem followEdge_extends {edge : Label × List Var} (hblock : p.block? b = some block)
    (hedge : edge ∈ block.terminator.successors) (w : Work) :
    Extends (p.Wakes b) w (w.followEdge p edge) := by
  cases htarget : p.block? edge.1 with
  | none =>
    simp only [followEdge, htarget]
    exact .of_queue_eq rfl
  | some target =>
    obtain ⟨mid, flag, hfold, hfollow⟩ := followEdge_eq (w := w) htarget
    have hmid : Extends (p.Wakes b) w mid := by
      have hbindings := List.foldlRecOn (target.params.zip edge.2) (bindParam p)
        (motive := fun step => Extends (p.Wakes b) w step.1)
        (b := (w, !w.visited.contains edge.1)) (.of_queue_eq rfl)
        fun step hstep binding hbinding => hstep.trans
          (bindParam_extends hblock hedge htarget (List.of_mem_zip hbinding).1 step)
      rwa [hfold] at hbindings
    rw [hfollow]
    split_ifs
    · exact hmid.trans (.enqueue mid (.target hblock hedge htarget))
    · exact hmid

/-- A visit puts only such blocks into the queue as its block wakes. -/
theorem visit_extends (h : visit g p w b = .ok w') : Extends (p.Wakes b) w w' := by
  have hmark : Extends (p.Wakes b) w (w.mark b) := .of_queue_eq rfl
  cases hblock : p.block? b with
  | none =>
    simp only [visit, hblock] at h
    cases h
    exact hmark
  | some block =>
    obtain ⟨mid, hfold, rfl⟩ := visit_eq_ok hblock h
    have hmid : Extends (p.Wakes b) w mid := by
      refine foldlM_preserves_of_mem (P := Extends (p.Wakes b) w) ?_ hmark hfold
      intro e he v v' hv hrun
      exact hv.trans (runStatement_extends hblock (List.fst_mem_of_mem_zipIdx he) hrun)
    have hedges := List.foldlRecOn (block.terminator.takenEdges mid.known.value) (followEdge p)
      (motive := Extends (p.Wakes b) w) hmid fun v hv edge hedge => hv.trans
        (followEdge_extends hblock (Terminator.mem_takenEdges_iff.mp hedge).mem_successors v)
    refine hedges.trans (.of_queue_eq ?_)
    cases block.terminator <;> rfl

theorem visit_ne_visitLimit (w : Work) (b : Label) (visits : Nat) :
    visit g p w b ≠ .error (.visitLimit visits) := by
  intro h
  cases hblock : p.block? b with
  | none =>
    simp only [visit, hblock] at h
    cases h
  | some block =>
    rw [visit_of_block hblock] at h
    rcases bind_eq_error.mp h with hfold | ⟨_, _, h⟩
    · obtain ⟨⟨s, i⟩, -, mid, herror⟩ := foldlM_eq_error hfold
      rcases bind_eq_error.mp herror with heval | ⟨x, _, h⟩
      · obtain ⟨cause, -, hcause⟩ := mapError_eq_error.mp heval
        cases hcause
      · dsimp only at h
        split_ifs at h
    · cases h

/-- The queue in the middle of the `k`-th round: first the blocks of this round, then those of the next. -/
structure Round (p : Program) (rank : Label → Nat) (k : Nat) (now later : List Label) (w : Work) : Prop where
  queue : w.queue = now ++ later
  nodup : later.Nodup
  exist : ∀ b ∈ now ++ later, b < p.blocks.length
  now_le : ∀ b ∈ now, k ≤ (p.below rank b).card
  later_lt : ∀ b ∈ later, k < (p.below rank b).card

/-- A number of visits that is enough for the blocks that wait: one for each block of this round, and one for
each pair of the blocks that later rounds can have. -/
def Within (p : Program) (rank : Label → Nat) (m : Nat) (w : Work) : Prop :=
  ∃ k now later, Round p rank k now later w ∧ now.length + (p.blocks.length - k).choose 2 ≤ m

section Rounds

variable {rank : Label → Nat} {k m : Nat} {now later rest : List Label}

theorem Round.visit (hrank : p.Ranked rank) (h : Round p rank k (b :: now) later w)
    (hvisit : Work.visit g p { w with queue := now ++ later } b = .ok w') :
    ∃ later', Round p rank k now later' w' := by
  obtain ⟨new, hqueue, hnodup, hnew⟩ := visit_extends hvisit
  have hexist := h.exist
  rw [List.cons_append, List.forall_mem_cons] at hexist
  refine ⟨later ++ new, hqueue.trans (List.append_assoc _ _ _), ?_, ?_, ?_, ?_⟩
  · refine List.nodup_append'.mpr ⟨h.nodup, hnodup, fun c hc hc' => ?_⟩
    exact (hnew c hc').1 (List.mem_append_right _ hc)
  · rw [← List.append_assoc, List.forall_mem_append]
    exact ⟨hexist.2, fun c hc => (hnew c hc).2.lt_length⟩
  · exact fun c hc => h.now_le c (List.mem_cons_of_mem _ hc)
  · rw [List.forall_mem_append]
    refine ⟨h.later_lt, fun c hc => ?_⟩
    have hlt := Program.card_below_lt hexist.1 (hrank.lt_of_wakes (hnew c hc).2)
    exact Nat.lt_of_le_of_lt (h.now_le b List.mem_cons_self) hlt

theorem Round.next (h : Round p rank k [] later w) : Round p rank (k + 1) later [] w where
  queue := by rw [h.queue, List.nil_append, List.append_nil]
  nodup := List.nodup_nil
  exist := by
    rw [List.append_nil]
    exact h.exist
  now_le := h.later_lt
  later_lt := by simp

theorem Round.length_later (h : Round p rank k now later w) :
    later.length + (p.blocks.length - (k + 1)).choose 2 ≤ (p.blocks.length - k).choose 2 := by
  by_cases hne : later = []
  · rw [hne, List.length_nil, Nat.zero_add]
    exact Nat.choose_le_choose 2 (Nat.sub_le_sub_left (Nat.le_succ k) _)
  · have hexist : ∀ b ∈ later, b < p.blocks.length := fun b hb => h.exist b (List.mem_append_right _ hb)
    have hlength := Program.length_add_le hne h.nodup hexist h.later_lt
    obtain ⟨n, hn⟩ : ∃ n, p.blocks.length - k = n + 1 := ⟨p.blocks.length - k - 1, by omega⟩
    have hn' : p.blocks.length - (k + 1) = n := by omega
    have hpascal : (n + 1).choose 2 = n + n.choose 2 := by rw [Nat.choose_succ_succ', Nat.choose_one_right]
    rw [hn, hn', hpascal]
    omega

/-- If a block waits, the queue is in the middle of a round that the block belongs to. -/
theorem Within.head (h : Within p rank m w) (hqueue : w.queue = b :: rest) :
    ∃ k now later, Round p rank k (b :: now) later w ∧
      now.length + 1 + (p.blocks.length - k).choose 2 ≤ m := by
  obtain ⟨k, now, later, hround, hm⟩ := h
  have hw := hround.queue
  rw [hqueue] at hw
  cases now with
  | cons c now =>
    cases hw
    exact ⟨k, now, later, hround, hm⟩
  | nil =>
    have hlength := hround.length_later
    cases later with
    | nil => cases hw
    | cons c later =>
      cases hw
      refine ⟨k + 1, rest, [], hround.next, ?_⟩
      rw [List.length_cons] at hlength
      rw [List.length_nil, Nat.zero_add] at hm
      exact hlength.trans hm

theorem Within.visit (hrank : p.Ranked rank) (h : Within p rank (m + 1) w) (hqueue : w.queue = b :: rest)
    (hvisit : Work.visit g p { w with queue := rest } b = .ok w') : Within p rank m w' := by
  obtain ⟨k, now, later, hround, hm⟩ := h.head hqueue
  have hw := hround.queue
  rw [hqueue] at hw
  cases hw
  obtain ⟨later', hround'⟩ := hround.visit hrank hvisit
  exact ⟨k, now, later', hround', by omega⟩

theorem Within.run_ne_visitLimit (hrank : p.Ranked rank) {cap remaining : Nat} (h : Within p rank remaining w)
    (visits : Nat) : run g p cap remaining w ≠ .error (.visitLimit visits) := by
  induction remaining generalizing w with
  | zero =>
    cases hqueue : w.queue with
    | nil => simp [run_of_queue_eq_nil hqueue]
    | cons b rest =>
      obtain ⟨k, now, later, -, hm⟩ := h.head hqueue
      omega
  | succ remaining ih =>
    intro herror
    rw [run] at herror
    split at herror
    · cases herror
    next b rest hqueue =>
      rcases bind_eq_error.mp herror with hvisit | ⟨next, hvisit, herror⟩
      · exact visit_ne_visitLimit _ b visits hvisit
      · exact ih (h.visit hrank hqueue hvisit) herror

theorem Within.initial (hwf : p.WellFormed) :
    Within p rank (p.blocks.length.choose 2 + 1) (initial p) := by
  obtain ⟨entry, hentry⟩ := hwf.entry
  refine ⟨0, [0], [], ⟨rfl, List.nodup_nil, ?_, by simp, by simp⟩, ?_⟩
  · simpa using Program.lt_length hentry
  · rw [List.length_singleton, Nat.sub_zero, Nat.add_comm]

theorem Within.mono {n : Nat} (h : Within p rank m w) (hmn : m ≤ n) : Within p rank n w := by
  obtain ⟨k, now, later, hround, hm⟩ := h
  exact ⟨k, now, later, hround, hm.trans hmn⟩

end Rounds

/-- A run that stays below its cap goes the same way with any higher one. -/
theorem run_add {cap cap' remaining : Nat} (more : Nat)
    (h : ∀ visits, run g p cap remaining w ≠ .error (.visitLimit visits)) :
    run g p cap' (remaining + more) w = run g p cap remaining w := by
  induction remaining generalizing w with
  | zero =>
    have hqueue : w.queue = [] := by
      by_contra hne
      exact h cap (by simp [run, hne])
    rw [run_of_queue_eq_nil hqueue, run_of_queue_eq_nil hqueue]
  | succ remaining ih =>
    cases hqueue : w.queue with
    | nil => rw [run_of_queue_eq_nil hqueue, run_of_queue_eq_nil hqueue]
    | cons b rest =>
      rw [Nat.add_right_comm]
      simp only [run, hqueue] at h ⊢
      cases hvisit : visit g p { w with queue := rest } b with
      | error e => rfl
      | ok next =>
        rw [hvisit] at h
        exact ih h

end Work

/-- If the blocks of a program can be ranked so that control and values only go up, its analysis needs at most
one visit and one more for each pair of blocks. For any program, a cap that has not been exceeded can be
raised without any change to the outcome. -/
theorem run_converges (g : LaneGraph) (p : Program) :
    (∀ rank, p.Ranked rank → ∀ cap, p.blocks.length.choose 2 + 1 ≤ cap →
      ∀ visits, run g p cap ≠ .error (.visitLimit visits)) ∧
      ∀ m n, m ≤ n → (∀ visits, run g p m ≠ .error (.visitLimit visits)) → run g p n = run g p m := by
  constructor
  · intro rank hrank cap hcap visits herror
    rcases bind_eq_error.mp herror with hcheck | ⟨⟨⟩, hcheck, herror⟩
    · obtain ⟨c, -, hc⟩ := mapError_eq_error.mp hcheck
      cases hc
    · have hwf := Program.wellFormed_of_check (mapError_eq_ok.mp hcheck)
      rcases bind_eq_error.mp herror with hrun | ⟨_, _, herror⟩
      · exact ((Work.Within.initial hwf).mono hcap).run_ne_visitLimit hrank visits hrun
      · cases herror
  · intro m n hmn hm
    obtain ⟨more, rfl⟩ := Nat.exists_eq_add_of_le hmn
    cases hcheck : p.check with
    | error e => simp only [run, hcheck, Except.mapError, error_bind]
    | ok =>
      simp only [run, hcheck, Except.mapError, ok_bind] at hm ⊢
      rw [Work.run_add more]
      intro visits herror
      apply hm visits
      rw [herror, error_bind]

/-- The uneven merge of three blocks takes all of the four visits, and no cap above makes a difference. -/
theorem run_converges_unevenMerge : unevenMerge.Ranked id ∧
    run oneWord unevenMerge 3 = .error (.visitLimit 3) ∧
    (∀ visits, run oneWord unevenMerge 4 ≠ .error (.visitLimit visits)) ∧
    ∀ cap, 4 ≤ cap → run oneWord unevenMerge cap = run oneWord unevenMerge 4 := by
  obtain ⟨hbound, hraise⟩ := run_converges oneWord unevenMerge
  have hranked : unevenMerge.Ranked id := by decide
  have hfour : ∀ visits, run oneWord unevenMerge 4 ≠ .error (.visitLimit visits) :=
    hbound id hranked 4 (by decide)
  have hthree : run oneWord unevenMerge 3 = .error (.visitLimit 3) :=
    map_eq_error.mp (by decide +kernel : Except.map (fun _ => ()) _ = _)
  exact ⟨hranked, hthree, hfour, fun cap hcap => hraise 4 cap hcap hfour⟩

end Analysis

end AtomTransport
