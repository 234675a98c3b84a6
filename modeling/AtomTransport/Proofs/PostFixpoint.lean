import AtomTransport.Device.Grid
import AtomTransport.Proofs.Symmetry
import AtomTransport.Proofs.WorkQueue

/-!
# The analysis ends in a post-fixpoint

Between two visits, a block that has been visited and does not wait is settled: what is known agrees with
its statements, with the edges that can be taken from it, and with what it returns. A visit settles its
block unless it sends it back into the queue, and leaves the other settled blocks alone. When the queue is
empty, all visited blocks are settled.
-/

namespace AtomTransport

namespace Analysis

structure Settled (g : LaneGraph) (p : Program) (a : Analysis) (reached : List Label) (b : Label)
    (block : Block) : Prop where
  statements : ∀ i s, block.statements[i]? = some s → a.Holds g ⟨b, i⟩ s
  edges : ∀ target args, block.terminator.Leads a.value target args →
    a.Accepts p reached (target, args)
  returns : ∀ v, block.terminator = .ret v → (a.value v).le a.returned = true

/-- The entry has been visited with any arguments, every visited block is settled with edges to visited
blocks only, and the statements of the other blocks have no value. -/
structure PostFixpoint (g : LaneGraph) (p : Program) (a : Analysis) (visited : List Label) : Prop where
  entry : 0 ∈ visited
  arguments : ∀ block, p.block? 0 = some block → ∀ v ∈ block.params, a.value v = .unknown
  settled : ∀ b block, p.block? b = some block → b ∈ visited → a.Settled g p visited b block
  unvisited : ∀ b block, p.block? b = some block → b ∉ visited → ∀ s ∈ block.statements,
    a.value s.result = .bottom

variable {g : LaneGraph} {p : Program} {a : Analysis} {b : Label} {block : Block}

theorem Accepts.mono {reached reached' : List Label} {edge : Label × List Var}
    (h : a.Accepts p reached edge) (hsub : reached ⊆ reached') : a.Accepts p reached' edge :=
  ⟨hsub h.1, h.2⟩

theorem Settled.mono {reached reached' : List Label} (h : a.Settled g p reached b block)
    (hsub : reached ⊆ reached') : a.Settled g p reached' b block :=
  ⟨h.statements, fun target args hleads => (h.edges target args hleads).mono hsub, h.returns⟩

namespace Work

variable {w w' : Work} {cap remaining : Nat}

def mark (w : Work) (b : Label) : Work :=
  { w with visited := if w.visited.contains b then w.visited else w.visited ++ [b] }

@[simp] theorem mem_visited_mark {c : Label} : c ∈ (w.mark b).visited ↔ c ∈ w.visited ∨ c = b := by
  by_cases h : b ∈ w.visited
  · simp only [mark, List.contains_iff_mem.mpr h, if_true]
    constructor
    · exact Or.inl
    · rintro (hc | rfl)
      · exact hc
      · exact h
  · simp [mark, h]

theorem visit_of_block (hblock : p.block? b = some block) : visit g p w b =
    block.statements.zipIdx.foldlM (fun w (s, i) => w.runStatement g p ⟨b, i⟩ s) (w.mark b) >>=
      fun mid => .ok (((block.terminator.takenEdges mid.known.value).foldl (followEdge p) mid).leave
        block.terminator) := by
  simp only [visit, hblock]
  rfl

theorem visit_eq_ok (hblock : p.block? b = some block) (h : visit g p w b = .ok w') :
    ∃ mid, block.statements.zipIdx.foldlM (fun w (s, i) => w.runStatement g p ⟨b, i⟩ s) (w.mark b) =
        .ok mid ∧
      w' = ((block.terminator.takenEdges mid.known.value).foldl (followEdge p) mid).leave
        block.terminator := by
  rw [visit_of_block hblock] at h
  obtain ⟨mid, hmid, h⟩ := bind_eq_ok.mp h
  cases h
  exact ⟨mid, hmid, rfl⟩

theorem Frame.settled {own : List Label} (h : Frame p own w w') (hblock : p.block? b = some block)
    (hvisited : b ∈ w.visited) (hown : b ∉ own) (hqueue : b ∉ w'.queue)
    (hsettled : w.known.Settled g p (w.visited ++ w.queue) b block) :
    w'.known.Settled g p (w'.visited ++ w'.queue) b block := by
  have hvalue : ∀ v ∈ block.terminator.operands, w'.known.value v = w.known.value v :=
    fun v hv => h.value_eq_of_operand hblock hvisited hown hqueue hv
  constructor
  case statements =>
    intro i s hs
    exact h.holds hblock hvisited hown hqueue (List.mem_of_getElem? hs) (hsettled.statements i s hs)
  case edges =>
    intro target args hleads
    have hold := hleads.congr hvalue
    exact h.accepts hblock hvisited hown hqueue hold.mem_successors (hsettled.edges target args hold)
  case returns =>
    intro v hv
    rw [hvalue v (by simp [hv, Terminator.operands])]
    exact h.returned _ (hsettled.returns v hv)

section Visit

variable (hp : p.SingleAssignment) (hnan : p.NoNaN) (hwf : p.WellFormed)
include hp hnan hwf

/-- A visit settles its block, unless the block has to be visited again. -/
theorem visit_spec (hblock : p.block? b = some block) (hw : w.Comparable)
    (hlength : w.known.values.length = p.numValues) (h : visit g p w b = .ok w') :
    Frame p [b] (w.mark b) w' ∧ w'.Comparable ∧
      (b ∉ w'.queue → w'.known.Settled g p (w'.visited ++ w'.queue) b block) := by
  obtain ⟨mid, hfold, rfl⟩ := visit_eq_ok hblock h
  have hmark : (w.mark b).Comparable := ⟨hw.values, hw.returned⟩
  obtain ⟨hstatements, hmid, hholds⟩ := runStatements_spec hp hnan hwf hblock
    (List.Sublist.refl _) hmark hlength hfold
  have hvisited : b ∈ mid.visited := by
    rw [hstatements.visited]
    exact mem_visited_mark.mpr (Or.inr rfl)
  have hsuccessors : ∀ edge ∈ block.terminator.takenEdges mid.known.value,
      edge ∈ block.terminator.successors :=
    fun edge hedge => (Terminator.mem_takenEdges_iff.mp hedge).mem_successors
  obtain ⟨hedges, hpassed, haccepts⟩ := followEdges_spec hp hwf hblock hvisited hsuccessors hmid
    (hstatements.length.trans hlength) rfl
  generalize (block.terminator.takenEdges mid.known.value).foldl (followEdge p) mid = passed
    at hedges hpassed haccepts ⊢
  have hleave : Frame p [] passed (passed.leave block.terminator) := Frame.leave hpassed _
  have hafter := hedges.trans hleave
  refine ⟨hstatements.trans (hafter.weaken [b]), hpassed.leave _, fun hqueue => ?_⟩
  constructor
  case statements =>
    intro i s hs
    have hs' := Nat.zero_add i ▸ hholds i s hs
    exact hafter.holds hblock hvisited List.not_mem_nil hqueue (List.mem_of_getElem? hs) hs'
  case edges =>
    intro target args hleads
    have hmid : block.terminator.Leads mid.known.value target args := hleads.congr fun v hv =>
      hafter.value_eq_of_operand hblock hvisited List.not_mem_nil hqueue hv
    apply hleave.accepts hblock (hedges.visited ▸ hvisited) List.not_mem_nil hqueue hmid.mem_successors
    exact haccepts (fun hb => hqueue (hleave.queue hb)) _ (Terminator.mem_takenEdges_iff.mpr hmid)
  case returns =>
    intro v hv
    rw [value_leave]
    exact le_returned_leave hpassed hv

end Visit

structure Invariant (g : LaneGraph) (p : Program) (w : Work) : Prop where
  length : w.known.values.length = p.numValues
  comparable : w.Comparable
  entry : 0 ∈ w.visited ++ w.queue
  arguments : ∀ block, p.block? 0 = some block → ∀ v ∈ block.params, w.known.value v = .unknown
  settled : ∀ b block, p.block? b = some block → b ∈ w.visited → b ∉ w.queue →
    w.known.Settled g p (w.visited ++ w.queue) b block
  unvisited : ∀ b block, p.block? b = some block → b ∉ w.visited → ∀ s ∈ block.statements,
    w.known.value s.result = .bottom

theorem Invariant.visit (hp : p.SingleAssignment) (hnan : p.NoNaN) (hwf : p.WellFormed)
    (hinv : Invariant g p w) {rest : List Label} (hqueue : w.queue = b :: rest)
    (h : Work.visit g p { w with queue := rest } b = .ok w') : Invariant g p w' := by
  have hreached : w.visited ++ w.queue ⊆
      (mark { w with queue := rest } b).visited ++ (mark { w with queue := rest } b).queue := by
    intro c hc
    rw [hqueue, List.mem_append, List.mem_cons, ← or_assoc] at hc
    exact List.mem_append.mpr (hc.imp_left mem_visited_mark.mpr)
  have hopen : ∀ c other, p.block? c = some other → c ≠ b →
      c ∈ (mark { w with queue := rest } b).visited → c ∉ rest →
      w.known.Settled g p ((mark { w with queue := rest } b).visited ++ rest) c other := by
    intro c other hother hne hc hrest
    have hc : c ∈ w.visited := (mem_visited_mark.mp hc).resolve_right hne
    refine (hinv.settled c other hother hc ?_).mono hreached
    rw [hqueue, List.mem_cons]
    exact fun hc => hc.elim hne hrest
  cases hblock : p.block? b with
  | none =>
    simp only [Work.visit, hblock] at h
    cases h
    refine ⟨hinv.length, ⟨hinv.comparable.values, hinv.comparable.returned⟩, hreached hinv.entry,
      hinv.arguments, ?_, ?_⟩
    · intro c other hother hc hrest
      exact hopen c other hother (fun heq => by simp [heq, hblock] at hother) hc hrest
    · intro c other hother hc
      exact hinv.unvisited c other hother fun hold => hc (mem_visited_mark.mpr (Or.inl hold))
  | some block =>
    obtain ⟨hframe, hw', hsettled⟩ := visit_spec hp hnan hwf hblock
      (w := { w with queue := rest }) ⟨hinv.comparable.values, hinv.comparable.returned⟩ hinv.length h
    constructor
    case length => exact hframe.length.trans hinv.length
    case comparable => exact hw'
    case entry =>
      rw [hframe.visited]
      rcases List.mem_append.mp (hreached hinv.entry) with hentry | hentry
      · exact List.mem_append_left _ hentry
      · exact List.mem_append_right _ (hframe.queue hentry)
    case arguments =>
      intro entry hentry v hv
      apply Value.unknown_le_iff.mp
      apply hframe.params entry (Program.mem_blocks hentry) v hv
      exact Value.unknown_le_iff.mpr (hinv.arguments entry hentry v hv)
    case settled =>
      intro c other hother hc hout
      by_cases hcb : c = b
      · subst hcb
        cases hblock.symm.trans hother
        exact hsettled hout
      · have hc' := hframe.visited ▸ hc
        exact hframe.settled hother hc' (by simpa using hcb) hout
          (hopen c other hother hcb hc' fun hrest => hout (hframe.queue hrest))
    case unvisited =>
      intro c other hother hc s hs
      rw [hframe.visited, mem_visited_mark, not_or] at hc
      rw [hframe.results c other hother (by simpa using hc.2) s hs]
      exact hinv.unvisited c other hother hc.1 s hs

/-- What every visit preserves holds at the end of a run, when no block waits any more. -/
theorem run_induction {P : Work → Prop}
    (step : ∀ w b rest w', P w → w.queue = b :: rest → visit g p { w with queue := rest } b = .ok w' →
      P w')
    (hw : P w) (h : run g p cap remaining w = .ok w') : P w' ∧ w'.queue = [] := by
  induction remaining generalizing w with
  | zero =>
    rw [run] at h
    split_ifs at h with hempty
    cases h
    exact ⟨hw, List.isEmpty_iff.mp hempty⟩
  | succ remaining ih =>
    rw [run] at h
    split at h
    next hempty =>
      cases h
      exact ⟨hw, hempty⟩
    next b rest hqueue =>
      obtain ⟨mid, hmid, h⟩ := bind_eq_ok.mp h
      exact ih (step w b rest mid hw hqueue hmid) h

theorem run_of_queue_eq_nil (h : w.queue = []) (cap remaining : Nat) : run g p cap remaining w = .ok w := by
  cases remaining with
  | zero => rw [run, h]; rfl
  | succ remaining => rw [run, h]

theorem getD_foldl_set (params : List Var) (values : List Value) (v : Var) :
    (params.foldl (fun vs u => vs.set u .unknown) values).getD v .bottom =
      if v ∈ params ∧ v < values.length then .unknown else values.getD v .bottom := by
  induction params generalizing values with
  | nil => simp
  | cons u params ih =>
    rw [List.foldl_cons, ih, List.length_set, List.getD_eq_getElem?_getD, List.getElem?_set,
      List.getD_eq_getElem?_getD]
    by_cases huv : u = v
    · subst huv
      by_cases hlt : u < values.length <;> simp [hlt]
    · simp [huv, Ne.symm huv]

theorem length_foldl_set (params : List Var) (values : List Value) :
    (params.foldl (fun vs u => vs.set u Value.unknown) values).length = values.length := by
  induction params generalizing values with
  | nil => rfl
  | cons u params ih => rw [List.foldl_cons, ih, List.length_set]

theorem initial_value (hentry : p.block? 0 = some block) (v : Var) : (initial p).known.value v =
    if v ∈ block.params ∧ v < p.numValues then .unknown else .bottom := by
  have hbottom : (List.replicate p.numValues Value.bottom).getD v .bottom = .bottom := by
    rw [List.getD_eq_getElem?_getD, List.getElem?_replicate]
    split_ifs <;> rfl
  simp only [initial, value, hentry, Option.map_some, Option.getD_some]
  rw [getD_foldl_set, List.length_replicate, hbottom]

theorem Invariant.initial (hp : p.SingleAssignment) (hwf : p.WellFormed) :
    Invariant g p (initial p) := by
  obtain ⟨entry, hentry⟩ := hwf.entry
  constructor
  case length => exact (length_foldl_set _ _).trans List.length_replicate
  case comparable =>
    refine ⟨fun v => ?_, rfl⟩
    rw [initial_value hentry]
    split_ifs <;> rfl
  case entry => exact List.mem_singleton_self 0
  case arguments =>
    intro block hblock v hv
    cases hentry.symm.trans hblock
    rw [initial_value hentry, if_pos ⟨hv, hwf.param_lt (Program.mem_blocks hentry) hv⟩]
  case settled => exact fun b block _ hb => absurd hb List.not_mem_nil
  case unvisited =>
    intro b block hblock _ s hs
    rw [initial_value hentry, if_neg]
    rintro ⟨hparam, -⟩
    exact hp.result_ne_param (Program.mem_blocks hblock) (Program.mem_blocks hentry) hs hparam rfl

theorem run_invariant (hp : p.SingleAssignment) (hnan : p.NoNaN) (hwf : p.WellFormed)
    (h : run g p cap remaining (initial p) = .ok w) : Invariant g p w ∧ w.queue = [] :=
  run_induction (fun _ _ _ _ hinv hqueue hvisit => Invariant.visit hp hnan hwf hinv hqueue hvisit)
    (Invariant.initial hp hwf) h

theorem run_postFixpoint (hp : p.SingleAssignment) (hnan : p.NoNaN) (hwf : p.WellFormed)
    (h : run g p cap remaining (initial p) = .ok w) : w.known.PostFixpoint g p w.visited := by
  obtain ⟨hinv, hqueue⟩ := run_invariant hp hnan hwf h
  have hreached : w.visited ++ w.queue = w.visited := by
    rw [hqueue, List.append_nil]
  refine ⟨hreached ▸ hinv.entry, hinv.arguments, ?_, hinv.unvisited⟩
  intro b block hblock hb
  rw [← hreached]
  exact hinv.settled b block hblock hb (hqueue ▸ List.not_mem_nil)

end Work

theorem run_eq_ok {cap : Nat} (h : Analysis.run g p cap = .ok a) :
    p.WellFormed ∧ ∃ w, Work.run g p cap cap (Work.initial p) = .ok w ∧ w.known = a := by
  obtain ⟨⟨⟩, hcheck, h⟩ := bind_eq_ok.mp h
  obtain ⟨w, hw, h⟩ := bind_eq_ok.mp h
  cases h
  exact ⟨Program.wellFormed_of_check (mapError_eq_ok.mp hcheck), w, hw, rfl⟩

/-- Whenever the analysis of a program in single assignment form succeeds, it has reached a consistent
post-fixpoint on the blocks that it has visited. -/
theorem run_consistent (hp : p.SingleAssignment) (hnan : p.NoNaN) {cap : Nat}
    (h : Analysis.run g p cap = .ok a) :
    ∃ w, Work.run g p cap cap (Work.initial p) = .ok w ∧ w.known = a ∧ a.PostFixpoint g p w.visited := by
  obtain ⟨hwf, w, hw, rfl⟩ := run_eq_ok h
  exact ⟨w, hw, rfl, Work.run_postFixpoint hp hnan hwf hw⟩

def oneWord : LaneGraph := .ofDevice ⟨(Blueprint.grid 1 2).normalize, .bits32⟩

/-- A branch with one empty arm: the block after it is visited first with the atom of the empty arm, and
again when the other arm has put an atom elsewhere. -/
def unevenMerge : Program where
  blocks := [
    ⟨[], [⟨0, .load⟩, ⟨1, .fill 0 [⟨0, 0⟩]⟩, ⟨2, .constant (.int 0)⟩], .branch 2 2 [1] 1 []⟩,
    ⟨[], [⟨3, .fill 0 [⟨0, 1⟩]⟩], .jump 2 [3]⟩,
    ⟨[4], [⟨5, .globalR 4 .zero .zero⟩], .ret 5⟩]
  numValues := 6

theorem unevenMerge_singleAssignment : unevenMerge.SingleAssignment := by decide

theorem unevenMerge_noNaN : unevenMerge.NoNaN := by decide

/-- All blocks of the uneven merge are settled, the one after the branch in its second visit. -/
theorem run_consistent_unevenMerge : ∃ a w, Analysis.run oneWord unevenMerge 4 = .ok a ∧
    Work.run oneWord unevenMerge 4 4 (Work.initial unevenMerge) = .ok w ∧ w.known = a ∧
    w.visited = [0, 2, 1] ∧ a.PostFixpoint oneWord unevenMerge w.visited := by
  have hrun : ((Analysis.run oneWord unevenMerge 4).toOption.any fun _ => true) = true := by
    decide +kernel
  have hvisited : ((Work.run oneWord unevenMerge 4 4 (Work.initial unevenMerge)).toOption.any
      fun w => w.visited = [0, 2, 1]) = true := by
    decide +kernel
  obtain ⟨a, ha, -⟩ := exists_ok_of_any hrun
  obtain ⟨w', hw', hvisited⟩ := exists_ok_of_any hvisited
  obtain ⟨w, hw, hknown, hpost⟩ :=
    run_consistent unevenMerge_singleAssignment unevenMerge_noNaN ha
  cases hw.symm.trans hw'
  exact ⟨a, _, ha, hw, hknown, by simpa using hvisited, hpost⟩

end Analysis

end AtomTransport
