import AtomTransport.Program.Draft
import AtomTransport.Proofs.SingleAssignment

/-!
# Calls on a draft

A draft is built by calls in any order, also calls that it refuses and statements for blocks that are ended
already. What the calls and their answers say decides the whole draft: the numbers are given out one after
another, a statement stands in the block that was current when it was pushed, and a block keeps the first
terminator. So a finished program defines each of its values once.
-/

namespace AtomTransport

theorem map_modify_of_eq {α β : Type} {f : α → α} {k : α → β} (h : ∀ a, k (f a) = k a) (xs : List α)
    (i : Nat) : (xs.modify i f).map k = xs.map k := by
  refine List.ext_getElem? fun j => ?_
  rw [List.getElem?_map, List.getElem?_map, List.getElem?_modify]
  cases xs[j]? with
  | none => rfl
  | some a => by_cases hij : i = j <;> simp [hij, h]

theorem flatMap_modify_perm {α β : Type} {f : α → α} {k : α → List β} {extra : List β}
    (h : ∀ a, k (f a) = k a ++ extra) {xs : List α} {i : Nat} (hi : i < xs.length) :
    ((xs.modify i f).flatMap k).Perm (xs.flatMap k ++ extra) := by
  obtain ⟨before, a, after, rfl, rfl, hmodify⟩ := List.exists_of_modify f hi
  rw [hmodify, List.flatMap_append, List.flatMap_append, List.flatMap_cons, List.flatMap_cons, h,
    List.append_assoc (before.flatMap k), List.append_assoc (k a), List.append_assoc (k a)]
  exact (List.perm_append_comm.append_left _).append_left _

theorem forall₂_zipIdx_iff {α β : Type} {R : α × Nat → β → Prop} {k : β → α}
    (h : ∀ a i b, R (a, i) b ↔ a = k b) (xs : List α) (n : Nat) (ys : List β) :
    List.Forall₂ R (xs.zipIdx n) ys ↔ xs = ys.map k := by
  induction xs generalizing n ys with
  | nil => cases ys <;> simp
  | cons x xs ih =>
    cases ys with
    | nil => simp
    | cons y ys =>
      rw [List.zipIdx_cons, List.forall₂_cons, h, ih, List.map_cons, List.cons.injEq]

theorem range_append_range' (m n : Nat) : List.range m ++ List.range' m n = List.range (m + n) := by
  have happend := List.range'_append_1 (s := 0) (m := m) (n := n)
  rw [Nat.zero_add] at happend
  rw [List.range_eq_range', List.range_eq_range', happend]

namespace Draft

inductive Call where
  | push (op : Op)
  | newBlock (numParams : Nat)
  | switchTo (b : Label)
  | terminate (t : Terminator)

inductive Reply where
  | value (v : Var)
  | block (b : Label) (params : List Var)
  | done
  | refused (e : ProgramError)

structure Exchange where
  call : Call
  reply : Reply

def Reply.ofOutcome : Except ProgramError Unit → Reply
  | .ok () => .done
  | .error e => .refused e

def call (d : Draft) : Call → Reply × Draft
  | .push op =>
    let (v, d) := d.push op
    (.value v, d)
  | .newBlock numParams =>
    let ((b, params), d) := d.newBlock numParams
    (.block b params, d)
  | .switchTo b =>
    let (outcome, d) := d.select b
    (.ofOutcome outcome, d)
  | .terminate t =>
    let (outcome, d) := d.close t
    (.ofOutcome outcome, d)

def after (d : Draft) (calls : List Call) : Draft := calls.foldl (fun d c => (d.call c).2) d

def transcript (d : Draft) : List Call → List Exchange
  | [] => []
  | c :: calls => ⟨c, (d.call c).1⟩ :: transcript (d.call c).2 calls

/-- The calls that a draft refuses: switching to a block that it does not have, and ending a block again. -/
inductive Refuses (d : Draft) : Call → ProgramError → Prop where
  | unknownBlock {b : Label} (h : d.blocks.length ≤ b) : Refuses d (.switchTo b) (.unknownBlock b)
  | ended {block : DraftBlock} {t t' : Terminator} (hblock : d.blocks[d.current]? = some block)
      (h : block.terminator = some t) : Refuses d (.terminate t') (.duplicateTerminator d.current)

section Reading

/-- The block that is current after an exchange: another one only if the call has switched to it. -/
def nextBlock (b : Label) : Exchange → Label
  | ⟨.switchTo b', .done⟩ => b'
  | _ => b

/-- The exchanges that follow each other from a block on, each with the block that is current. -/
def located (b : Label) : List Exchange → List (Label × Exchange)
  | [] => []
  | e :: rest => (b, e) :: located (nextBlock b e) rest

def Exchange.ids : Exchange → List Var
  | ⟨_, .value v⟩ => [v]
  | ⟨_, .block _ params⟩ => params
  | _ => []

def Exchange.params? : Exchange → Option (List Var)
  | ⟨_, .block _ params⟩ => some params
  | _ => none

def pushed? (b : Label) : Label × Exchange → Option Statement
  | (b', ⟨.push op, .value v⟩) => if b' = b then some ⟨v, op⟩ else none
  | _ => none

def ending? (b : Label) : Label × Exchange → Option Terminator
  | (b', ⟨.terminate t, _⟩) => if b' = b then some t else none
  | _ => none

/-- What a list of exchanges says about the program: the numbers of its values in the order in which they
are given out, the parameters of its blocks, and for each block the statements that were pushed while it was
current and the first terminator that was set on it. -/
structure Describes (t : List Exchange) (p : Program) : Prop where
  values : t.flatMap Exchange.ids = List.range p.numValues
  params : p.blocks.map (·.params) = [] :: t.filterMap Exchange.params?
  statements : ∀ b block, p.block? b = some block →
    block.statements = (located 0 t).filterMap (pushed? b)
  terminators : ∀ b block, p.block? b = some block →
    ((located 0 t).filterMap (ending? b)).head? = some block.terminator

theorem located_append (b : Label) (t : List Exchange) (e : Exchange) :
    located b (t ++ [e]) = located b t ++ [(t.foldl nextBlock b, e)] := by
  induction t generalizing b with
  | nil => rfl
  | cons e' t ih => simp [located, ih]

end Reading

section Views

variable (d : Draft)

def statementsOf (b : Label) : List Statement := (d.blocks[b]?.map (·.statements)).getD []

def terminatorOf? (b : Label) : Option Terminator := d.blocks[b]?.bind (·.terminator)

def definitions : List Var := d.blocks.flatMap fun b => b.params ++ b.statements.map (·.result)

variable {d} {b : Label} {op : Op} {n : Nat} {t : Terminator}

theorem statementsOf_push (h : d.current < d.blocks.length) :
    (d.push op).2.statementsOf b =
      d.statementsOf b ++ if d.current = b then [⟨d.nextValue, op⟩] else [] := by
  simp only [statementsOf, push, List.getElem?_modify]
  by_cases hb : d.current = b
  · subst hb
    simp [List.getElem?_eq_getElem h]
  · simp [hb]

theorem terminatorOf?_push : (d.push op).2.terminatorOf? b = d.terminatorOf? b := by
  simp only [terminatorOf?, push, List.getElem?_modify]
  cases d.blocks[b]? with
  | none => rfl
  | some block => by_cases hb : d.current = b <;> simp [hb]

theorem definitions_push (h : d.current < d.blocks.length) :
    (d.push op).2.definitions.Perm (d.definitions ++ [d.nextValue]) :=
  flatMap_modify_perm (fun block => by simp) h

theorem statementsOf_newBlock : (d.newBlock n).2.statementsOf b = d.statementsOf b := by
  simp only [statementsOf, newBlock, List.getElem?_append]
  by_cases hb : b < d.blocks.length
  · simp [hb]
  · by_cases hlast : b - d.blocks.length = 0 <;> simp [hb, hlast]

theorem terminatorOf?_newBlock : (d.newBlock n).2.terminatorOf? b = d.terminatorOf? b := by
  simp only [terminatorOf?, newBlock, List.getElem?_append]
  by_cases hb : b < d.blocks.length
  · simp [hb]
  · by_cases hlast : b - d.blocks.length = 0 <;> simp [hb, hlast]

theorem definitions_newBlock :
    (d.newBlock n).2.definitions = d.definitions ++ List.range' d.nextValue n := by
  simp [definitions, newBlock]

theorem close_eq_ok {d' : Draft} (h : d.close t = (.ok (), d')) : d.terminatorOf? d.current = none ∧
    (∀ b, d'.statementsOf b = d.statementsOf b) ∧ d'.definitions = d.definitions ∧
    (∀ b, d'.terminatorOf? b = if d.current = b then some t else d.terminatorOf? b) ∧
    d'.blocks.map (·.params) = d.blocks.map (·.params) ∧ d'.current = d.current ∧
    d'.nextValue = d.nextValue := by
  unfold close at h
  split at h
  · cases h
  next block hblock =>
    split_ifs at h with hended <;> cases h
    have hopen : block.terminator = none := by simpa using hended
    refine ⟨by simp [terminatorOf?, hblock, hopen], ?_, ?_, ?_, ?_, rfl, rfl⟩
    · intro b
      simp only [statementsOf, List.getElem?_modify]
      cases d.blocks[b]? with
      | none => rfl
      | some other => by_cases hb : d.current = b <;> simp [hb]
    · rw [definitions, definitions, List.flatMap_def, List.flatMap_def]
      exact congrArg List.flatten (map_modify_of_eq (by intro; rfl) _ _)
    · intro b
      simp only [terminatorOf?, List.getElem?_modify]
      by_cases hb : d.current = b
      · subst hb
        simp [hblock]
      · simp [hb]
    · exact map_modify_of_eq (by intro; rfl) _ _

theorem close_eq_error_iff {d' : Draft} {e : ProgramError} (hcurrent : d.current < d.blocks.length) :
    d.close t = (.error e, d') ↔ d.Refuses (.terminate t) e ∧ d' = d := by
  have hblock := List.getElem?_eq_getElem hcurrent
  constructor
  · intro h
    simp only [close, hblock] at h
    split_ifs at h with hended <;> cases h
    obtain ⟨t', ht'⟩ := Option.isSome_iff_exists.mp hended
    exact ⟨.ended hblock ht', rfl⟩
  · rintro ⟨_ | ⟨hblock', ht'⟩, rfl⟩
    simp [close, hblock', ht']

theorem select_eq_error_iff {d' : Draft} {e : ProgramError} :
    d.select b = (.error e, d') ↔ d.Refuses (.switchTo b) e ∧ d' = d := by
  unfold select
  constructor
  · intro h
    split_ifs at h with hlt <;> cases h
    exact ⟨.unknownBlock (Nat.le_of_not_lt hlt), rfl⟩
  · rintro ⟨⟨hle⟩, rfl⟩
    exact if_neg (Nat.not_lt_of_le hle)

end Views

structure Reads (t : List Exchange) (d : Draft) : Prop where
  current : d.current = t.foldl nextBlock 0
  current_lt : d.current < d.blocks.length
  values : t.flatMap Exchange.ids = List.range d.nextValue
  params : d.blocks.map (·.params) = [] :: t.filterMap Exchange.params?
  statements : ∀ b, d.statementsOf b = (located 0 t).filterMap (pushed? b)
  terminators : ∀ b, d.terminatorOf? b = ((located 0 t).filterMap (ending? b)).head?
  definitions : d.definitions.Perm (List.range d.nextValue)

namespace Reads

variable {d : Draft} {t : List Exchange}

theorem empty : Reads [] {} where
  current := rfl
  current_lt := Nat.one_pos
  values := rfl
  params := rfl
  statements b := by cases b <;> rfl
  terminators b := by cases b <;> rfl
  definitions := List.Perm.refl _

theorem push (h : Reads t d) (op : Op) :
    Reads (t ++ [⟨.push op, .value d.nextValue⟩]) (d.push op).2 where
  current := by
    rw [List.foldl_append]
    exact h.current
  current_lt := by simpa [Draft.push] using h.current_lt
  values := by
    rw [List.flatMap_append, h.values]
    exact List.range_succ.symm
  params := by
    rw [List.filterMap_append, List.filterMap_cons_none rfl, List.filterMap_nil, List.append_nil, ← h.params]
    exact map_modify_of_eq (by intro; rfl) _ _
  statements b := by
    rw [statementsOf_push h.current_lt, h.statements, located_append, List.filterMap_append, ← h.current]
    by_cases hb : d.current = b <;> simp [pushed?, hb]
  terminators b := by
    rw [terminatorOf?_push, h.terminators, located_append, List.filterMap_append]
    simp [ending?]
  definitions := by
    have hpush : (d.push op).2.definitions.Perm (d.definitions ++ [d.nextValue]) :=
      definitions_push h.current_lt
    have hperm := hpush.trans (h.definitions.append_right _)
    rwa [← List.range_succ] at hperm

theorem newBlock (h : Reads t d) (n : Nat) :
    Reads (t ++ [⟨.newBlock n, .block (d.newBlock n).1.1 (d.newBlock n).1.2⟩]) (d.newBlock n).2 where
  current := by
    rw [List.foldl_append]
    exact h.current
  current_lt := by
    change d.current < (d.blocks ++ [_]).length
    rw [List.length_append]
    exact Nat.lt_add_right _ h.current_lt
  values := by
    rw [List.flatMap_append, h.values, List.flatMap_singleton]
    exact range_append_range' d.nextValue n
  params := by
    simp [Draft.newBlock, h.params, List.filterMap_append, Exchange.params?]
  statements b := by
    rw [statementsOf_newBlock, h.statements, located_append, List.filterMap_append]
    simp [pushed?]
  terminators b := by
    rw [terminatorOf?_newBlock, h.terminators, located_append, List.filterMap_append]
    simp [ending?]
  definitions := by
    have hperm := h.definitions.append_right (List.range' d.nextValue n)
    rw [definitions_newBlock]
    rwa [range_append_range'] at hperm

theorem select (h : Reads t d) {b : Label} {d' : Draft} (hok : d.select b = (.ok (), d')) :
    Reads (t ++ [⟨.switchTo b, .done⟩]) d' := by
  unfold Draft.select at hok
  split_ifs at hok with hlt <;> cases hok
  refine ⟨?_, hlt, ?_, ?_, ?_, ?_, h.definitions⟩
  · rw [List.foldl_append]
    rfl
  · rw [List.flatMap_append, h.values]
    exact List.append_nil _
  · rw [List.filterMap_append, ← List.cons_append, ← h.params]
    exact (List.append_nil _).symm
  · intro b'
    rw [located_append, List.filterMap_append, ← h.statements]
    exact (List.append_nil _).symm
  · intro b'
    rw [located_append, List.filterMap_append, List.filterMap_cons_none rfl, List.filterMap_nil,
      List.append_nil, ← h.terminators]
    rfl

theorem close (h : Reads t d) {end' : Terminator} {d' : Draft} (hok : d.close end' = (.ok (), d')) :
    Reads (t ++ [⟨.terminate end', .done⟩]) d' := by
  obtain ⟨hopen, hstatements, hdefinitions, hterminators, hparams, hcurrent, hvalue⟩ := close_eq_ok hok
  refine ⟨?_, ?_, ?_, ?_, ?_, ?_, ?_⟩
  · rw [List.foldl_append, hcurrent]
    exact h.current
  · have hlength := congrArg List.length hparams
    rw [List.length_map, List.length_map] at hlength
    rw [hcurrent, hlength]
    exact h.current_lt
  · rw [List.flatMap_append, h.values, hvalue]
    exact List.append_nil _
  · rw [List.filterMap_append, ← List.cons_append, ← h.params, hparams]
    exact (List.append_nil _).symm
  · intro b
    rw [located_append, List.filterMap_append, hstatements, ← h.statements]
    exact (List.append_nil _).symm
  · intro b
    rw [located_append, List.filterMap_append, List.head?_append, ← h.terminators, hterminators,
      ← h.current]
    by_cases hb : d.current = b
    · subst hb
      simp [ending?, hopen]
    · simp [ending?, hb]
  · rw [hdefinitions, hvalue]
    exact h.definitions

/-- A refused call is as good as none, for the block that it should end has a terminator already. -/
theorem refused (h : Reads t d) {c : Call} {e : ProgramError} (hrefused : d.Refuses c e) :
    Reads (t ++ [⟨c, .refused e⟩]) d := by
  have hnext : ∀ b, nextBlock b ⟨c, .refused e⟩ = b := fun _ => by cases hrefused <;> rfl
  have hpushed : ∀ b, pushed? b (t.foldl nextBlock 0, ⟨c, .refused e⟩) = none :=
    fun _ => by cases hrefused <;> rfl
  refine ⟨?_, h.current_lt, ?_, ?_, ?_, ?_, h.definitions⟩
  · rw [List.foldl_append, List.foldl_cons, List.foldl_nil, hnext]
    exact h.current
  · rw [List.flatMap_append, h.values]
    exact List.append_nil _
  · rw [List.filterMap_append, ← List.cons_append, ← h.params]
    exact (List.append_nil _).symm
  · intro b
    rw [located_append, List.filterMap_append, List.filterMap_cons_none (hpushed b), List.filterMap_nil,
      List.append_nil, h.statements]
  · intro b
    rw [located_append, List.filterMap_append, List.head?_append, ← h.terminators, ← h.current]
    cases hrefused with
    | unknownBlock hle => simp [ending?]
    | @ended block t' end' hblock hended =>
      by_cases hb : d.current = b
      · subst hb
        simp [terminatorOf?, hblock, hended]
      · simp [ending?, hb]

end Reads

theorem ofOutcome_cases {d : Draft} {c : Call} {r : Except ProgramError Unit × Draft}
    (h : ∀ e d', r = (.error e, d') ↔ d.Refuses c e ∧ d' = d) :
    (∀ e, Reply.ofOutcome r.1 = .refused e ↔ d.Refuses c e) ∧
      ∀ e, Reply.ofOutcome r.1 = .refused e → r.2 = d := by
  obtain ⟨outcome, d'⟩ := r
  have houtcome : ∀ e, Reply.ofOutcome outcome = .refused e ↔ outcome = .error e := by
    cases outcome <;> simp [Reply.ofOutcome]
  simp only [houtcome]
  refine ⟨fun e => ⟨?_, fun hrefused => ?_⟩, ?_⟩
  · rintro rfl
    exact ((h e d').mp rfl).1
  · exact congrArg Prod.fst ((h e d).mpr ⟨hrefused, rfl⟩)
  · rintro e rfl
    exact ((h e d').mp rfl).2

/-- What an answer tells: the call has its effect, or the draft refuses it and stays the same. -/
theorem call_cases {d : Draft} (hcurrent : d.current < d.blocks.length) (c : Call) :
    (∀ e, (d.call c).1 = .refused e ↔ d.Refuses c e) ∧
      ∀ e, (d.call c).1 = .refused e → (d.call c).2 = d := by
  cases c with
  | push op =>
    refine ⟨fun e => ⟨fun h => ?_, fun h => ?_⟩, fun e h => ?_⟩ <;> cases h
  | newBlock n =>
    refine ⟨fun e => ⟨fun h => ?_, fun h => ?_⟩, fun e h => ?_⟩ <;> cases h
  | switchTo b => exact ofOutcome_cases fun _ _ => select_eq_error_iff
  | terminate t => exact ofOutcome_cases fun _ _ => close_eq_error_iff hcurrent

theorem Reads.call {d : Draft} {t : List Exchange} (h : Reads t d) (c : Call) :
    Reads (t ++ [⟨c, (d.call c).1⟩]) (d.call c).2 := by
  cases c with
  | push op => exact h.push op
  | newBlock n => exact h.newBlock n
  | switchTo b =>
    cases hselect : d.select b with
    | mk outcome d' =>
      simp only [Draft.call, hselect]
      cases outcome with
      | ok _ => exact h.select hselect
      | error e =>
        obtain ⟨hrefused, rfl⟩ := select_eq_error_iff.mp hselect
        exact h.refused hrefused
  | terminate end' =>
    cases hclose : d.close end' with
    | mk outcome d' =>
      simp only [Draft.call, hclose]
      cases outcome with
      | ok _ => exact h.close hclose
      | error e =>
        obtain ⟨hrefused, rfl⟩ := (close_eq_error_iff h.current_lt).mp hclose
        exact h.refused hrefused

theorem Reads.after {d : Draft} {t : List Exchange} (h : Reads t d) (calls : List Call) :
    Reads (t ++ d.transcript calls) (d.after calls) := by
  induction calls generalizing t d with
  | nil => simpa [transcript, Draft.after] using h
  | cons c calls ih => simpa [transcript, Draft.after] using ih (h.call c)

end Draft

def Block.draft (b : Block) : DraftBlock := ⟨b.params, b.statements, some b.terminator⟩

namespace Draft

variable {d : Draft} {t : List Exchange} {p : Program}

theorem sealBlocks_eq_ok_iff {blocks : List DraftBlock} {sealed : List Block} :
    sealBlocks blocks = .ok sealed ↔ blocks = sealed.map Block.draft := by
  rw [sealBlocks, mapM_eq_ok]
  refine forall₂_zipIdx_iff ?_ blocks 0 sealed
  rintro ⟨params, statements, terminator⟩ i ⟨params', statements', terminator'⟩
  cases terminator <;> simp [Block.draft]

theorem finish_eq_ok_iff : d.finish = .ok p ↔
    d.blocks = p.blocks.map Block.draft ∧ d.nextValue = p.numValues ∧ p.check = .ok () := by
  simp only [finish, bind_eq_ok, sealBlocks_eq_ok_iff, Program.ofBlocks_eq_ok_iff]
  constructor
  · rintro ⟨sealed, hblocks, rfl, hcheck⟩
    exact ⟨hblocks, rfl, hcheck⟩
  · rintro ⟨hblocks, hvalues, hcheck⟩
    exact ⟨p.blocks, hblocks, by rw [hvalues], hcheck⟩

theorem definitions_eq (h : d.blocks = p.blocks.map Block.draft) : d.definitions = p.definitions := by
  rw [definitions, h, List.flatMap_map]
  rfl

theorem Reads.describes (h : Reads t d) (hblocks : d.blocks = p.blocks.map Block.draft)
    (hvalues : d.nextValue = p.numValues) : Describes t p where
  values := hvalues ▸ h.values
  params := by
    rw [← h.params, hblocks, List.map_map]
    rfl
  statements b block hblock := by
    have hstatements := h.statements b
    rw [statementsOf, hblocks, List.getElem?_map, show p.blocks[b]? = some block from hblock] at hstatements
    exact hstatements
  terminators b block hblock := by
    have hterminator := h.terminators b
    rw [terminatorOf?, hblocks, List.getElem?_map, show p.blocks[b]? = some block from hblock] at hterminator
    exact hterminator.symm

/-- Only one program is described by the exchanges that lead to a draft. -/
theorem Reads.blocks_eq (h : Reads t d) (hp : Describes t p) :
    d.blocks = p.blocks.map Block.draft ∧ d.nextValue = p.numValues := by
  refine ⟨List.ext_getElem? fun b => ?_, ?_⟩
  · have hparams := congrArg (·[b]?) (h.params.trans hp.params.symm)
    simp only [List.getElem?_map] at hparams ⊢
    have hstatements := h.statements b
    have hterminators := h.terminators b
    cases hblock : p.blocks[b]? with
    | none =>
      rw [hblock] at hparams
      simpa using hparams
    | some block =>
      rw [hblock, Option.map_some, Option.map_eq_some_iff] at hparams
      obtain ⟨draft, hdraft, hparams⟩ := hparams
      rw [← hp.statements b block hblock, statementsOf, hdraft] at hstatements
      rw [hp.terminators b block hblock, terminatorOf?, hdraft] at hterminators
      obtain ⟨params, statements, terminator⟩ := draft
      cases hparams
      cases hstatements
      cases hterminators
      rw [hdraft]
      rfl
  · have hlength := congrArg List.length (h.values.symm.trans hp.values)
    rwa [List.length_range, List.length_range] at hlength

/-- Whatever is called on an empty draft, a call is refused only if it switches to a block that does not
exist or ends a block again, and then it leaves the draft as it is. The draft is finished with exactly the
well-formed program that the calls and their answers describe: every statement stands in the block that was
current when it was pushed, in the order of the calls, and every block has the first terminator that was set
on it. Each value of the program is defined once, by a parameter or by a statement. -/
theorem finish_single_assignment (calls : List Call) :
    (∀ c e, ((after {} calls).call c).1 = .refused e ↔ (after {} calls).Refuses c e) ∧
      (∀ c e, ((after {} calls).call c).1 = .refused e → ((after {} calls).call c).2 = after {} calls) ∧
      (∀ p, (after {} calls).finish = .ok p ↔ p.check = .ok () ∧ Describes (transcript {} calls) p) ∧
      ∀ p, (after {} calls).finish = .ok p → p.definitions.Perm (List.range p.numValues) := by
  have hreads : Reads (transcript {} calls) (after {} calls) := Reads.empty.after calls
  refine ⟨fun c => (call_cases hreads.current_lt c).1, fun c => (call_cases hreads.current_lt c).2, ?_, ?_⟩
  · intro p
    rw [finish_eq_ok_iff]
    constructor
    · rintro ⟨hblocks, hvalues, hcheck⟩
      exact ⟨hcheck, hreads.describes hblocks hvalues⟩
    · rintro ⟨hcheck, hp⟩
      obtain ⟨hblocks, hvalues⟩ := hreads.blocks_eq hp
      exact ⟨hblocks, hvalues, hcheck⟩
  · intro p hp
    obtain ⟨hblocks, hvalues, _⟩ := finish_eq_ok_iff.mp hp
    rw [← definitions_eq hblocks, ← hvalues]
    exact hreads.definitions

/-- Two blocks are open side by side, the entry gets a statement after its terminator, and two calls are
refused: the second terminator of the entry and the switch to a block that does not exist. -/
def interleavedCalls : List Call :=
  [.push .load, .newBlock 1, .newBlock 0, .terminate (.jump 2 []), .terminate (.ret 0), .switchTo 2,
    .push (.fill 0 [⟨0, 1⟩]), .switchTo 7, .switchTo 1, .push (.move 1 []), .switchTo 0,
    .push (.constant (.bool true)), .switchTo 2, .terminate (.jump 1 [2]), .switchTo 1, .terminate (.ret 3)]

theorem finish_interleavedCalls :
    ∃ p, (after {} interleavedCalls).finish = .ok p ∧
      p.blocks.map (·.statements.map (·.result)) = [[0, 4], [3], [2]] ∧ p.check = .ok () ∧
      p.definitions.Perm [0, 1, 2, 3, 4] ∧ Describes (transcript {} interleavedCalls) p ∧
      ((after {} interleavedCalls).call (.terminate (.ret 0))).2 = after {} interleavedCalls := by
  obtain ⟨p, hp, hresults⟩ := exists_ok_of_any (x := (after {} interleavedCalls).finish)
    (P := fun p => p.blocks.map (·.statements.map (·.result)) = [[0, 4], [3], [2]] ∧ p.numValues = 5)
    (by decide +kernel)
  obtain ⟨hresults, hvalues⟩ := of_decide_eq_true hresults
  obtain ⟨_, hunchanged, hfinish, hdefinitions⟩ := finish_single_assignment interleavedCalls
  obtain ⟨hcheck, hdescribes⟩ := (hfinish p).mp hp
  have hperm := hdefinitions p hp
  rw [hvalues] at hperm
  exact ⟨p, hp, hresults, hcheck, hperm, hdescribes, hunchanged _ (.duplicateTerminator 1) rfl⟩

end Draft

end AtomTransport
