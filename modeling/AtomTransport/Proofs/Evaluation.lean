import AtomTransport.Analysis
import AtomTransport.Proofs.ValueOrder

/-!
# Evaluation of operations and terminators

The value of an operation depends on its operands only. Where nothing is `unknown`, it grows with them,
and an operation that succeeds on some values succeeds on all values below. `Leads` is the rule by which
control leaves a block; an edge that is taken stays taken when the condition grows. What all atom states
that a value holds have in common is passed on by every operation whose own steps keep it.
-/

namespace AtomTransport

namespace Value

theorem atoms?_eq_none_of_le {a b : Value} (hab : a.le b = true) (hb : b.containsUnknown = false)
    (h : b.atoms? = none) : a.atoms? = none := by
  cases a with
  | atoms x =>
    rcases atoms_le_iff.mp hab with rfl | ⟨y, rfl, _⟩
    · cases hb
    · cases h
  | measured x =>
    rcases measured_le_iff.mp hab with rfl | ⟨y, rfl, _⟩
    · cases hb
    · cases h
  | _ => rfl

theorem atoms?_of_le {a b : Value} {y : Atoms} (hab : a.le b = true) (h : b.atoms? = some y) :
    a.atoms? = none ∨ ∃ x, a.atoms? = some x ∧ x.layout = y.layout := by
  cases a with
  | atoms x =>
    rcases atoms_le_iff.mp hab with rfl | ⟨z, rfl, hlayout⟩
    · cases h
    · cases h
      exact Or.inr ⟨x, rfl, hlayout⟩
  | measured x =>
    rcases measured_le_iff.mp hab with rfl | ⟨z, rfl, hlayout⟩
    · cases h
    · cases h
      exact Or.inr ⟨x, rfl, hlayout⟩
  | _ => exact Or.inl rfl

inductive Every (P : Atoms → Prop) : Value → Prop where
  | unknown : Every P .unknown
  | bottom : Every P .bottom
  | scalar (s : Scalar) : Every P (.scalar s)
  | result (q : Qubit) : Every P (.result q)
  | atoms {a : Atoms} (h : P a) : Every P (.atoms a)
  | measured {a : Atoms} (h : P a) : Every P (.measured a)
  | list {items : List Value} (h : ∀ x ∈ items, Every P x) : Every P (.list items)

namespace Every

variable {P : Atoms → Prop} {x y : Value}

theorem of_atoms? {a : Atoms} (h : x.Every P) (ha : x.atoms? = some a) : P a := by
  cases h <;> cases ha <;> assumption

theorem items {items : List Value} (h : (Value.list items).Every P) : ∀ x ∈ items, x.Every P := by
  cases h
  assumption

theorem getD {items : List Value} (h : ∀ x ∈ items, x.Every P) (i : Nat) :
    (items.getD i .bottom).Every P := by
  rw [List.getD_eq_getElem?_getD]
  cases hi : items[i]? with
  | none => exact .bottom
  | some x => exact h x (List.mem_of_getElem? hi)

end Every

end Value

def Scalar.isNaN : Scalar → Bool
  | float x => x.isNaN
  | _ => false

theorem Scalar.same_self {s : Scalar} (h : s.isNaN = false) : s.same s = true := by
  cases s with
  | float x => exact Binary64.eq_self h
  | _ => simp [same]

namespace Op

def isNaN : Op → Bool
  | constant value => value.isNaN
  | _ => false

variable {g : LaneGraph} {env env' : Var → Value} {op : Op}

theorem eval_of_stateInput? {s : Var} (h : op.stateInput? = some s) :
    op.eval g env = match (env s).atoms? with
      | some a => op.evalAtoms g a
      | none => .ok .bottom := by
  cases hs : (env s).atoms? <;> simp [eval, h, hs]

theorem mem_operands_of_stateInput? {s : Var} (h : op.stateInput? = some s) : s ∈ op.operands := by
  cases op <;> simp_all [stateInput?, operands]

theorem eval_congr (h : ∀ v ∈ op.operands, env v = env' v) : op.eval g env = op.eval g env' := by
  cases hinput : op.stateInput? with
  | some s =>
    rw [eval_of_stateInput? hinput, eval_of_stateInput? hinput, h s (mem_operands_of_stateInput? hinput)]
  | none =>
    cases op <;> simp_all [eval, stateInput?, operands]

theorem evalAtoms_eq_ok {a : Atoms} {x : Value} (h : op.evalAtoms g a = .ok x) :
    ∃ b, x = .atoms b ∨ x = .measured b := by
  obtain ⟨_, _, h⟩ := bind_eq_ok.mp h
  split at h
  · obtain ⟨b, _, h⟩ := bind_eq_ok.mp h
    cases h
    exact ⟨b, Or.inl rfl⟩
  · obtain ⟨b, _, h⟩ := bind_eq_ok.mp h
    cases h
    exact ⟨b, Or.inl rfl⟩
  · cases h
    exact ⟨a, Or.inr rfl⟩
  · cases h
    exact ⟨a, Or.inl rfl⟩

theorem evalAtoms_mono {a b : Atoms} {y : Value} (hab : a.layout = b.layout)
    (h : op.evalAtoms g b = .ok y) : ∃ x, op.evalAtoms g a = .ok x ∧ x.le y = true := by
  have hatoms : ∀ {a b : Atoms}, a.layout = b.layout → (Value.atoms a).le (.atoms b) = true :=
    fun hlayout => Value.atoms_le_iff.mpr (Or.inr ⟨_, rfl, hlayout⟩)
  obtain ⟨_, hcheck, h⟩ := bind_eq_ok.mp h
  simp only [evalAtoms, hcheck, ok_bind]
  cases op with
  | fill s locations =>
    obtain ⟨b', hfill, h⟩ := bind_eq_ok.mp h
    cases h
    obtain ⟨a', hfill', hlayout⟩ := (Atoms.alike_fill hab locations).exists_ok hfill
    exact ⟨.atoms a', by simp [hfill'], hatoms hlayout⟩
  | move s lanes =>
    obtain ⟨b', hmove, h⟩ := bind_eq_ok.mp h
    cases h
    obtain ⟨a', hmove', hlayout⟩ := (Atoms.alike_move g hab lanes).exists_ok hmove
    exact ⟨.atoms a', by simp [hmove'], hatoms hlayout⟩
  | endMeasure s zones =>
    cases h
    exact ⟨.measured a, rfl, Value.measured_le_iff.mpr (Or.inr ⟨b, rfl, hab⟩)⟩
  | _ =>
    cases h
    exact ⟨.atoms a, rfl, hatoms hab⟩

theorem zoneResults_congr {d : Device} {a b : Atoms} (h : a.layout = b.layout) (zone : Zone) :
    zoneResults d a zone = zoneResults d b zone := by
  simp only [zoneResults, Atoms.qubitAt?_of_layout h]

theorem zoneResults_same_self (d : Device) (a : Atoms) (zone : Zone) :
    (zoneResults d a zone).same (zoneResults d a zone) = true := by
  rw [zoneResults, Value.list_same_self_iff]
  intro x hx
  obtain ⟨l, _, rfl⟩ := List.mem_map.mp hx
  cases a.qubitAt? l <;> simp [Value.same]

theorem item_view (list index : Value) : item list index = .bottom ∨ list = .unknown ∨
    index = .unknown ∨ ∃ items n, list = .list items ∧ index = .scalar (.int n) ∧ 0 ≤ n := by
  cases list with
  | list items =>
    cases index with
    | scalar s =>
      cases s with
      | int n =>
        by_cases hn : n < 0
        · simp [item, hn]
        · exact Or.inr (Or.inr (Or.inr ⟨items, n, rfl, rfl, Int.not_lt.mp hn⟩))
      | _ => simp [item]
    | _ => simp [item]
  | _ => cases index <;> simp [item]

theorem item_list {items : List Value} {n : Int} (hn : 0 ≤ n) :
    item (.list items) (.scalar (.int n)) = items.getD n.toNat .bottom := by
  simp [item, Int.not_lt.mpr hn]

theorem item_mono {list list' index index' : Value} (hlist : list.le list' = true)
    (hindex : index.le index' = true) (hlist' : list'.containsUnknown = false)
    (hindex' : index'.containsUnknown = false) :
    (item list index).le (item list' index') = true := by
  rcases item_view list index with h | rfl | rfl | ⟨items, n, rfl, rfl, hn⟩
  · exact h ▸ Value.bottom_le _
  · cases Value.containsUnknown_of_le hlist hlist'
  · cases Value.containsUnknown_of_le hindex hindex'
  · rcases Value.list_le_iff.mp hlist with rfl | ⟨items', rfl, hitems⟩
    · cases hlist'
    rcases Value.scalar_le_iff.mp hindex with rfl | ⟨m, rfl, hm⟩
    · cases hindex'
    obtain rfl : m = .int n := by
      cases m <;> simp_all [Scalar.same]
    rw [item_list hn, item_list hn, List.getD_eq_getElem?_getD, List.getD_eq_getElem?_getD]
    by_cases hlt : n.toNat < items.length
    · have hlt' : n.toNat < items'.length := hitems.length_eq ▸ hlt
      rw [List.getElem?_eq_getElem hlt, List.getElem?_eq_getElem hlt']
      exact (List.forall₂_iff_get.mp hitems).2 _ hlt hlt'
    · rw [List.getElem?_eq_none (Nat.le_of_not_lt hlt)]
      exact Value.bottom_le _

theorem item_same_self {list index : Value} (hlist : list.same list = true) :
    (item list index).same (item list index) = true := by
  rcases item_view list index with h | rfl | rfl | ⟨items, n, rfl, rfl, hn⟩
  · rw [h]
    rfl
  · cases index <;> rfl
  · cases list <;> rfl
  · rw [item_list hn, List.getD_eq_getElem?_getD]
    cases hitem : items[n.toNat]? with
    | none => rfl
    | some x =>
      rw [Value.list_same_self_iff] at hlist
      exact hlist x (List.mem_of_getElem? hitem)

theorem eval_same_self {x : Value} (henv : ∀ v, (env v).same (env v) = true) (hnan : op.isNaN = false)
    (h : op.eval g env = .ok x) : x.same x = true := by
  cases hinput : op.stateInput? with
  | some s =>
    rw [eval_of_stateInput? hinput] at h
    split at h
    · obtain ⟨b, rfl | rfl⟩ := evalAtoms_eq_ok h <;> simp [Value.same]
    · cases h
      rfl
  | none =>
    cases op with
    | load =>
      cases h
      rfl
    | getFutureResult future zone =>
      simp only [eval, hinput] at h
      split at h
      · obtain ⟨_, _, h⟩ := bind_eq_ok.mp h
        cases h
        exact zoneResults_same_self _ _ _
      · cases h
        rfl
      · cases h
        rfl
    | getZoneIndex zone location =>
      obtain ⟨_, _, h⟩ := bind_eq_ok.mp h
      obtain ⟨_, _, h⟩ := bind_eq_ok.mp h
      split at h <;> cases h <;> simp [Value.same, Scalar.same]
    | constant value =>
      cases h
      exact Scalar.same_self hnan
    | newList items =>
      cases h
      rw [Value.list_same_self_iff]
      intro x hx
      obtain ⟨v, _, rfl⟩ := List.mem_map.mp hx
      exact henv v
    | getItem list index =>
      cases h
      exact item_same_self (henv list)
    | setDetector measurements coordinates =>
      cases h
      exact henv measurements
    | setObservable measurements index =>
      cases h
      exact henv measurements
    | _ => cases hinput

section Every

variable {P : Atoms → Prop}

theorem zoneResults_every (d : Device) (a : Atoms) (zone : Zone) : (zoneResults d a zone).Every P := by
  apply Value.Every.list
  intro x hx
  obtain ⟨l, _, rfl⟩ := List.mem_map.mp hx
  cases a.qubitAt? l with
  | none => exact .bottom
  | some q => exact .result q

theorem item_every {list index : Value} (h : list.Every P) : (item list index).Every P := by
  rcases item_view list index with heq | rfl | rfl | ⟨items, n, rfl, rfl, hn⟩
  · exact heq ▸ .bottom
  · cases index <;> first | exact .unknown | exact .bottom
  · cases list <;> first | exact .unknown | exact .bottom
  · rw [item_list hn]
    exact Value.Every.getD h.items _

/-- An operation passes on what the states of its operands have in common, if its own step on atoms does
and the empty state has it too. -/
theorem eval_every {x : Value} (hempty : P {}) (henv : ∀ v, (env v).Every P)
    (hatoms : ∀ a y, P a → op.evalAtoms g a = .ok y → y.Every P) (h : op.eval g env = .ok x) :
    x.Every P := by
  cases hinput : op.stateInput? with
  | some s =>
    rw [eval_of_stateInput? hinput] at h
    split at h
    next a ha => exact hatoms a x ((henv s).of_atoms? ha) h
    · cases h
      exact .bottom
  | none =>
    cases op with
    | load =>
      cases h
      exact .atoms hempty
    | getFutureResult future zone =>
      simp only [eval, hinput] at h
      split at h
      · obtain ⟨_, _, h⟩ := bind_eq_ok.mp h
        cases h
        exact zoneResults_every _ _ _
      · cases h
        exact .unknown
      · cases h
        exact .bottom
    | getZoneIndex zone location =>
      obtain ⟨_, _, h⟩ := bind_eq_ok.mp h
      obtain ⟨_, _, h⟩ := bind_eq_ok.mp h
      split at h
      · cases h
        exact .scalar _
      · cases h
        exact .bottom
    | constant value =>
      cases h
      exact .scalar value
    | newList items =>
      cases h
      apply Value.Every.list
      intro x hx
      obtain ⟨v, _, rfl⟩ := List.mem_map.mp hx
      exact henv v
    | getItem list index =>
      cases h
      exact item_every (henv list)
    | setDetector measurements coordinates =>
      cases h
      exact henv measurements
    | setObservable measurements index =>
      cases h
      exact henv measurements
    | _ => cases hinput

end Every

/-- Where nothing is `unknown`, an operation that succeeds also succeeds on lower operands, and its value
is lower too. -/
theorem eval_mono {y : Value} (hle : ∀ v, (env v).le (env' v) = true)
    (hknown : ∀ v, (env' v).containsUnknown = false) (hnan : op.isNaN = false)
    (h : op.eval g env' = .ok y) : ∃ x, op.eval g env = .ok x ∧ x.le y = true := by
  cases hinput : op.stateInput? with
  | some s =>
    rw [eval_of_stateInput? hinput] at h ⊢
    split at h
    next b hb =>
      rcases Value.atoms?_of_le (hle s) hb with ha | ⟨a, ha, hlayout⟩
      · rw [ha]
        exact ⟨.bottom, rfl, Value.bottom_le _⟩
      · rw [ha]
        exact evalAtoms_mono hlayout h
    next hb =>
      rw [Value.atoms?_eq_none_of_le (hle s) (hknown s) hb]
      exact ⟨.bottom, rfl, Value.bottom_le _⟩
  | none =>
    cases op with
    | getFutureResult future zone =>
      have hfuture := hle future
      have hknown := hknown future
      simp only [eval, hinput] at h ⊢
      cases hx : env future with
      | measured a =>
        rcases Value.measured_le_iff.mp (hx ▸ hfuture) with hy | ⟨b, hy, hlayout⟩
        · rw [hy] at hknown
          cases hknown
        · rw [hy] at h
          obtain ⟨_, hcheck, h⟩ := bind_eq_ok.mp h
          cases h
          refine ⟨zoneResults g.device a zone, by simp only [hcheck, ok_bind], ?_⟩
          rw [zoneResults_congr hlayout]
          exact Value.le_of_same (zoneResults_same_self _ _ _)
      | unknown =>
        rw [hx] at hfuture
        rw [Value.unknown_le_iff.mp hfuture] at hknown
        cases hknown
      | _ => exact ⟨.bottom, rfl, Value.bottom_le _⟩
    | constant value =>
      cases h
      exact ⟨.scalar value, rfl, Value.le_of_same (Scalar.same_self hnan)⟩
    | newList items =>
      cases h
      refine ⟨_, rfl, Value.list_le_iff.mpr (Or.inr ⟨_, rfl, ?_⟩)⟩
      rw [List.forall₂_map_left_iff, List.forall₂_map_right_iff, List.forall₂_same]
      exact fun v _ => hle v
    | getItem list index =>
      cases h
      exact ⟨_, rfl, item_mono (hle list) (hle index) (hknown list) (hknown index)⟩
    | setDetector measurements coordinates =>
      cases h
      exact ⟨_, rfl, hle measurements⟩
    | setObservable measurements index =>
      cases h
      exact ⟨_, rfl, hle measurements⟩
    | load =>
      cases h
      exact ⟨_, rfl, Value.atoms_le_iff.mpr (Or.inr ⟨_, rfl, rfl⟩)⟩
    | getZoneIndex zone location =>
      have hsame : y.same y = true := @eval_same_self g (fun _ => .bottom) _ y (fun _ => rfl) hnan h
      exact ⟨y, h, Value.le_of_same hsame⟩
    | _ => cases hinput

end Op

namespace Terminator

/-- The rule by which control leaves a block: along the edge of a jump, along the edge of a branch that
matches a known bit, and along either edge of a branch on anything else but `bottom`. -/
inductive Leads (env : Var → Value) : Terminator → Label → List Var → Prop where
  | jump (target : Label) (args : List Var) : Leads env (.jump target args) target args
  | whenTrue {cond : Var} (h : env cond = .scalar (.bool true)) (t : Label) (ts : List Var) (e : Label)
      (es : List Var) : Leads env (.branch cond t ts e es) t ts
  | whenFalse {cond : Var} (h : env cond = .scalar (.bool false)) (t : Label) (ts : List Var)
      (e : Label) (es : List Var) : Leads env (.branch cond t ts e es) e es
  | eitherThen {cond : Var} (h : env cond ≠ .bottom) (hb : ∀ b, env cond ≠ .scalar (.bool b)) (t : Label)
      (ts : List Var) (e : Label) (es : List Var) : Leads env (.branch cond t ts e es) t ts
  | eitherElse {cond : Var} (h : env cond ≠ .bottom) (hb : ∀ b, env cond ≠ .scalar (.bool b)) (t : Label)
      (ts : List Var) (e : Label) (es : List Var) : Leads env (.branch cond t ts e es) e es

variable {env env' : Var → Value} {t : Terminator} {target : Label} {args : List Var}

theorem mem_takenEdges_iff : (target, args) ∈ t.takenEdges env ↔ t.Leads env target args := by
  constructor
  · intro h
    cases t with
    | jump target' args' =>
      cases List.mem_singleton.mp h
      exact .jump _ _
    | ret v => cases h
    | branch cond t ts e es =>
      simp only [takenEdges] at h
      split at h
      next hcond =>
        cases List.mem_singleton.mp h
        exact .whenTrue hcond _ _ _ _
      next hcond =>
        cases List.mem_singleton.mp h
        exact .whenFalse hcond _ _ _ _
      · cases h
      next htrue hfalse hbottom =>
        have hb : ∀ b, env cond ≠ .scalar (.bool b) := by
          rintro (_ | _)
          · exact hfalse
          · exact htrue
        rcases List.mem_cons.mp h with h | h
        · cases h
          exact .eitherThen hbottom hb _ _ _ _
        · cases List.mem_singleton.mp h
          exact .eitherElse hbottom hb _ _ _ _
  · intro h
    cases h with
    | jump => exact List.mem_singleton.mpr rfl
    | whenTrue h => simp [takenEdges, h]
    | whenFalse h => simp [takenEdges, h]
    | eitherThen h hb =>
      simp only [takenEdges]
      split <;> simp_all
    | eitherElse h hb =>
      simp only [takenEdges]
      split <;> simp_all

theorem Leads.congr (h : t.Leads env target args) (henv : ∀ v ∈ t.operands, env v = env' v) :
    t.Leads env' target args := by
  cases h with
  | jump => exact .jump _ _
  | whenTrue h => exact .whenTrue (henv _ List.mem_cons_self ▸ h) _ _ _ _
  | whenFalse h => exact .whenFalse (henv _ List.mem_cons_self ▸ h) _ _ _ _
  | eitherThen h hb =>
    rw [henv _ List.mem_cons_self] at h
    simp only [henv _ List.mem_cons_self] at hb
    exact .eitherThen h hb _ _ _ _
  | eitherElse h hb =>
    rw [henv _ List.mem_cons_self] at h
    simp only [henv _ List.mem_cons_self] at hb
    exact .eitherElse h hb _ _ _ _

theorem bool_eq_of_le {x y : Value} {b : Bool} (hle : x.le y = true) (hknown : y.containsUnknown = false)
    (hx : x = .scalar (.bool b)) : y = .scalar (.bool b) := by
  subst hx
  rcases Value.scalar_le_iff.mp hle with rfl | ⟨s, rfl, hs⟩
  · cases hknown
  · cases s <;> simp_all [Scalar.same]

theorem eq_bool_of_le {x y : Value} {b : Bool} (hle : x.le y = true) (hx : x ≠ .bottom)
    (hy : y = .scalar (.bool b)) : x = .scalar (.bool b) := by
  subst hy
  cases x with
  | scalar s => cases s <;> simp_all [Value.le, Scalar.same]
  | bottom => exact absurd rfl hx
  | _ => simp [Value.le] at hle

theorem Leads.mono (h : t.Leads env target args) (hle : ∀ v, (env v).le (env' v) = true)
    (hknown : ∀ v, (env' v).containsUnknown = false) : t.Leads env' target args := by
  have hbottom : ∀ {v}, env v ≠ .bottom → env' v ≠ .bottom :=
    fun hne heq => hne (Value.le_bottom_iff.mp (heq ▸ hle _))
  cases h with
  | jump => exact .jump _ _
  | whenTrue h => exact .whenTrue (bool_eq_of_le (hle _) (hknown _) h) _ _ _ _
  | whenFalse h => exact .whenFalse (bool_eq_of_le (hle _) (hknown _) h) _ _ _ _
  | eitherThen h hb =>
    exact .eitherThen (hbottom h) (fun b heq => hb b (eq_bool_of_le (hle _) h heq)) _ _ _ _
  | eitherElse h hb =>
    exact .eitherElse (hbottom h) (fun b heq => hb b (eq_bool_of_le (hle _) h heq)) _ _ _ _

end Terminator

end AtomTransport
