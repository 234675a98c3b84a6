import AtomTransport.Proofs.Threading

/-!
# Reserved sites stay empty

A compilation withholds some sites from its qubits: the reserved sites, and the sites of the layout that no
qubit is given. The statements of a compiled program put atoms on other sites only, whatever detours the
moves take, so no state that the analysis records has an atom on a withheld site.
-/

namespace AtomTransport

namespace Atoms

def Avoids (a : Atoms) (away : List Location) : Prop := ∀ atom ∈ a.list, atom.location ∉ away

variable {a a' : Atoms} {away : List Location} {g : LaneGraph}

theorem Avoids.place (h : a.Avoids away) {l : Location} {q : Qubit} (hl : l ∉ away)
    (hplace : a.place l q = .ok a') : a'.Avoids away := by
  intro atom hatom
  rcases (a.wellFormed.mem_list_place (pack_eq_ok.mp hplace)).mp hatom with rfl | hatom
  · exact hl
  · exact h atom hatom

theorem Avoids.fill (h : a.Avoids away) {locations : List Location} (hl : ∀ l ∈ locations, l ∉ away)
    (hfill : a.fill locations = .ok a') : a'.Avoids away := by
  have key : ∀ (entries : List (Location × Qubit)) (a : Atoms), a.Avoids away →
      (∀ e ∈ entries, e.1 ∉ away) → a.fillWith entries = .ok a' → a'.Avoids away := by
    intro entries
    induction entries with
    | nil =>
      intro a h _ hfill
      cases hfill
      exact h
    | cons e entries ih =>
      intro a h hentries hfill
      rw [List.forall_mem_cons] at hentries
      obtain ⟨mid, hplace, hfill⟩ := bind_eq_ok.mp (fillWith_cons a e.1 e.2 entries ▸ hfill)
      exact ih mid (h.place hentries.1 hplace) hentries.2 hfill
  apply key _ a h _ hfill
  intro e he
  exact hl e.1 (List.fst_mem_of_mem_zipIdx he)

theorem Avoids.move (h : a.Avoids away) {lanes : List Lane}
    (hlanes : ∀ lane ∈ lanes, ∀ src dst, g.endpoints? lane = some (src, dst) → dst ∉ away)
    (hmove : a.move g lanes = .ok a') : a'.Avoids away := by
  obtain ⟨hops, hhops, _, hlist⟩ := move_eq_ok hmove
  obtain ⟨hlane, _, _, hends⟩ := AtomMaps.hops_spec hhops
  rw [Avoids, hlist]
  intro atom hatom
  obtain ⟨before, hbefore, rfl⟩ := List.mem_map.mp hatom
  unfold AtomMaps.relocate
  split
  next hop hfind =>
    have hmem := List.mem_of_find?_eq_some hfind
    exact hlanes hop.lane (hlane ▸ List.mem_map_of_mem hmem) hop.src hop.dst (hends hop hmem).1
  · exact h before hbefore

end Atoms

inductive Value.Avoids (away : List Location) : Value → Prop where
  | unknown : Avoids away .unknown
  | bottom : Avoids away .bottom
  | scalar (s : Scalar) : Avoids away (.scalar s)
  | result (q : Qubit) : Avoids away (.result q)
  | atoms {a : Atoms} (h : a.Avoids away) : Avoids away (.atoms a)
  | measured {a : Atoms} (h : a.Avoids away) : Avoids away (.measured a)
  | list {items : List Value} (h : ∀ x ∈ items, Avoids away x) : Avoids away (.list items)

theorem Value.avoids_iff_every {away : List Location} {x : Value} :
    x.Avoids away ↔ x.Every (·.Avoids away) := by
  constructor
  · intro h
    induction h with
    | unknown => exact .unknown
    | bottom => exact .bottom
    | scalar s => exact .scalar s
    | result q => exact .result q
    | atoms h => exact .atoms h
    | measured h => exact .measured h
    | list _ ih => exact .list ih
  · intro h
    induction h with
    | unknown => exact .unknown
    | bottom => exact .bottom
    | scalar s => exact .scalar s
    | result q => exact .result q
    | atoms h => exact .atoms h
    | measured h => exact .measured h
    | list _ ih => exact .list ih

theorem Value.Avoids.of_atoms? {away : List Location} {x : Value} {a : Atoms} (h : x.Avoids away)
    (ha : x.atoms? = some a) : a.Avoids away :=
  (Value.avoids_iff_every.mp h).of_atoms? ha

namespace Op

def entered (g : LaneGraph) : Op → List Location
  | fill _ locations => locations
  | move _ lanes => lanes.filterMap fun lane => (g.endpoints? lane).map (·.2)
  | _ => []

def Avoids (g : LaneGraph) (away : List Location) (op : Op) : Prop := ∀ l ∈ op.entered g, l ∉ away

variable {g : LaneGraph} {op : Op} {away : List Location} {env : Var → Value} {x : Value}

theorem avoids_of_entered (h : op.entered g = []) : op.Avoids g away := by
  intro l hl
  rw [h] at hl
  cases hl

theorem avoids_of_stateInput? (h : op.stateInput? = none) : op.Avoids g away := by
  apply avoids_of_entered
  cases op <;> first | rfl | cases h

theorem evalAtoms_avoids {a : Atoms} (ha : a.Avoids away) (hop : op.Avoids g away)
    (h : op.evalAtoms g a = .ok x) : x.Avoids away := by
  obtain ⟨_, _, h⟩ := bind_eq_ok.mp h
  split at h
  · obtain ⟨b, hfill, h⟩ := bind_eq_ok.mp h
    cases h
    exact .atoms (ha.fill hop hfill)
  · obtain ⟨b, hmove, h⟩ := bind_eq_ok.mp h
    cases h
    refine .atoms (ha.move ?_ hmove)
    intro lane hlane src dst hends
    apply hop
    exact List.mem_filterMap.mpr ⟨lane, hlane, by rw [hends]; rfl⟩
  · cases h
    exact .measured ha
  · cases h
    exact .atoms ha

theorem eval_avoids (henv : ∀ v, (env v).Avoids away) (hop : op.Avoids g away)
    (h : op.eval g env = .ok x) : x.Avoids away := by
  rw [Value.avoids_iff_every]
  refine eval_every (fun _ => nofun) (fun v => Value.avoids_iff_every.mp (henv v)) ?_ h
  intro a y ha hy
  exact Value.avoids_iff_every.mp (evalAtoms_avoids ha hop hy)

end Op

namespace Executes

variable {g : LaneGraph} {ops : List Op} {t : Trace} {away : List Location}

theorem avoids (h : Executes g ops t) (hops : ∀ op ∈ ops, op.Avoids g away) :
    ∀ x ∈ t.values, x.Avoids away := by
  induction h with
  | nil => simp
  | @snoc ops t x _ op _ _ _ _ heval ih =>
    rw [List.forall_mem_append, List.forall_mem_singleton] at hops
    have hvalues := ih hops.1
    have henv : ∀ v, (t.value v).Avoids away := by
      intro v
      rw [Trace.value, List.getD_eq_getElem?_getD]
      cases hv : t.values[v]? with
      | none => exact .bottom
      | some y => exact hvalues y (List.mem_of_getElem? hv)
    rw [Trace.values_push, List.forall_mem_append, List.forall_mem_singleton]
    exact ⟨hvalues, Op.eval_avoids henv hops.2 heval⟩

theorem atoms?_of_yields (h : Executes g ops t) {point : Point} {x : Value} (hx : t.Yields ops point x) :
    ∃ a, x.atoms? = some a := by
  induction h with
  | nil =>
    obtain ⟨i, _, _, hi, _⟩ := hx
    simp at hi
  | @snoc ops t y hexec op _ _ _ hacts heval ih =>
    rw [Trace.yields_push hexec.length_values] at hx
    split_ifs at hx
    · obtain ⟨hop, rfl⟩ := hx
      cases hinput : op.stateInput? with
      | none =>
        obtain rfl : op = .load := by simpa [Op.producesState, hinput] using hop
        cases heval
        exact ⟨_, rfl⟩
      | some v =>
        obtain ⟨a, ha⟩ := hacts v hinput
        rw [Op.eval_of_stateInput? hinput, ha] at heval
        obtain ⟨b, rfl | rfl⟩ := Op.evalAtoms_eq_ok heval <;> exact ⟨b, rfl⟩
    · exact ih hx

end Executes

/-- The moves of a run end nowhere on the occupied locations, and leave these occupied. -/
theorem Run.spares {g : LaneGraph} {p last : Placement} {layers : List MoveLayer}
    (h : Run g p layers last) (hs : g.device.SingleSource) :
    last.occupied = p.occupied ∧ ∀ layer ∈ layers, ∀ lane ∈ layer.lanes, ∀ src dst,
      g.endpoints? lane = some (src, dst) → dst ∉ p.occupied := by
  induction layers generalizing p with
  | nil =>
    obtain rfl : p = last := h
    exact ⟨rfl, by simp⟩
  | cons layer layers ih =>
    obtain ⟨hops, hlanes, hstep, hrest⟩ := h
    obtain ⟨hoccupied, hall⟩ := ih hrest
    rw [Placement.hopAll_occupied] at hoccupied hall
    refine ⟨hoccupied, List.forall_mem_cons.mpr ⟨?_, hall⟩⟩
    intro lane hlane src dst hends
    rw [hlanes] at hlane
    obtain ⟨hop, hhop, rfl⟩ := List.mem_map.mp hlane
    cases (g.endpoints?_of_mem hs (hstep.edges hop hhop)).symm.trans hends
    exact hstep.avoids hop hhop

/-- The moves of staged layers end nowhere on the locations that are occupied before them. -/
theorem Staged.spares {g : LaneGraph} {p last : Placement}
    {stages : List (GateLayer × LayerPlacement × List MoveLayer)}
    (h : Staged g p stages last) (hs : g.device.SingleSource) :
    ∀ layer ∈ stages.flatMap (·.2.2), ∀ lane ∈ layer.lanes, ∀ src dst,
      g.endpoints? lane = some (src, dst) → dst ∉ p.occupied := by
  induction stages generalizing p with
  | nil => simp
  | cons stage stages ih =>
    obtain ⟨after, _, hrun, _, _, hrest⟩ := h
    obtain ⟨hoccupied, hmoves⟩ := hrun.spares hs
    have hstages := ih hrest
    rw [hoccupied] at hstages
    rw [List.flatMap_cons]
    exact List.forall_mem_append.mpr ⟨hmoves, hstages⟩

namespace Lowering

def Avoids (g : LaneGraph) (away : List Location) (s : Lowering) : Prop :=
  ∀ op ∈ s.ops, op.Avoids g away

variable {s : Lowering} {state : Var}

theorem subset_emit (op : Op) : s.ops ⊆ (s.emit op).2.ops := by
  rw [ops_emit]
  exact List.subset_append_left _ _

theorem mem_emit (op : Op) : op ∈ (s.emit op).2.ops := by
  rw [ops_emit]
  exact List.mem_append_right _ List.mem_cons_self

theorem subset_emitMoves (moves : List MoveLayer) : s.ops ⊆ (s.emitMoves state moves).2.ops := by
  induction moves generalizing s state with
  | nil => exact List.Subset.refl _
  | cons layer moves ih =>
    unfold emitMoves
    split_ifs
    · exact ih
    · exact List.Subset.trans (subset_emit (.move state layer.lanes)) ih

theorem mem_emitMoves {moves : List MoveLayer} {layer : MoveLayer} (hlayer : layer ∈ moves)
    (hne : layer.lanes ≠ []) : ∃ v, Op.move v layer.lanes ∈ (s.emitMoves state moves).2.ops := by
  induction moves generalizing s state with
  | nil => cases hlayer
  | cons first moves ih =>
    unfold emitMoves
    rcases List.mem_cons.mp hlayer with rfl | hlayer
    · rw [if_neg (by simpa [MoveLayer.isEmpty] using hne)]
      exact ⟨state, subset_emitMoves moves (mem_emit (.move state layer.lanes))⟩
    · split_ifs
      · exact ih hlayer
      · exact ih hlayer

end Lowering

/-- The sites that the qubits of a program do not get: the reserved sites and the rest of the layout. -/
def InitialLayout.withheld (i : InitialLayout) (numQubits : Nat) : List Location :=
  (i.reserved ++ i.sites.drop numQubits).filter (· ∉ i.sites.take numQubits)

theorem InitialLayout.mem_occupied_of_place {i : InitialLayout} {d : Device} {n : Nat} {p : Placement}
    (h : i.place d n = .ok p) {l : Location} : l ∈ p.occupied ↔ l ∈ i.withheld n := by
  unfold place at h
  split_ifs at h
  obtain ⟨_, _, h⟩ := bind_eq_ok.mp h
  split at h
  · cases h
  · cases h
    simp [Placement.ofLayout, withheld, Ascending.mem_ofList]

namespace Compiler

variable {c : Compiler} {p : GateProgram} {initial : InitialLayout} {b : Blueprint} {r : Compiled}
  {start last : Placement} {placements : List LayerPlacement} {moves : List (List MoveLayer)}
  {state : Var} {s : Lowering}

/-- The block of a compiled program, executed without a fault, and what the analysis records of it. -/
theorem Lowered.executed (hs : c.graph.device.SingleSource)
    (h : c.Lowered p initial start placements moves last state s)
    (hok : c.compile p initial = .ok r) :
    ∃ new value t, (∀ op ∈ new, op.stateInput? = none) ∧
      r.program = .straightLine (s.ops ++ new) value ∧ Executes c.graph (s.ops ++ new) t ∧
      ∀ point x, r.analysis.stateAt? point = some x ↔ t.Yields (s.ops ++ new) point x := by
  obtain ⟨t, ht⟩ := h.tracks hs
  obtain ⟨new, more, x, hnew, hquiet, hexecutes, hx, _⟩ := ht.result
  obtain ⟨hv, hcompile⟩ := h.compile_eq_analysis hnew hexecutes hx
  rw [hok] at hcompile
  obtain ⟨a, hrun, hcompile⟩ := bind_eq_ok.mp hcompile.symm
  obtain ⟨readout, _, hcompile⟩ := bind_eq_ok.mp hcompile
  cases hcompile
  have hrun := mapError_eq_ok.mp hrun
  obtain ⟨a', hrun', _, _, _, _, hstates⟩ :=
    hexecutes.analysis_run hv (Analysis.one_le_of_run hrun)
  cases hrun.symm.trans hrun'
  exact ⟨new, _, _, hquiet, rfl, hexecutes, hstates⟩

/-- No statement of a compiled program puts an atom on a withheld site: the only ones that put atoms anywhere are
the first one that fills sites and the moves of the layers. -/
theorem Lowered.avoids (hs : c.graph.device.SingleSource)
    (h : c.Lowered p initial start placements moves last state s) :
    s.Avoids c.graph start.occupied := by
  have hblock := Lowering.reflects_layers h.length_placements h.length_moves h.layers
  intro op hop
  cases op with
  | fill v locations =>
    have hmem : locations ∈ s.ops.filterMap Op.filled? := List.mem_filterMap.mpr ⟨_, hop, rfl⟩
    rw [hblock.fills, List.mem_singleton] at hmem
    exact hmem ▸ (InitialLayout.sound_of_place h.placed).1.free
  | move v lanes =>
    have hmem : ⟨lanes⟩ ∈ s.ops.filterMap Op.moved? := List.mem_filterMap.mpr ⟨_, hop, rfl⟩
    rw [hblock.moves, List.mem_filter, ← Lowering.flatMap_stages h.length_placements h.length_moves] at hmem
    intro l hl
    obtain ⟨lane, hlane, hl⟩ := List.mem_filterMap.mp hl
    obtain ⟨⟨src, dst⟩, hends, rfl⟩ := Option.map_eq_some_iff.mp hl
    exact h.staged.spares hs ⟨lanes⟩ hmem.1 lane hlane src dst hends
  | _ => exact Op.avoids_of_entered rfl

theorem Lowered.mem_ops_of_mem_moves (hs : c.graph.device.SingleSource)
    (h : c.Lowered p initial start placements moves last state s) {layers : List MoveLayer}
    (hlayers : layers ∈ moves) {layer : MoveLayer} (hlayer : layer ∈ layers) (hne : layer.lanes ≠ []) :
    ∃ v, Op.move v layer.lanes ∈ s.ops := by
  obtain ⟨hsound, _, hmoves⟩ := InitialLayout.sound_of_place h.placed
  obtain ⟨t₀, h₀⟩ := Lowering.tracks_filled hsound hmoves
  obtain ⟨k, hk⟩ := List.mem_iff_getElem?.mp hlayers
  have hlt := (List.getElem?_eq_some_iff.mp hk).1
  rw [h.length_moves] at hlt
  obtain ⟨placement, layers', _, hstage⟩ := h.getElem?_stages (List.getElem?_eq_getElem hlt)
  obtain rfl : layers = layers' := by
    obtain ⟨_, hrest⟩ := List.getElem?_zip_eq_some.mp hstage
    obtain ⟨_, hk'⟩ := List.getElem?_zip_eq_some.mp hrest
    exact Option.some.inj (hk.symm.trans hk')
  obtain ⟨_, v, s₁, _, s₂, new, _, _, _, _, hentering, _, hnew, hprefix, _⟩ :=
    h₀.entering hs hsound h.staged h.layers hstage
  obtain ⟨⟨u, s₀⟩, _, hentering⟩ := bind_eq_ok.mp hentering
  rw [hstage] at hentering
  obtain rfl : (s₀.emitMoves u layers).2 = s₁ := congrArg Prod.snd (Except.ok.inj hentering)
  obtain ⟨v, hv⟩ : ∃ v, Op.move v layer.lanes ∈ (s₀.emitMoves u layers).2.ops :=
    Lowering.mem_emitMoves hlayer hne
  exact ⟨v, hprefix.subset (hnew ▸ List.mem_append_left _ hv)⟩

/-- In a compiled program every statement on atoms has a recorded state, every move layer is such a
statement, and no recorded state has an atom on a site that is reserved or left over by the layout. -/
theorem withheld_stay_empty (hb : Device.ofBlueprint b = .ok c.graph.device)
    (hs : c.graph.device.SingleSource) (hok : c.compile p initial = .ok r) :
    (∀ point x, r.analysis.stateAt? point = some x → ∃ a, x.atoms? = some a ∧
        ∀ atom ∈ a.list, atom.location ∉ initial.withheld p.numQubits) ∧
      (∀ point st, (point, st) ∈ r.program.statements → st.op.producesState = true →
        ∃ x, r.analysis.stateAt? point = some x) ∧
      ∀ moves ∈ r.moves, ∀ layer ∈ moves, layer.lanes ≠ [] →
        ∃ point st v, (point, st) ∈ r.program.statements ∧ st.op = .move v layer.lanes := by
  obtain ⟨start, last, state, s, h⟩ := lowered_of_compile hb hs hok
  obtain ⟨new, value, t, hquiet, hprogram, hexecutes, hstates⟩ := h.executed hs hok
  have havoids : ∀ op ∈ s.ops ++ new, op.Avoids c.graph start.occupied :=
    List.forall_mem_append.mpr ⟨h.avoids hs, fun op hop => Op.avoids_of_stateInput? (hquiet op hop)⟩
  refine ⟨?_, ?_, ?_⟩
  · intro point x hx
    have hyields := (hstates point x).mp hx
    obtain ⟨a, ha⟩ := hexecutes.atoms?_of_yields hyields
    obtain ⟨i, _, _, _, _, hi⟩ := hyields
    have hvalue := hexecutes.avoids havoids x (List.mem_of_getElem? hi)
    refine ⟨a, ha, ?_⟩
    intro atom hatom hwithheld
    exact hvalue.of_atoms? ha atom hatom ((InitialLayout.mem_occupied_of_place h.placed).mpr hwithheld)
  · intro point st hst hstate
    rw [hprogram, Program.mem_statements_straightLine] at hst
    obtain ⟨i, op, hi, heq⟩ := hst
    cases heq
    have hlt := (List.getElem?_eq_some_iff.mp hi).1
    rw [← hexecutes.length_values] at hlt
    exact ⟨_, (hstates _ _).mpr ⟨i, op, rfl, hi, hstate, List.getElem?_eq_getElem hlt⟩⟩
  · intro moves hmoves layer hlayer hne
    obtain ⟨v, hv⟩ := h.mem_ops_of_mem_moves hs hmoves hlayer hne
    obtain ⟨i, hi⟩ := List.mem_iff_getElem?.mp (List.mem_append_left new hv)
    rw [hprogram]
    exact ⟨⟨0, i⟩, ⟨i, _⟩, v, Program.mem_statements_straightLine.mpr ⟨i, _, hi, rfl⟩, rfl⟩

def detour : GateProgram := ⟨2, [.cz [0] [1]]⟩

def detourSites : InitialLayout := ⟨[⟨0, 0⟩, ⟨1, 0⟩, ⟨0, 1⟩], [⟨0, 2⟩]⟩

/-- The atom of qubit 0 takes four moves around the two withheld sites. -/
theorem withheld_stay_empty_detour :
    detourSites.withheld detour.numQubits = [⟨0, 2⟩, ⟨0, 1⟩] ∧
      ∃ r, forSmallGrid.compile detour detourSites = .ok r ∧ r.numMoveLayers = 4 ∧
        ∀ point st, (point, st) ∈ r.program.statements → st.op.producesState = true →
          ∃ x a, r.analysis.stateAt? point = some x ∧ x.atoms? = some a ∧
            ∀ atom ∈ a.list, atom.location ∉ ([⟨0, 2⟩, ⟨0, 1⟩] : List Location) := by
  have hcompile : (forSmallGrid.compile detour detourSites).toOption.any (·.numMoveLayers = 4) = true := by
    decide +kernel
  obtain ⟨r, hok, hlayers⟩ := exists_ok_of_any hcompile
  have hwithheld : detourSites.withheld detour.numQubits = [⟨0, 2⟩, ⟨0, 1⟩] := by decide
  obtain ⟨hempty, hrecorded, _⟩ := withheld_stay_empty ofBlueprint_smallGrid singleSource_smallGrid hok
  refine ⟨hwithheld, r, hok, of_decide_eq_true hlayers, ?_⟩
  intro point st hst hstate
  obtain ⟨x, hx⟩ := hrecorded point st hst hstate
  obtain ⟨a, ha, haway⟩ := hempty point x hx
  exact ⟨x, a, hx, ha, hwithheld ▸ haway⟩

end Compiler

end AtomTransport
