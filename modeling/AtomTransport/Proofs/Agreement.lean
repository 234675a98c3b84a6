import AtomTransport.Proofs.Compilation

/-!
# The atoms are where the placements say

The state that enters the gate of a layer holds every qubit on the site that the returned placement of
that layer gives it, after as many moves as the placement counts. A local rotation acts on the sites
where that state holds the qubits of its gate.
-/

namespace AtomTransport

def Analysis.trace (a : Analysis) : Trace := { values := a.values }

namespace Compiled

/-- Value `v` holds exactly the qubits below `n`, where the placement has them and after as many
moves. -/
structure Holds (r : Compiled) (n : Nat) (v : Var) (a : Atoms) (after : Placement) : Prop where
  value : r.analysis.value v = .atoms a ∨ r.analysis.value v = .measured a
  qubits : a.list.map (·.qubit) = List.range n
  locations : ∀ q, a.locationOf? q = after.layout[q]?
  moves : ∀ q < n, after.moves[q]? = some (a.moves q)

def entering (r : Compiled) (d : Device) (p : GateProgram) (start : Placement) (k : Nat) :
    Except CompileError (Var × Lowering) :=
  (Lowering.filled start).entering d 1 (p.layers.zip (r.placements.zip r.moves)) k

/-- Layer `k` is placed at `after`, its gate is entered with state `v` behind the statements of `s`,
and it adds the statements up to those of `s'` to the program. -/
structure Reaches (r : Compiled) (d : Device) (p : GateProgram) (start : Placement) (k : Nat)
    (layer : GateLayer) (after : Placement) (v : Var) (s s' : Lowering) : Prop where
  layer_eq : p.layers[k]? = some layer
  placed : r.placements[k]?.map (·.after) = some (.known after)
  entering : r.entering d p start k = .ok (v, s)
  gate : ∃ v', ({ s with layout := after.layout } : Lowering).gate d v layer = .ok (v', s')
  program : ∀ i op, s'.ops[i]? = some op → (⟨0, i⟩, ⟨i, op⟩) ∈ r.program.statements

theorem exists_holds {r : Compiled} {n : Nat} {v : Var} {after : Placement}
    (h : r.analysis.trace.Stands v after) (hn : after.layout.length = n) :
    ∃ a, a.Realizes after ∧ r.Holds n v a after := by
  obtain ⟨y, a, hy, ha, hrealizes⟩ := h
  refine ⟨a, hrealizes, ?_, ?_, hrealizes.locationOf?, ?_⟩
  · have hvalue : r.analysis.value v = y := Trace.value_eq hy
    rw [hvalue]
    cases y <;> cases ha
    · exact Or.inl rfl
    · exact Or.inr rfl
  · rw [hrealizes.qubits, hn]
  · intro q hq
    exact hrealizes.moves_eq (hn ▸ hq)

end Compiled

namespace Lowering

theorem gate_of_rotated {d : Device} {s s' : Lowering} {state state' : Var} {layer : GateLayer}
    {qubits : List Qubit} (hlayer : layer.rotated? = some qubits)
    (h : s.gate d state layer = .ok (state', s')) :
    ∃ op locations, s'.ops = s.ops ++ [op] ∧ op.rotation? = some (state, locations) := by
  cases layer with
  | localR qubits axis rotation =>
    obtain ⟨locations, _, h⟩ := bind_eq_ok.mp h
    cases h
    exact ⟨_, locations, ops_emit _, rfl⟩
  | localRz qubits rotation =>
    obtain ⟨locations, _, h⟩ := bind_eq_ok.mp h
    cases h
    exact ⟨_, locations, ops_emit _, rfl⟩
  | cz | globalR | globalRz | measure | detector | observable => cases hlayer

end Lowering

namespace Compiler

variable {c : Compiler} {p : GateProgram} {initial : InitialLayout} {b : Blueprint} {r : Compiled}
  {start last : Placement} {state : Var} {s : Lowering}

/-- Every gate layer is reached with a state that realises its placement, and the statements that it
adds carry out the gate there. -/
theorem Lowered.reaches (hs : c.graph.device.SingleSource)
    (h : c.Lowered p initial start r.placements r.moves last state s)
    (hok : c.compile p initial = .ok r) {k : Nat} {layer : GateLayer}
    (hk : p.layers[k]? = some layer) :
    ∃ after v s₁ s₂ new, r.Reaches c.graph.device p start k layer after v s₁ s₂ ∧
      after.Sound c.graph.device ∧ layer.Paired c.graph.device after ∧
      after.layout.length = p.numQubits ∧ s₂.ops = s₁.ops ++ new ∧
      r.analysis.trace.Stands v after ∧
      ∀ op ∈ new, op.Carries c.graph.device layer after v r.analysis.trace := by
  obtain ⟨hsound, hsize, hmoves⟩ := InitialLayout.sound_of_place h.placed
  obtain ⟨t₀, h₀⟩ := Lowering.tracks_filled hsound hmoves
  obtain ⟨placement, layerMoves, hplacement, hstage⟩ := h.getElem?_stages hk
  obtain ⟨after, v, s₁, v', s₂, new, t, hafter, hsound', hpaired, hentering, hgate, hnew, hprefix,
    hstands, hcarries, ht⟩ := h₀.entering hs hsound h.staged h.layers hstage
  rw [List.nil_append, h.map_fst_stages] at ht
  have hreturns := h.returns_of_compile ht hok
  refine ⟨after, v, s₁, s₂, new, ⟨hk, ?_, hentering, ⟨v', hgate⟩, ?_⟩, hsound', hpaired, ?_, hnew,
    hstands.mono hreturns.values, fun op hop => (hcarries op hop).mono hreturns.values⟩
  · rw [hplacement, Option.map_some, hafter]
  · intro i op hi
    obtain ⟨more, value, _, hprogram⟩ := hreturns.program
    obtain ⟨rest, hrest⟩ := hprefix
    have hlt' := (List.getElem?_eq_some_iff.mp hi).1
    rw [hprogram, Program.mem_statements_straightLine]
    refine ⟨i, op, ?_, rfl⟩
    rw [← hrest, List.append_assoc, List.getElem?_append_left hlt', hi]
  · obtain ⟨after', hafter', hlength⟩ := h.staged.known hstage
    rw [hafter] at hafter'
    cases hafter'
    exact hlength.trans hsize

theorem Lowered.layer_of_rotation (hs : c.graph.device.SingleSource)
    (h : c.Lowered p initial start r.placements r.moves last state s)
    (hok : c.compile p initial = .ok r) {point : Point} {st : Statement} {v : Var}
    {locations : List Location} (hmem : (point, st) ∈ r.program.statements)
    (hrotation : st.op.rotation? = some (v, locations)) :
    ∃ k layer after u s₁ u' s₂, p.layers[k]? = some layer ∧
      r.placements[k]?.map (·.after) = some (.known after) ∧
      r.entering c.graph.device p start k = .ok (u, s₁) ∧
      ({ s₁ with layout := after.layout } : Lowering).gate c.graph.device u layer = .ok (u', s₂) ∧
      s₁.ops.length ≤ point.index ∧ s₂.ops[point.index]? = some st.op := by
  obtain ⟨hsound, _, hmoves⟩ := InitialLayout.sound_of_place h.placed
  obtain ⟨t₀, h₀⟩ := Lowering.tracks_filled hsound hmoves
  obtain ⟨t, ht⟩ := h.tracks hs
  obtain ⟨new, value, hquiet, hprogram⟩ := (h.returns_of_compile ht hok).program
  rw [hprogram, Program.mem_statements_straightLine] at hmem
  obtain ⟨i, op, hi, hmem⟩ := hmem
  cases hmem
  have hstate : op.stateInput? = some v := by
    cases op <;> cases hrotation <;> rfl
  have hlt : i < s.ops.length := by
    by_contra hge
    rw [List.getElem?_append_right (Nat.le_of_not_lt hge)] at hi
    rw [hquiet op (List.mem_of_getElem? hi)] at hstate
    cases hstate
  rw [List.getElem?_append_left hlt] at hi
  rcases h₀.mem_ops hs hsound h.staged h.layers hi with hfirst | ⟨_, _, rfl⟩ |
    ⟨k, layer, placement, layerMoves, after, u, s₁, u', s₂, hstage, hafter, hentering, hgate, hle, hi₂⟩
  · obtain ⟨_, t₁, hops, _, _⟩ := h₀.layers hs hsound h.staged h.layers
    rw [hops, List.getElem?_append_left hfirst] at hi
    have hop : op ∈ (Lowering.filled start).ops := List.mem_of_getElem? hi
    rcases List.mem_pair.mp hop with rfl | rfl <;> cases hrotation
  · cases hrotation
  · obtain ⟨hk, hrest⟩ := List.getElem?_zip_eq_some.mp hstage
    obtain ⟨hplacement, _⟩ := List.getElem?_zip_eq_some.mp hrest
    exact ⟨k, layer, after, u, s₁, u', s₂, hk, by rw [hplacement, Option.map_some, hafter], hentering,
      hgate, hle, hi₂⟩

/-- Every layer is reached with a state that holds its placement, and a rotation among its statements
acts on that state, at the sites of the qubits that the layer names. -/
theorem Lowered.holds (hs : c.graph.device.SingleSource)
    (h : c.Lowered p initial start r.placements r.moves last state s)
    (hok : c.compile p initial = .ok r) {k : Nat} {layer : GateLayer}
    (hk : p.layers[k]? = some layer) :
    ∃ after v s₁ s₂ a, r.Reaches c.graph.device p start k layer after v s₁ s₂ ∧
      r.Holds p.numQubits v a after ∧
      ∀ i op u locations, s₁.ops.length ≤ i → s₂.ops[i]? = some op →
        op.rotation? = some (u, locations) → u = v ∧ ∃ qubits, layer.rotated? = some qubits ∧
          qubits.map a.locationOf? = locations.map some := by
  obtain ⟨after, v, s₁, s₂, new, hreaches, _, _, hsize, hnew, hstands, hcarries⟩ :=
    h.reaches hs hok hk
  obtain ⟨a, ha, hholds⟩ := Compiled.exists_holds hstands hsize
  refine ⟨after, v, s₁, s₂, a, hreaches, hholds, ?_⟩
  intro i op u locations hle hi hrotation
  rw [hnew, List.getElem?_append_right hle] at hi
  obtain ⟨hu, qubits, hqubits, hsites⟩ :=
    (hcarries op (List.mem_of_getElem? hi)).rotation u locations hrotation
  refine ⟨hu, qubits, hqubits, ?_⟩
  rw [← List.forall₂_eq_eq_eq, List.forall₂_map_left_iff, List.forall₂_map_right_iff]
  refine hsites.imp ?_
  intro q l hl
  rw [ha.locationOf?, hl]

/-- In a compiled program every gate is entered by a state that holds exactly the qubits of the
program, each where the returned placement of its layer has it and after the moves that the placement
counts. A local rotation becomes one statement, whose sites are those of its qubits in that state, and
there are no other rotations. -/
theorem placements_agree (hb : Device.ofBlueprint b = .ok c.graph.device)
    (hs : c.graph.device.SingleSource) (hok : c.compile p initial = .ok r) :
    ∃ start, initial.place c.graph.device p.numQubits = .ok start ∧
      (∀ k layer, p.layers[k]? = some layer → ∃ after v s s' a,
        r.Reaches c.graph.device p start k layer after v s s' ∧ r.Holds p.numQubits v a after ∧
        ∀ qubits, layer.rotated? = some qubits → ∃ op locations, s'.ops = s.ops ++ [op] ∧
          op.rotation? = some (v, locations) ∧ qubits.map a.locationOf? = locations.map some) ∧
      ∀ point st v locations, (point, st) ∈ r.program.statements →
        st.op.rotation? = some (v, locations) → ∃ k layer qubits after s s' a,
          r.Reaches c.graph.device p start k layer after v s s' ∧ r.Holds p.numQubits v a after ∧
          s.ops.length ≤ point.index ∧ s'.ops[point.index]? = some st.op ∧
          layer.rotated? = some qubits ∧ qubits.map a.locationOf? = locations.map some := by
  obtain ⟨start, last, state, s, h⟩ := lowered_of_compile hb hs hok
  refine ⟨start, h.placed, ?_, ?_⟩
  · intro k layer hk
    obtain ⟨after, v, s₁, s₂, a, hreaches, hholds, hrotations⟩ := h.holds hs hok hk
    refine ⟨after, v, s₁, s₂, a, hreaches, hholds, ?_⟩
    intro qubits hqubits
    obtain ⟨v', hgate⟩ := hreaches.gate
    obtain ⟨op, locations, hops, hrotation⟩ := Lowering.gate_of_rotated hqubits hgate
    change s₂.ops = s₁.ops ++ [op] at hops
    obtain ⟨_, qubits', hqubits', hsites⟩ := hrotations s₁.ops.length op v locations (Nat.le_refl _)
      (by rw [hops, List.getElem?_concat_length]) hrotation
    rw [hqubits] at hqubits'
    cases hqubits'
    exact ⟨op, locations, hops, hrotation, hsites⟩
  · intro point st v locations hmem hrotation
    obtain ⟨k, layer, after', u', s₁', v', s₂', hk, hplaced, hentering, hgate, hle, hi⟩ :=
      h.layer_of_rotation hs hok hmem hrotation
    obtain ⟨after, u, s₁, s₂, a, hreaches, hholds, hrotations⟩ := h.holds hs hok hk
    obtain ⟨rfl, rfl⟩ : u' = u ∧ s₁' = s₁ := by
      have heq := hentering.symm.trans hreaches.entering
      cases heq
      exact ⟨rfl, rfl⟩
    obtain rfl : after' = after := by
      have heq := hplaced.symm.trans hreaches.placed
      cases heq
      rfl
    obtain ⟨w, hgate'⟩ := hreaches.gate
    obtain rfl : s₂' = s₂ := by
      have heq := hgate.symm.trans hgate'
      cases heq
      rfl
    obtain ⟨rfl, qubits, hqubits, hsites⟩ := hrotations point.index st.op v locations hle hi hrotation
    exact ⟨k, layer, qubits, after', s₁', s₂', a, hreaches, hholds, hle, hi, hqubits, hsites⟩

/-- The second meeting is entered after three layers, and the rotation before it is at the sites of
qubits 1 and 0. -/
theorem placements_agree_meetings :
    ∃ r start, forSmallGrid.compile meetings meetingSites = .ok r ∧
      (∃ after v s s' a,
        r.Reaches forSmallGrid.graph.device meetings start 3 (.cz [2] [0]) after v s s' ∧
        r.Holds 3 v a after) ∧
      ∃ after v s s' a op locations,
        r.Reaches forSmallGrid.graph.device meetings start 1 (.localR [1, 0] .zero .zero) after v s s' ∧
        r.Holds 3 v a after ∧ s'.ops = s.ops ++ [op] ∧ op.rotation? = some (v, locations) ∧
        [a.locationOf? 1, a.locationOf? 0] = locations.map some := by
  obtain ⟨r, hok⟩ := exists_compile_meetings
  obtain ⟨start, _, hlayers, _⟩ := placements_agree ofBlueprint_smallGrid singleSource_smallGrid hok
  obtain ⟨after, v, s, s', a, hreaches, hholds, _⟩ := hlayers 3 (.cz [2] [0]) rfl
  obtain ⟨after₁, v₁, s₁, s₁', a₁, hreaches₁, hholds₁, hrotated⟩ := hlayers 1 _ rfl
  obtain ⟨op, locations, hops, hrotation, hsites⟩ := hrotated [1, 0] rfl
  exact ⟨r, start, hok, ⟨after, v, s, s', a, hreaches, hholds⟩, after₁, v₁, s₁, s₁', a₁, op, locations,
    hreaches₁, hholds₁, hops, hrotation, hsites⟩

end Compiler

end AtomTransport
