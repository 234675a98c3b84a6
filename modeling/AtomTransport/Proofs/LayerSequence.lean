import AtomTransport.Proofs.Compilation

/-!
# Placements from layer to layer

Placement goes through the gate layers one after another. A layer keeps the placement, or brings the pairs
of its CZ gates together, or gives up what is known; and what is given up stays unknown. So the placements
are known up to the first CZ gates that do not match, and each of them is sound, with the qubits and the
occupied locations of the first.
-/

namespace AtomTransport

/-- The atoms of every pair meet: they sit on sites that interact, at most one of the two has moved there,
and the qubits outside all pairs have stayed. -/
structure Meets (d : Device) (controls targets : List Qubit) (before after : Placement) : Prop where
  facing : ∀ (i : Nat) c t, controls[i]? = some c → targets[i]? = some t → ∃ lc lt,
    after.layout[c]? = some lc ∧ after.layout[t]? = some lt ∧
      d.blockaded? lc = some lt ∧ d.blockaded? lt = some lc ∧
      (before.layout[c]? = some lc ∨ before.layout[t]? = some lt)
  stays : ∀ q, q ∉ controls ++ targets → after.layout[q]? = before.layout[q]?

namespace GateLayer

/-- CZ gates match if there are as many controls as targets and no qubit is named twice. -/
def Matched : GateLayer → Prop
  | cz controls targets => controls.length = targets.length ∧ (controls ++ targets).Nodup
  | _ => True

instance : DecidablePred Matched
  | cz controls targets =>
    inferInstanceAs (Decidable (controls.length = targets.length ∧ (controls ++ targets).Nodup))
  | localR _ _ _ | globalR _ _ | localRz _ _ | globalRz _ | measure | detector _ _ | observable _ =>
    isTrue trivial

def Places (d : Device) (before after : Placement) : GateLayer → Prop
  | cz controls targets => Meets d controls targets before after
  | _ => after = before

end GateLayer

theorem LayerPlan.Follows.meets {b : Blueprint} {g : LaneGraph} {before : Placement}
    {controls targets : List Qubit} {plan : LayerPlan} (hb : Device.ofBlueprint b = .ok g.device)
    (h : Follows g before (controls.zip targets) plan) :
    Meets g.device controls targets before plan.placement where
  facing i c t hc ht := by
    have hpair : (c, t) ∈ controls.zip targets :=
      List.mem_of_getElem? (List.getElem?_zip_eq_some.mpr ⟨hc, ht⟩)
    obtain ⟨lc, lt, hlc, hlt, hblock⟩ := h.together _ hpair
    refine ⟨lc, lt, hlc, hlt, hblock, (Device.blockaded?_eq_some hb hblock).2.2.1, ?_⟩
    rcases h.single _ hpair with hstay | hstay
    · exact Or.inl (h.routed.stays hstay ▸ hlc)
    · exact Or.inr (h.routed.stays hstay ▸ hlt)
  stays q hq := by
    refine h.routed.stays fun hin => hq ?_
    obtain ⟨pair, hpair, hname⟩ := h.named q hin
    obtain ⟨hc, ht⟩ := List.of_mem_zip hpair
    rcases hname with rfl | rfl
    · exact List.mem_append_left _ hc
    · exact List.mem_append_right _ ht

/-- What a gate layer makes of what is known about a placement, with the paths of the atoms that move. -/
inductive LayerStep (g : LaneGraph) (layer : GateLayer) :
    PlacementInfo → PlacementInfo → List (Qubit × Path) → Prop
  | lost : LayerStep g layer .anything .anything []
  | refused {before : Placement} (hcz : layer.isCz = true)
      (hnot : ¬ (layer.Matched ∧ ∀ q ∈ layer.qubits, q < before.layout.length)) :
      LayerStep g layer (.known before) .anything []
  | placed {before after : Placement} {taken : Option (Nat × Nat)} {routes : List (Qubit × Route)}
      (hmatched : layer.Matched) (hrouted : Routed g before after taken routes)
      (hplaces : layer.Places g.device before after) :
      LayerStep g layer (.known before) (.known after) (routes.map fun r => (r.1, r.2.toPath))

theorem Placement.step_of_transfer {b : Blueprint} {g : LaneGraph} {h : Heuristic} {s : Strategy}
    {before : Placement} {info : PlacementInfo} {layer : GateLayer} {paths : List (Qubit × Path)}
    (hb : Device.ofBlueprint b = .ok g.device) (hbefore : before.Sound g.device)
    (ht : transfer g h s before layer = .ok (info, paths)) :
    LayerStep g layer (.known before) info paths := by
  rcases transfer_cases hb hbefore.length_moves ht with ⟨hcz, rfl, rfl⟩ |
    ⟨controls, targets, rfl, hadmits, rfl, rfl⟩ |
    ⟨controls, targets, plan, rfl, hadmits, rfl, rfl, hfollows⟩
  · have hother : layer.Matched ∧ layer.Places g.device before before := by
      cases layer with
      | cz controls targets => exact absurd rfl (hcz controls targets)
      | _ => exact ⟨trivial, rfl⟩
    exact .placed hother.1 (Routed.refl before) hother.2
  · refine .refused rfl ?_
    rintro ⟨⟨hlength, hnodup⟩, hlt⟩
    rw [admitsCz_iff.mpr ⟨hlength, hnodup, hlt⟩] at hadmits
    cases hadmits
  · obtain ⟨hlength, hnodup, _⟩ := admitsCz_iff.mp hadmits
    exact .placed ⟨hlength, hnodup⟩ hfollows.routed (hfollows.meets hb)

structure Placement.Continues (d : Device) (p start : Placement) : Prop where
  sound : p.Sound d
  occupied_eq : p.occupied = start.occupied
  length_eq : p.layout.length = start.layout.length

namespace LayerStep

variable {g : LaneGraph} {layer : GateLayer} {before after : PlacementInfo}
  {paths : List (Qubit × Path)} {start : Placement}

theorem continues (h : LayerStep g layer before after paths)
    (hbefore : ∀ p, before = .known p → p.Continues g.device start) :
    ∀ p, after = .known p → p.Continues g.device start := by
  cases h with
  | lost => intro p hp; cases hp
  | refused => intro p hp; cases hp
  | placed _ hrouted _ =>
    rintro p ⟨⟩
    have hstart := hbefore _ rfl
    have htransition := hrouted.transition
    exact ⟨htransition.sound hstart.sound, htransition.occupied_eq.trans hstart.occupied_eq,
      htransition.length_layout.trans hstart.length_eq⟩

theorem after_eq_of_isCz_eq_false (h : LayerStep g layer before after paths)
    (hcz : layer.isCz = false) : after = before := by
  cases h with
  | lost => rfl
  | refused hcz' _ =>
    rw [hcz] at hcz'
    cases hcz'
  | placed _ _ hplaces =>
    cases layer with
    | cz controls targets => cases hcz
    | _ => exact congrArg PlacementInfo.known hplaces

theorem after_ne_nothing (h : LayerStep g layer before after paths) : after ≠ .nothing := by
  cases h <;> simp

theorem places {p q : Placement} (h : LayerStep g layer (.known p) (.known q) paths) :
    layer.Places g.device p q := by
  cases h with
  | placed _ _ hplaces => exact hplaces

end LayerStep

inductive LayerSequence (g : LaneGraph) :
    Nat → PlacementInfo → List GateLayer → List LayerPlacement → Prop
  | nil {index : Nat} {before : PlacementInfo} : LayerSequence g index before [] []
  | cons {index : Nat} {before after : PlacementInfo} {paths : List (Qubit × Path)}
      {layer : GateLayer} {layers : List GateLayer} {placements : List LayerPlacement}
      (hstep : LayerStep g layer before after paths)
      (hrest : LayerSequence g (index + 1) after layers placements) :
      LayerSequence g index before (layer :: layers) (⟨index, before, after, paths⟩ :: placements)

namespace Placement

variable {b : Blueprint} {g : LaneGraph} {h : Nat → Heuristic} {s : Strategy} {index : Nat}
  {before : PlacementInfo} {layer : GateLayer} {layers : List GateLayer}
  {placements : List LayerPlacement} {start : Placement}

theorem placeLayers_cons_eq_ok
    (hplace : placeLayers g h s index before (layer :: layers) = .ok placements) :
    ∃ after paths rest, placements = ⟨index, before, after, paths⟩ :: rest ∧
      placeLayers g h s (index + 1) after layers = .ok rest ∧
      ((∃ p, before = .known p ∧ transfer g (h index) s p layer = .ok (after, paths)) ∨
        (∀ p, before ≠ .known p) ∧ after = before ∧ paths = []) := by
  have hcons : ∀ after paths, (placeLayers g h s (index + 1) after layers >>= fun rest =>
      .ok (⟨index, before, after, paths⟩ :: rest)) = .ok placements →
      ∃ rest, placements = ⟨index, before, after, paths⟩ :: rest ∧
        placeLayers g h s (index + 1) after layers = .ok rest := by
    intro after paths hbind
    obtain ⟨rest, hrest, hbind⟩ := bind_eq_ok.mp hbind
    exact ⟨rest, (Except.ok.inj hbind).symm, hrest⟩
  unfold placeLayers at hplace
  cases before with
  | known p =>
    obtain ⟨⟨after, paths⟩, hlayer, hplace⟩ := bind_eq_ok.mp hplace
    obtain ⟨rest, hcons, hrest⟩ := hcons after paths hplace
    exact ⟨after, paths, rest, hcons, hrest, Or.inl ⟨p, rfl, hlayer⟩⟩
  | nothing =>
    obtain ⟨rest, hcons, hrest⟩ := hcons _ _ hplace
    exact ⟨_, _, rest, hcons, hrest, Or.inr ⟨by simp, rfl, rfl⟩⟩
  | anything =>
    obtain ⟨rest, hcons, hrest⟩ := hcons _ _ hplace
    exact ⟨_, _, rest, hcons, hrest, Or.inr ⟨by simp, rfl, rfl⟩⟩

theorem sequence_of_placeLayers (hb : Device.ofBlueprint b = .ok g.device) (hsome : before ≠ .nothing)
    (hbefore : ∀ p, before = .known p → p.Continues g.device start)
    (hplace : placeLayers g h s index before layers = .ok placements) :
    LayerSequence g index before layers placements := by
  induction layers generalizing index before placements with
  | nil =>
    cases hplace
    exact .nil
  | cons layer layers ih =>
    obtain ⟨after, paths, rest, rfl, hrest, hlayer⟩ := placeLayers_cons_eq_ok hplace
    have hstep : LayerStep g layer before after paths := by
      rcases hlayer with ⟨p, rfl, hlayer⟩ | ⟨hunknown, rfl, rfl⟩
      · exact step_of_transfer hb (hbefore p rfl).sound hlayer
      · cases after with
        | nothing => exact absurd rfl hsome
        | known p => exact absurd rfl (hunknown p)
        | anything => exact .lost
    exact .cons hstep (ih hstep.after_ne_nothing (hstep.continues hbefore) hrest)

end Placement

namespace LayerSequence

variable {g : LaneGraph} {index k : Nat} {before : PlacementInfo} {layers : List GateLayer}
  {placements : List LayerPlacement} {start : Placement} {e : LayerPlacement}

theorem map_index (h : LayerSequence g index before layers placements) :
    placements.map (·.index) = List.range' index layers.length := by
  induction h with
  | nil => rfl
  | cons _ _ ih => rw [List.map_cons, ih, List.length_cons, List.range'_succ]

theorem before_of_head (h : LayerSequence g index before layers placements)
    (he : placements[0]? = some e) : e.before = before := by
  cases h with
  | nil => cases he
  | cons _ _ =>
    cases he
    rfl

theorem before_eq_after (h : LayerSequence g index before layers placements) {e' : LayerPlacement}
    (he : placements[k]? = some e) (he' : placements[k + 1]? = some e') : e'.before = e.after := by
  induction h generalizing k with
  | nil => cases he
  | cons _ hrest ih =>
    cases k with
    | zero =>
      cases he
      exact hrest.before_of_head he'
    | succ k => exact ih he he'

theorem step (h : LayerSequence g index before layers placements) (he : placements[k]? = some e) :
    ∃ layer, layers[k]? = some layer ∧ LayerStep g layer e.before e.after e.paths := by
  induction h generalizing k with
  | nil => cases he
  | cons hstep _ ih =>
    cases k with
    | zero =>
      cases he
      exact ⟨_, rfl, hstep⟩
    | succ k => exact ih he

/-- What the steps of layers keep is kept by all placements. -/
theorem continues (h : LayerSequence g index before layers placements)
    (hbefore : ∀ p, before = .known p → p.Continues g.device start) {p : Placement}
    (he : e ∈ placements) (hp : e.before = .known p ∨ e.after = .known p) :
    p.Continues g.device start := by
  induction h with
  | nil => cases he
  | cons hstep _ ih =>
    rcases List.mem_cons.mp he with rfl | he
    · exact hp.elim (hbefore p) (hstep.continues hbefore p)
    · exact ih (hstep.continues hbefore) he

theorem after_eq_anything (h : LayerSequence g index .anything layers placements)
    (he : e ∈ placements) : e.after = .anything ∧ e.paths = [] := by
  induction placements generalizing index layers with
  | nil => cases he
  | cons e' placements ih =>
    cases h with
    | cons hstep hrest =>
      cases hstep
      rcases List.mem_cons.mp he with rfl | he
      · exact ⟨rfl, rfl⟩
      · exact ih hrest he

/-- The placement stays known as long as all CZ gates match. -/
theorem known_of_matched (h : LayerSequence g index (.known start) layers placements)
    (hrange : ∀ layer ∈ layers, ∀ q ∈ layer.qubits, q < start.layout.length)
    (hmatched : ∀ layer ∈ layers.take (k + 1), layer.Matched) (he : placements[k]? = some e) :
    ∃ p p', e.before = .known p ∧ e.after = .known p' := by
  induction layers generalizing index start placements k with
  | nil =>
    cases h
    cases he
  | cons layer layers ih =>
    rw [List.take_succ_cons] at hmatched
    cases h with
    | cons hstep hrest =>
      cases hstep with
      | refused _ hnot =>
        exact absurd ⟨hmatched layer List.mem_cons_self, hrange layer List.mem_cons_self⟩ hnot
      | placed _ hrouted _ =>
        cases k with
        | zero =>
          cases he
          exact ⟨_, _, rfl, rfl⟩
        | succ k =>
          refine ih hrest ?_ (fun l hl => hmatched l (List.mem_cons_of_mem _ hl)) he
          rw [hrouted.transition.length_layout]
          exact fun l hl => hrange l (List.mem_cons_of_mem _ hl)

/-- Nothing is known from the first CZ gates on that do not match. -/
theorem lost_of_unmatched (h : LayerSequence g index (.known start) layers placements)
    (hunmatched : ∃ layer ∈ layers.take (k + 1), ¬ layer.Matched) (he : placements[k]? = some e) :
    e.after = .anything ∧ e.paths = [] := by
  induction layers generalizing index start placements k with
  | nil =>
    cases h
    cases he
  | cons layer layers ih =>
    obtain ⟨l, hl, hnot⟩ := hunmatched
    rw [List.take_succ_cons] at hl
    cases h with
    | cons hstep hrest =>
      cases hstep with
      | refused _ _ =>
        cases k with
        | zero =>
          cases he
          exact ⟨rfl, rfl⟩
        | succ k => exact hrest.after_eq_anything (List.mem_of_getElem? he)
      | placed hmatched _ _ =>
        -- A layer that is placed matches; the one that does not comes after it.
        rcases List.mem_cons.mp hl with rfl | hl
        · exact absurd hmatched hnot
        · cases k with
          | zero => simp at hl
          | succ k => exact ih hrest ⟨l, hl, hnot⟩ he

end LayerSequence

namespace GateProgram

variable {b : Blueprint} {g : LaneGraph} {h : Nat → Heuristic} {s : Strategy} {initial : InitialLayout}
  {p : GateProgram} {placements : List LayerPlacement}

theorem sequence_of_place (hb : Device.ofBlueprint b = .ok g.device)
    (hplace : p.place g h s initial = .ok placements) :
    ∃ start, initial.place g.device p.numQubits = .ok start ∧ start.layout.length = p.numQubits ∧
      LayerSequence g 0 (.known start) p.layers placements ∧
      ∀ e ∈ placements, ∀ q, e.before = .known q ∨ e.after = .known q →
        q.Continues g.device start := by
  obtain ⟨start, hstart, hplace⟩ := bind_eq_ok.mp hplace
  obtain ⟨hsound, hlength, _⟩ := InitialLayout.sound_of_place hstart
  have hself : ∀ q, PlacementInfo.known start = .known q → q.Continues g.device start := by
    rintro _ ⟨⟩
    exact ⟨hsound, rfl, rfl⟩
  have hsome : PlacementInfo.known start ≠ .nothing := by simp
  have hseq := Placement.sequence_of_placeLayers hb hsome hself hplace
  exact ⟨start, hstart, hlength, hseq, fun e he q hq => hseq.continues hself he hq⟩

/-- Placement goes on from the initial placement, layer by layer, and keeps it sound. CZ gates that match
are placed with all their pairs facing each other; from the first that do not match, nothing is known. -/
theorem placements_of_layers (hb : Device.ofBlueprint b = .ok g.device) (hcheck : p.check = .ok ())
    (hplace : p.place g h s initial = .ok placements) :
    ∃ start, initial.place g.device p.numQubits = .ok start ∧
      placements.map (·.index) = List.range p.layers.length ∧
      (∀ e, placements[0]? = some e → e.before = .known start) ∧
      (∀ (k : Nat) e e', placements[k]? = some e → placements[k + 1]? = some e' →
        e'.before = e.after) ∧
      (∀ e ∈ placements, ∀ q, e.before = .known q ∨ e.after = .known q →
        q.Sound g.device ∧ q.occupied = start.occupied ∧ q.layout.length = p.numQubits) ∧
      ∀ (k : Nat) layer e, p.layers[k]? = some layer → placements[k]? = some e →
        (layer.isCz = false → e.after = e.before) ∧
        ((∀ l ∈ p.layers.take (k + 1), l.Matched) → ∃ before after, e.before = .known before ∧
          e.after = .known after ∧ layer.Places g.device before after) ∧
        ((∃ l ∈ p.layers.take (k + 1), ¬ l.Matched) → e.after = .anything ∧ e.paths = []) := by
  obtain ⟨start, hstart, hlength, hseq, hcontinues⟩ := sequence_of_place hb hplace
  refine ⟨start, hstart, ?_, fun e he => hseq.before_of_head he,
    fun k e e' he he' => hseq.before_eq_after he he', ?_, ?_⟩
  · rw [hseq.map_index, List.range_eq_range']
  · intro e he q hq
    obtain ⟨hsound, hoccupied, hsize⟩ := hcontinues e he q hq
    exact ⟨hsound, hoccupied, hsize.trans hlength⟩
  · intro k layer e hlayer he
    obtain ⟨layer', hlayer', hstep⟩ := hseq.step he
    obtain rfl : layer' = layer := Option.some.inj (hlayer'.symm.trans hlayer)
    refine ⟨hstep.after_eq_of_isCz_eq_false, ?_, fun hun => hseq.lost_of_unmatched hun he⟩
    intro hmatched
    have hrange : ∀ l ∈ p.layers, ∀ q ∈ l.qubits, q < start.layout.length := by
      intro l hl q hq
      rw [hlength]
      exact lt_of_check hcheck hl hq
    obtain ⟨before, after, hbefore, hafter⟩ := hseq.known_of_matched hrange hmatched he
    rw [hbefore, hafter] at hstep
    exact ⟨before, after, hbefore, hafter, hstep.places⟩

def interrupted : GateProgram :=
  ⟨3, [.cz [0] [1], .measure, .cz [2] [0], .cz [0, 1] [2, 0], .cz [0] [1]]⟩

/-- The second meeting is placed, and nothing is known of the last. -/
theorem placements_of_interrupted : ∃ placements,
    interrupted.place Compiler.forSmallGrid.graph .busReuse .logical Compiler.meetingSites =
      .ok placements ∧
    (∃ e before after, placements[2]? = some e ∧ e.before = .known before ∧
      e.after = .known after ∧ Meets Compiler.forSmallGrid.graph.device [2] [0] before after) ∧
    ∃ e, placements[4]? = some e ∧ e.after = .anything ∧ e.paths = [] := by
  have hrun : ((interrupted.place Compiler.forSmallGrid.graph .busReuse .logical
      Compiler.meetingSites).toOption.any fun _ => true) = true := by decide +kernel
  obtain ⟨placements, hplace, _⟩ := exists_ok_of_any hrun
  obtain ⟨_, _, hindices, _, _, _, hlayers⟩ :=
    placements_of_layers Compiler.ofBlueprint_smallGrid (by decide) hplace
  have hlength : placements.length = 5 := by
    simpa [interrupted] using congrArg List.length hindices
  have hmeeting := List.getElem?_eq_getElem (show 2 < placements.length by omega)
  have hlast := List.getElem?_eq_getElem (show 4 < placements.length by omega)
  obtain ⟨before, after, hbefore, hafter, hmeets⟩ := (hlayers 2 _ _ rfl hmeeting).2.1 (by decide)
  exact ⟨placements, hplace, ⟨_, before, after, hmeeting, hbefore, hafter, hmeets⟩, _, hlast,
    (hlayers 4 _ _ rfl hlast).2.2 (by decide)⟩

end GateProgram

end AtomTransport
