import AtomTransport.Compiler
import AtomTransport.Proofs.Synthesis

/-!
# Gate layers with their placements and moves

Placement starts on different existing sites and goes from layer to layer. Between two layers whose
placements are known, the moves run from the first to the second, so that a gate program whose
placements are all known comes with one unbroken run.
-/

namespace AtomTransport

namespace InitialLayout

theorem firstRepeat?_eq_none_iff {seen sites : List Location} :
    firstRepeat? seen sites = none ↔ sites.Nodup ∧ ∀ l ∈ sites, l ∉ seen := by
  induction sites generalizing seen with
  | nil => simp [firstRepeat?]
  | cons l sites ih =>
    by_cases hl : l ∈ seen
    · simp [firstRepeat?, hl]
    · simp only [firstRepeat?, List.contains_eq_mem, hl, decide_false, Bool.false_eq_true, if_false,
        ih, List.mem_cons, not_or, List.nodup_cons, forall_eq_or_imp]
      constructor
      · rintro ⟨hn, hall⟩
        exact ⟨⟨fun hin => (hall l hin).1 rfl, hn⟩, not_false, fun l' hin => (hall l' hin).2⟩
      · rintro ⟨⟨hout, hn⟩, _, hall⟩
        exact ⟨hn, fun l' hin => ⟨fun heq => hout (heq ▸ hin), hall l' hin⟩⟩

theorem sound_of_place {i : InitialLayout} {d : Device} {n : Nat} {p : Placement}
    (h : i.place d n = .ok p) :
    p.Sound d ∧ p.layout.length = n ∧ p.moves = List.replicate p.layout.length 0 := by
  unfold place at h
  split_ifs at h with hfew
  obtain ⟨⟨⟩, hcheck, h⟩ := bind_eq_ok.mp h
  rw [mapError_eq_ok, forM_eq_ok] at hcheck
  split at h
  · cases h
  next hrepeat =>
    obtain ⟨hnodup, _⟩ := firstRepeat?_eq_none_iff.mp hrepeat
    cases h
    refine ⟨⟨?_, (List.take_sublist n _).nodup hnodup, ?_, ?_⟩, ?_, rfl⟩
    · intro l hl
      exact Device.checkLocation_eq_ok_iff.mp
        (hcheck l (List.mem_append_left _ (List.mem_of_mem_take hl)))
    · intro l hl hin
      have hin := (List.mem_filter.mp (Ascending.mem_ofList.mp hin)).2
      simp only [Placement.ofLayout] at hl
      simp [hl] at hin
    · simp [Placement.ofLayout]
    · simp only [Placement.ofLayout, List.length_take]
      omega

theorem place_eq_error {i : InitialLayout} {d : Device} {n : Nat} {e : CompileError}
    (h : i.place d n = .error e) :
    (∃ required available, e = .tooFewSites required available) ∨ (∃ cause, e = .address cause) ∨
      ∃ l, e = .duplicateSite l := by
  unfold place at h
  split_ifs at h
  · cases h
    exact Or.inl ⟨_, _, rfl⟩
  · rcases bind_eq_error.mp h with hcheck | ⟨_, _, h⟩
    · obtain ⟨cause, _, rfl⟩ := mapError_eq_error.mp hcheck
      exact Or.inr (Or.inl ⟨cause, rfl⟩)
    · split at h
      · cases h
        exact Or.inr (Or.inr ⟨_, rfl⟩)
      · cases h

end InitialLayout

def GateLayer.Paired (d : Device) (layer : GateLayer) (p : Placement) : Prop :=
  ∀ controls targets, layer = .cz controls targets → controls.length = targets.length ∧
    ∀ pair ∈ controls.zip targets, p.Blockaded d pair.1 pair.2

/-- Gate layers with known placements, and moves that run from each placement to the next. -/
def Staged (g : LaneGraph) : Placement → List (GateLayer × LayerPlacement × List MoveLayer) →
    Placement → Prop
  | p, [], last => p = last
  | p, (layer, placement, moves) :: rest, last => ∃ after, placement.after = .known after ∧
      Run g p moves after ∧ after.Sound g.device ∧ layer.Paired g.device after ∧
      Staged g after rest last

theorem Staged.split {g : LaneGraph} {p last : Placement}
    {xs ys : List (GateLayer × LayerPlacement × List MoveLayer)}
    (h : Staged g p (xs ++ ys) last) : ∃ mid, Staged g p xs mid ∧ Staged g mid ys last := by
  induction xs generalizing p with
  | nil => exact ⟨p, rfl, h⟩
  | cons x xs ih =>
    obtain ⟨after, hknown, hrun, hsound, hpaired, hrest⟩ := h
    obtain ⟨mid, hxs, hys⟩ := ih hrest
    exact ⟨mid, ⟨after, hknown, hrun, hsound, hpaired, hxs⟩, hys⟩

theorem Staged.known {g : LaneGraph} {p last : Placement}
    {xs : List (GateLayer × LayerPlacement × List MoveLayer)} (h : Staged g p xs last) {k : Nat}
    {x : GateLayer × LayerPlacement × List MoveLayer} (hk : xs[k]? = some x) :
    ∃ after, x.2.1.after = .known after ∧ after.layout.length = p.layout.length := by
  induction xs generalizing p k with
  | nil => simp at hk
  | cons y xs ih =>
    obtain ⟨next, hnext, hrun, _, _, hrest⟩ := h
    cases k with
    | zero =>
      cases hk
      exact ⟨next, hnext, hrun.length_layout⟩
    | succ k =>
      obtain ⟨after, hafter, hlength⟩ := ih hrest hk
      exact ⟨after, hafter, hlength.trans hrun.length_layout⟩

namespace Placement

theorem transfer_eq_error {g : LaneGraph} {h : Heuristic} {s : Strategy} {p : Placement}
    {layer : GateLayer} {e : CompileError} (ht : transfer g h s p layer = .error e) :
    ∃ control target, e = .noPlacement control target := by
  have hpair : ∀ (pairs : List (Qubit × Qubit)) (plan : LayerPlan),
      pairs.foldlM (fun plan pair => plan.placePair s pair) plan = .error e →
      ∃ control target, e = .noPlacement control target := by
    intro pairs
    induction pairs with
    | nil =>
      intro plan hfold
      cases hfold
    | cons pair pairs ih =>
      intro plan hfold
      rw [List.foldlM_cons] at hfold
      rcases bind_eq_error.mp hfold with hstep | ⟨plan', _, hfold⟩
      · simp only [LayerPlan.placePair] at hstep
        split_ifs at hstep
        split at hstep
        · cases hstep
        · cases hstep
          exact ⟨_, _, rfl⟩
      · exact ih plan' hfold
  unfold transfer at ht
  split at ht
  · rcases bind_eq_error.mp ht with hplace | ⟨_, _, ht⟩
    · unfold placeCz at hplace
      split_ifs at hplace
      rcases bind_eq_error.mp hplace with hfold | ⟨_, _, hplace⟩
      · exact hpair _ _ hfold
      · cases hplace
    · cases ht
  · cases ht

theorem placeLayers_eq_error {g : LaneGraph} {h : Nat → Heuristic} {s : Strategy} {layers : List GateLayer}
    {index : Nat} {before : PlacementInfo} {e : CompileError}
    (hplace : placeLayers g h s index before layers = .error e) :
    ∃ control target, e = .noPlacement control target := by
  induction layers generalizing index before with
  | nil => cases hplace
  | cons layer layers ih =>
    have hrest : ∀ info paths, (placeLayers g h s (index + 1) info layers >>= fun placements =>
        .ok (⟨index, before, info, paths⟩ :: placements)) = .error e →
        ∃ control target, e = .noPlacement control target := by
      intro info paths hbind
      rcases bind_eq_error.mp hbind with herror | ⟨_, _, hbind⟩
      · exact ih herror
      · cases hbind
    unfold placeLayers at hplace
    cases before with
    | known p =>
      rcases bind_eq_error.mp hplace with herror | ⟨⟨after, paths⟩, _, hplace⟩
      · exact transfer_eq_error herror
      · exact hrest after paths hplace
    | nothing => exact hrest _ _ hplace
    | anything => exact hrest _ _ hplace

end Placement

namespace Compiler

variable {c : Compiler} {b : Blueprint} {s : Strategy} {before : Placement} {layer : GateLayer}

/-- The moves of a layer between known placements run from one to the other; if the second placement
is lost, this is what is reported. -/
theorem layerMoves_of_transfer (hb : Device.ofBlueprint b = .ok c.graph.device)
    (hs : c.graph.device.SingleSource) (hbefore : before.Sound c.graph.device) {h : Heuristic} (index : Nat)
    {info : PlacementInfo} {paths : List (Qubit × Path)}
    (ht : Placement.transfer c.graph h s before layer = .ok (info, paths)) :
    (c.layerMoves ⟨index, .known before, info, paths⟩ = .error (.imprecisePlacement index)) ∨
      ∃ after moves, info = .known after ∧
        c.layerMoves ⟨index, .known before, info, paths⟩ = .ok moves ∧
        Run c.graph before moves after ∧ after.Sound c.graph.device ∧
        layer.Paired c.graph.device after := by
  cases info with
  | nothing => exact Or.inl rfl
  | anything => exact Or.inl rfl
  | known after =>
    obtain ⟨taken, routes, hrouted, rfl, hpaired⟩ :=
      Placement.routed_of_transfer hb hbefore.length_moves ht
    obtain ⟨moves, halong, hrun⟩ := MoveLayer.along_of_routed hb hs hbefore hrouted (c.heuristics.moving index)
    exact Or.inr ⟨after, moves, rfl, halong, hrun, hrun.sound hs hbefore, hpaired⟩

/-- Between placement and moves nothing fails but the knowledge of a placement, and moves that are
found are those of a staged program. -/
theorem staged_of_placeLayers (hb : Device.ofBlueprint b = .ok c.graph.device)
    (hs : c.graph.device.SingleSource) {layers : List GateLayer} {index : Nat}
    {placements : List LayerPlacement} (hbefore : before.Sound c.graph.device)
    (hplace : Placement.placeLayers c.graph c.heuristics.placing s index (.known before) layers =
      .ok placements) :
    (∃ i, placements.mapM c.layerMoves = .error (.imprecisePlacement i)) ∨
      ∃ moves last, placements.mapM c.layerMoves = .ok moves ∧ placements.length = layers.length ∧
        moves.length = layers.length ∧
        Staged c.graph before (layers.zip (placements.zip moves)) last := by
  induction layers generalizing index before placements with
  | nil =>
    cases hplace
    exact Or.inr ⟨[], before, rfl, rfl, rfl, rfl⟩
  | cons layer layers ih =>
    unfold Placement.placeLayers at hplace
    obtain ⟨⟨info, paths⟩, ht, hplace⟩ := bind_eq_ok.mp hplace
    obtain ⟨rest, hrest, hplace⟩ := bind_eq_ok.mp hplace
    cases hplace
    rcases layerMoves_of_transfer hb hs hbefore index ht with
      hlost | ⟨after, moves, rfl, hmoves, hrun, hsound, hpaired⟩
    · exact Or.inl ⟨index, by rw [List.mapM_cons, hlost]; rfl⟩
    · rcases ih hsound hrest with ⟨i, hlost⟩ | ⟨more, last, hmore, hlength, hlength', hstaged⟩
      · exact Or.inl ⟨i, by rw [List.mapM_cons, hmoves, ok_bind, hlost]; rfl⟩
      · refine Or.inr ⟨moves :: more, last, ?_, ?_, ?_, ?_⟩
        · rw [List.mapM_cons, hmoves, ok_bind, hmore]
          rfl
        · rw [List.length_cons, List.length_cons, hlength]
        · rw [List.length_cons, List.length_cons, hlength']
        · exact ⟨after, rfl, hrun, hsound, hpaired, hstaged⟩

end Compiler

end AtomTransport
