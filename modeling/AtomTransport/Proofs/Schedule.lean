import AtomTransport.Proofs.Route
import AtomTransport.Proofs.Transition

/-!
# From routes to layers

The stages of a set of routes are cut into layers of compatible lanes. Every lane of a stage is in
exactly one of its layers, so that a stage is a run of parallel steps, and the stages of the four phases
together carry every atom along its whole route.
-/

namespace AtomTransport

namespace MoveLayer

variable {d : Device}

theorem flatMap_filter_perm {α β : Type} [DecidableEq β] (key : α → β) {keys : List β}
    (hn : keys.Nodup) {xs : List α} (hx : ∀ x ∈ xs, key x ∈ keys) :
    (keys.flatMap fun k => xs.filter (key · = k)).Perm xs := by
  induction keys generalizing xs with
  | nil =>
    cases xs with
    | nil => exact List.Perm.refl _
    | cons x xs => simpa using hx x List.mem_cons_self
  | cons k keys ih =>
    obtain ⟨hk, hn⟩ := List.nodup_cons.mp hn
    have hrest : (keys.flatMap fun k' => xs.filter (key · = k')) =
        keys.flatMap fun k' => (xs.filter (!key · = k)).filter (key · = k') := by
      refine List.flatMap_congr ?_
      intro k' hk'
      rw [List.filter_filter]
      refine List.filter_congr ?_
      intro x _
      have hne : k' ≠ k := fun heq => hk (heq ▸ hk')
      by_cases hx' : key x = k'
      · simp [hx', hne]
      · simp [hx']
    have hcover : ∀ x ∈ xs.filter (!key · = k), key x ∈ keys := by
      intro x hx'
      obtain ⟨hmem, hne⟩ := List.mem_filter.mp hx'
      rcases List.mem_cons.mp (hx x hmem) with heq | hin
      · simp [heq] at hne
      · exact hin
    rw [List.flatMap_cons, hrest]
    exact ((ih hn hcover).append_left _).trans (List.filter_append_perm _ xs)

theorem insert_perm (lane : Lane) (layers : List MoveLayer) :
    ((insert d lane layers).flatMap (·.lanes)).Perm (lane :: layers.flatMap (·.lanes)) := by
  induction layers with
  | nil => exact List.Perm.refl _
  | cons layer layers ih =>
    simp only [insert]
    split_ifs
    · simp only [List.flatMap_cons, List.append_assoc, List.singleton_append]
      exact List.perm_middle
    · simp only [List.flatMap_cons]
      exact (ih.append_left _).trans List.perm_middle

theorem pairwise_insert (hd : ∀ a b, d.compatible a b = d.compatible b a) {lane : Lane}
    {layers : List MoveLayer}
    (h : ∀ l ∈ layers, l.lanes.Pairwise (fun a b => d.compatible a b = true)) :
    ∀ l ∈ insert d lane layers, l.lanes.Pairwise (fun a b => d.compatible a b = true) := by
  induction layers with
  | nil => simp [insert]
  | cons layer layers ih =>
    intro l hl
    simp only [insert] at hl
    split_ifs at hl with hfits
    · rcases List.mem_cons.mp hl with rfl | hl
      · refine List.pairwise_append.mpr ⟨h layer List.mem_cons_self, List.pairwise_singleton _ _, ?_⟩
        intro a ha b hb
        rw [List.mem_singleton.mp hb, hd]
        exact List.all_eq_true.mp hfits a ha
      · exact h l (List.mem_cons_of_mem _ hl)
    · rcases List.mem_cons.mp hl with rfl | hl
      · exact h l List.mem_cons_self
      · exact ih (fun l' hl' => h l' (List.mem_cons_of_mem _ hl')) l hl

theorem split_perm (lanes : List Lane) : ((split d lanes).flatMap (·.lanes)).Perm lanes := by
  have key : ∀ (lanes : List Lane) (layers : List MoveLayer),
      ((lanes.foldl (fun layers lane => insert d lane layers) layers).flatMap (·.lanes)).Perm
        (lanes ++ layers.flatMap (·.lanes)) := by
    intro lanes
    induction lanes with
    | nil => exact fun layers => List.Perm.refl _
    | cons lane lanes ih =>
      intro layers
      exact (ih _).trans (((insert_perm lane layers).append_left lanes).trans List.perm_middle)
  simpa [split] using key lanes []

/-- Splitting keeps every lane once, and the lanes of a layer can run together. -/
theorem split_spec (hd : ∀ a b, d.compatible a b = d.compatible b a) (lanes : List Lane) :
    ((split d lanes).flatMap (·.lanes)).Perm lanes ∧
      ∀ l ∈ split d lanes, l.lanes.Pairwise (fun a b => d.compatible a b = true) := by
  refine ⟨split_perm lanes, ?_⟩
  exact List.foldlRecOn (motive := fun layers : List MoveLayer => ∀ l ∈ layers,
    l.lanes.Pairwise fun a b => d.compatible a b = true) lanes _ (by simp)
    fun _ h _ _ => pairwise_insert hd h

def layersOf (d : Device) (stage : List Segment) : List MoveLayer :=
  (Ascending.ofList (stage.map (·.lane.signature))).flatMap fun s =>
    split d ((stage.map (·.lane)).filter (·.signature = s))

theorem ofStage_eq_ok {stage : List Segment} (h : ∀ s ∈ stage, d.checkLane s.lane = .ok ()) :
    ofStage d stage = .ok (layersOf d stage) := by
  have hcheck : (stage.map (·.lane)).forM
      (fun lane => (d.checkLane lane).mapError (CompileError.invalidLane lane)) = .ok () := by
    rw [forM_eq_ok]
    intro lane hlane
    obtain ⟨s, hs, rfl⟩ := List.mem_map.mp hlane
    exact mapError_eq_ok.mpr (h s hs)
  simp only [ofStage, hcheck, ok_bind, layersOf, List.map_map, Function.comp_def]

theorem layersOf_perm (stage : List Segment) :
    ((layersOf d stage).flatMap (·.lanes)).Perm (stage.map (·.lane)) := by
  have hkeys := Ascending.nodup_ofList (stage.map (·.lane.signature))
  have hcover : ∀ lane ∈ stage.map (·.lane),
      lane.signature ∈ Ascending.ofList (stage.map (·.lane.signature)) := by
    intro lane hlane
    obtain ⟨s, hs, rfl⟩ := List.mem_map.mp hlane
    exact Ascending.mem_ofList.mpr (List.mem_map_of_mem (f := (·.lane.signature)) hs)
  refine List.Perm.trans ?_ (flatMap_filter_perm Lane.signature hkeys hcover)
  rw [layersOf, List.flatMap_assoc]
  exact List.Perm.flatMap_left _ fun s _ => split_perm _

theorem layersOf_spec (hd : ∀ a b, d.compatible a b = d.compatible b a) (stage : List Segment) :
    ((layersOf d stage).flatMap (·.lanes)).Perm (stage.map (·.lane)) ∧
      ∀ l ∈ layersOf d stage, l.lanes.Pairwise (fun a b => d.compatible a b = true) := by
  refine ⟨layersOf_perm stage, ?_⟩
  intro l hl
  obtain ⟨s, _, hl⟩ := List.mem_flatMap.mp hl
  exact (split_spec hd _).2 l hl

theorem ofStages_eq_ok {stages : List (List Segment)}
    (h : ∀ stage ∈ stages, ∀ s ∈ stage, d.checkLane s.lane = .ok ()) :
    ofStages d stages = .ok (stages.flatMap (layersOf d)) := by
  have hmap : stages.mapM (ofStage d) = .ok (stages.map (layersOf d)) := by
    rw [mapM_eq_ok, List.forall₂_map_right_iff]
    exact List.forall₂_same.mpr fun stage hstage => ofStage_eq_ok (h stage hstage)
  rw [ofStages, hmap, ok_bind, List.flatMap_def]

theorem layers_of_ofStages {stages : List (List Segment)} {layers : List MoveLayer}
    (h : ofStages d stages = .ok layers) :
    (∀ stage ∈ stages, ∀ s ∈ stage, d.checkLane s.lane = .ok ()) ∧
      layers = stages.flatMap (layersOf d) := by
  have hlanes : ∀ stage ∈ stages, ∀ s ∈ stage, d.checkLane s.lane = .ok () := by
    intro stage hstage s hs
    obtain ⟨parts, hparts, _⟩ := bind_eq_ok.mp h
    obtain ⟨part, _, hpart⟩ := exists_of_forall₂ (mapM_eq_ok.mp hparts) hstage
    obtain ⟨⟨⟩, hcheck, _⟩ := bind_eq_ok.mp hpart
    exact mapError_eq_ok.mp (forM_eq_ok.mp hcheck s.lane (List.mem_map_of_mem hs))
  refine ⟨hlanes, ?_⟩
  cases h.symm.trans (ofStages_eq_ok hlanes)
  rfl

section Stages

variable {g : LaneGraph} {before after : Placement} {ι : Type} {items : List ι} {key : ι → Qubit}

/-- The layers of a stage make the first hops of all walks and leave the rest of them. -/
theorem run_stage (hd : ∀ a b, g.device.compatible a b = g.device.compatible b a)
    {now later : ι → List Segment} (hn : before.layout.Nodup)
    (h : Transition g before after (items.map fun i => (key i, now i ++ later i))) :
    ∃ mid, Run g before (layersOf g.device (items.filterMap fun i => (now i)[0]?)) mid ∧
      mid.layout.Nodup ∧
      Transition g mid after (items.map fun i => (key i, (now i).tail ++ later i)) := by
  have hfresh := h.freshHops_heads
  obtain ⟨hlanes, hcompatible⟩ := layersOf_spec hd (items.filterMap fun i => (now i)[0]?)
  have hheads : (items.filterMap fun i => (now i)[0]?).map (·.lane) =
      (Transition.heads key now items).map (·.lane) := by
    simp only [Transition.heads, List.map_filterMap, Option.map_map, List.head?_eq_getElem?]
    rfl
  rw [hheads] at hlanes
  exact ⟨_, hfresh.run hn hcompatible hlanes, hfresh.nodup_hopAll hn, h.advance⟩

theorem run_range (hd : ∀ a b, g.device.compatible a b = g.device.compatible b a) (n : Nat)
    {now later : ι → List Segment} (hn : before.layout.Nodup)
    (h : Transition g before after (items.map fun i => (key i, now i ++ later i))) :
    ∃ mid, Run g before ((List.range n).flatMap fun k =>
        layersOf g.device (items.filterMap fun i => (now i)[k]?)) mid ∧
      mid.layout.Nodup ∧
      Transition g mid after (items.map fun i => (key i, (now i).drop n ++ later i)) := by
  induction n generalizing before now with
  | zero => exact ⟨before, rfl, hn, by simpa using h⟩
  | succ n ih =>
    obtain ⟨mid, hrun, hmid, hleft⟩ := run_stage hd hn h
    obtain ⟨last, hrun', hlast, hleft'⟩ := ih hmid hleft
    refine ⟨last, ?_, hlast, by simpa using hleft'⟩
    simp only [List.range_succ_eq_map, List.flatMap_cons, List.flatMap_map]
    simp only [List.getElem?_tail] at hrun'
    exact hrun.append hrun'

/-- The stages of some walks make all their hops. -/
theorem run_stages (hd : ∀ a b, g.device.compatible a b = g.device.compatible b a)
    {now later : ι → List Segment} (hn : before.layout.Nodup)
    (h : Transition g before after (items.map fun i => (key i, now i ++ later i))) :
    ∃ mid, Run g before ((stages (items.map now)).flatMap (layersOf g.device)) mid ∧
      mid.layout.Nodup ∧ Transition g mid after (items.map fun i => (key i, later i)) := by
  obtain ⟨mid, hrun, hmid, hleft⟩ :=
    run_range hd ((items.map now).foldl (fun n h => max n h.length) 0) hn h
  refine ⟨mid, ?_, hmid, ?_⟩
  · simpa only [stages, List.flatMap_map, List.filterMap_map, Function.comp_def] using hrun
  · have hdone : (items.map fun i => (key i, (now i).drop
        ((items.map now).foldl (fun n h => max n h.length) 0) ++ later i)) =
        items.map fun i => (key i, later i) := by
      refine List.map_congr_left ?_
      intro i hi
      rw [List.drop_eq_nil_of_le (le_foldl_max List.length (List.mem_map_of_mem hi)), List.nil_append]
    exact hdone ▸ hleft

end Stages

theorem stages_filter {α : Type} (keep : α → Bool) (hops : α → List Segment) (xs : List α) :
    stages ((xs.filter keep).map hops) = stages (xs.map fun x => if keep x then hops x else []) := by
  have hcount : ((xs.filter keep).map hops).foldl (fun n h => max n h.length) 0 =
      (xs.map fun x => if keep x then hops x else []).foldl (fun n h => max n h.length) 0 := by
    rw [List.foldl_map, List.foldl_map, List.foldl_filter]
    congr
    funext n x
    split_ifs <;> simp
  simp only [stages, hcount]
  refine List.map_congr_left ?_
  intro k _
  rw [List.filterMap_map, List.filterMap_map, List.filterMap_filter]
  congr
  funext x
  simp only [Function.comp_apply]
  split_ifs <;> simp

/-- The crossings are one stage, in which every route that crosses has a hop. -/
theorem filterMap_cross (routes : List Route) :
    (routes.filterMap fun r => r.cross.toList[0]?) =
      (routes.filter (·.cross.isSome)).filterMap (·.cross) := by
  rw [List.filterMap_filter]
  congr
  funext r
  cases r.cross <;> simp

/-- The four phases of a set of routes carry every atom along its whole route. -/
theorem run_phases {g : LaneGraph} {before after : Placement} {routes : List (Qubit × Route)}
    (hd : ∀ a b, g.device.compatible a b = g.device.compatible b a) (hn : before.layout.Nodup)
    (hshape : ∀ r ∈ routes, r.2.Shaped)
    (h : Transition g before after (routes.map fun r => (r.1, r.2.segments))) :
    Run g before ((phases (routes.map (·.2))).flatMap (layersOf g.device)) after := by
  have hsegments : (routes.map fun r => (r.1, r.2.segments)) = routes.map fun r =>
      (r.1, r.2.within ++ (r.2.approach ++ (r.2.cross.toList ++ r.2.departure))) := by
    refine List.map_congr_left ?_
    intro r hr
    rw [← Route.segments_eq (hshape r hr), List.append_assoc, List.append_assoc]
  rw [hsegments] at h
  obtain ⟨p₁, hrun₁, hn₁, h₁⟩ := run_stages hd hn h
  obtain ⟨p₂, hrun₂, hn₂, h₂⟩ := run_stages hd hn₁ h₁
  obtain ⟨p₃, hrun₃, hn₃, h₃⟩ := run_stage hd hn₂ h₂
  have htail : (routes.map fun r => (r.1, r.2.cross.toList.tail ++ r.2.departure)) =
      routes.map fun r => (r.1, r.2.departure ++ []) := by
    refine List.map_congr_left ?_
    intro r _
    cases r.2.cross <;> simp
  rw [htail] at h₃
  obtain ⟨p₄, hrun₄, _, h₄⟩ := run_stages hd hn₃ h₃
  obtain rfl : p₄ = after := h₄.eq_of_done (by simp)
  have hcross : (routes.filterMap fun r => r.2.cross.toList[0]?) =
      ((routes.map (·.2)).filter (·.cross.isSome)).filterMap (·.cross) := by
    rw [← filterMap_cross, List.filterMap_map]
    rfl
  rw [hcross] at hrun₃
  simp only [phases, List.flatMap_append, List.flatMap_singleton, stages_filter, List.map_map]
  exact ((hrun₁.append hrun₂).append hrun₃).append hrun₄

theorem mem_phases {routes : List Route} {stage : List Segment} {s : Segment}
    (hstage : stage ∈ phases routes) (hs : s ∈ stage) : ∃ r ∈ routes, s ∈ r.segments := by
  have hstages : ∀ {hops : List (List Segment)}, stage ∈ stages hops → ∃ hop ∈ hops, s ∈ hop := by
    intro hops hin
    obtain ⟨k, _, rfl⟩ := List.mem_map.mp hin
    obtain ⟨hop, hhop, hk⟩ := List.mem_filterMap.mp hs
    exact ⟨hop, hhop, List.mem_of_getElem? hk⟩
  simp only [phases, List.mem_append, List.mem_singleton] at hstage
  rcases hstage with ((hin | hin) | rfl) | hin
  · obtain ⟨_, hhop, hin⟩ := hstages hin
    obtain ⟨r, hr, rfl⟩ := List.mem_map.mp hhop
    exact ⟨r, (List.mem_filter.mp hr).1, by simp [Route.segments, hin]⟩
  · obtain ⟨_, hhop, hin⟩ := hstages hin
    obtain ⟨r, hr, rfl⟩ := List.mem_map.mp hhop
    exact ⟨r, (List.mem_filter.mp hr).1, by simp [Route.segments, hin]⟩
  · obtain ⟨r, hr, hin⟩ := List.mem_filterMap.mp hs
    exact ⟨r, (List.mem_filter.mp hr).1, by simp [Route.segments, hin]⟩
  · obtain ⟨_, hhop, hin⟩ := hstages hin
    obtain ⟨r, hr, rfl⟩ := List.mem_map.mp hhop
    exact ⟨r, (List.mem_filter.mp hr).1, by simp [Route.segments, hin]⟩

end MoveLayer

end AtomTransport
