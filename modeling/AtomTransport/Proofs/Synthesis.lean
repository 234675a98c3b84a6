import AtomTransport.Proofs.Placement
import AtomTransport.Proofs.Replay
import AtomTransport.Proofs.Schedule

/-!
# Move layers along the paths of a placement

The paths that a strategy reports apply to exactly the atoms that change their location, so that the
synthesis of move layers takes all of them over and plans no route of its own. None of its checks
fails then, and its layers run from the first placement to the second.
-/

namespace AtomTransport

namespace MoveLayer

variable {g : LaneGraph} {before after : Placement} {taken : Option (Nat × Nat)}
  {routes : List (Qubit × Route)}

theorem checkWordPairs_eq_ok {rs : List Route} {taken : Option (Nat × Nat)}
    (h : ∀ r ∈ rs, ∀ pair, r.wordPair? = some pair → taken = some pair) :
    ∀ first, first = none ∨ first = taken → checkWordPairs first rs = .ok () := by
  induction rs with
  | nil => exact fun _ _ => rfl
  | cons r rs ih =>
    intro first hfirst
    rw [List.forall_mem_cons] at h
    have ih := ih h.2
    unfold checkWordPairs
    split
    · exact ih _ hfirst
    next pair hpair => exact ih (some pair) (Or.inr (h.1 pair hpair).symm)
    next pair first hpair =>
      have heq : pair = first := by simpa [h.1 pair hpair, eq_comm] using hfirst
      rw [if_pos heq]
      exact ih (some first) hfirst

theorem mem_zip_qubits {q : Qubit} {src dst : Location} :
    ((q, src), dst) ∈ before.qubits.zip after.layout ↔
      before.layout[q]? = some src ∧ after.layout[q]? = some dst := by
  rw [List.mem_iff_getElem?]
  simp only [List.getElem?_zip_eq_some, Placement.qubits, List.getElem?_map,
    List.getElem?_zipIdx, Option.map_map, Option.map_eq_some_iff, Function.comp_apply,
    Prod.mk.injEq, Nat.zero_add]
  constructor
  · rintro ⟨i, ⟨l, hl, rfl, rfl⟩, hdst⟩
    exact ⟨hl, hdst⟩
  · rintro ⟨hsrc, hdst⟩
    exact ⟨q, ⟨src, hsrc, rfl, rfl⟩, hdst⟩

/-- The movers are the atoms that two placements put on different locations, each of them once. -/
theorem movers_spec {d : Device} {ms : List Mover}
    (hlength : after.layout.length = before.layout.length) (h : movers d before after = .ok ms) :
    (ms.map (·.qubit)).Nodup ∧
      ∀ m, m ∈ ms ↔ before.layout[m.qubit]? = some m.src ∧ after.layout[m.qubit]? = some m.dst ∧
        m.src ≠ m.dst := by
  have hms : ms = ((before.qubits.zip after.layout).filter fun x => x.1.2 ≠ x.2).map
      fun x => ⟨x.1.1, x.1.2, x.2⟩ := by
    rw [movers, mapM_eq_ok] at h
    rw [← List.forall₂_eq_eq_eq, List.forall₂_map_right_iff]
    refine h.flip.imp ?_
    intro m x hx
    obtain ⟨⟨⟩, _, hx⟩ := bind_eq_ok.mp hx
    obtain ⟨⟨⟩, _, hx⟩ := bind_eq_ok.mp hx
    cases hx
    rfl
  subst hms
  refine ⟨?_, ?_⟩
  · have hsub : ((((before.qubits.zip after.layout).filter fun x => x.1.2 ≠ x.2).map
        fun x => (⟨x.1.1, x.1.2, x.2⟩ : Mover)).map (·.qubit)).Sublist
          (((before.qubits.zip after.layout).map (·.1)).map (·.1)) := by
      rw [List.map_map, List.map_map]
      exact List.filter_sublist.map _
    have hrange : before.qubits.map (·.1) = List.range' 0 before.layout.length := by
      rw [Placement.qubits, List.map_map]
      exact List.zipIdx_map_snd 0 before.layout
    have hle : before.qubits.length ≤ after.layout.length := by
      simp [Placement.qubits, hlength]
    rw [List.map_fst_zip hle, hrange] at hsub
    exact hsub.nodup List.nodup_range'
  · rintro ⟨q, src, dst⟩
    simp only [List.mem_map, List.mem_filter, Prod.exists, Mover.mk.injEq, decide_eq_true_eq]
    constructor
    · rintro ⟨q', src', dst', ⟨hmem, hne⟩, rfl, rfl, rfl⟩
      exact ⟨(mem_zip_qubits.mp hmem).1, (mem_zip_qubits.mp hmem).2, hne⟩
    · rintro ⟨hsrc, hdst, hne⟩
      exact ⟨q, src, dst, ⟨mem_zip_qubits.mpr ⟨hsrc, hdst⟩, hne⟩, rfl, rfl, rfl⟩

theorem movers_eq_ok {d : Device} (hbefore : before.Sound d) (hafter : after.Sound d)
    (hlength : after.layout.length = before.layout.length) :
    ∃ ms, movers d before after = .ok ms ∧ (ms.map (·.qubit)).Nodup ∧
      ∀ m, m ∈ ms ↔ before.layout[m.qubit]? = some m.src ∧ after.layout[m.qubit]? = some m.dst ∧
        m.src ≠ m.dst := by
  have hok : movers d before after = .ok (((before.qubits.zip after.layout).filter
      fun x => x.1.2 ≠ x.2).map fun x => ⟨x.1.1, x.1.2, x.2⟩) := by
    rw [movers, mapM_eq_ok, List.forall₂_map_right_iff]
    refine List.forall₂_same.mpr ?_
    rintro ⟨⟨q, src⟩, dst⟩ hmem
    obtain ⟨hsrc, hdst⟩ := mem_zip_qubits.mp (List.mem_filter.mp hmem).1
    have hcheck : d.checkLocation src = .ok () :=
      Device.checkLocation_eq_ok_iff.mpr (hbefore.exist src (List.mem_of_getElem? hsrc))
    have hcheck' : d.checkLocation dst = .ok () :=
      Device.checkLocation_eq_ok_iff.mpr (hafter.exist dst (List.mem_of_getElem? hdst))
    simp only [hcheck, hcheck', Except.mapError, ok_bind]
  exact ⟨_, hok, movers_spec hlength hok⟩

def suggested (hints : List (Qubit × Path)) (m : Mover) : Route :=
  ((hint? hints m).bind Route.ofPath?).getD (Route.stay m.src)

theorem foldlM_followHint {hints : List (Qubit × Path)} {ms : List Mover} (router : Router)
    (hkeys : (ms.map (·.qubit) ++ router.routes.map (·.1)).Nodup)
    (hhint : ∀ m ∈ ms, (hint? hints m).bind Route.ofPath? = some (suggested hints m)) :
    ∃ router', ms.foldlM (followHint hints) router = .ok router' ∧
      router'.routes.Perm ((ms.map fun m => (m.qubit, suggested hints m)) ++ router.routes) := by
  induction ms generalizing router with
  | nil => exact ⟨router, rfl, List.Perm.refl _⟩
  | cons m ms ih =>
    rw [List.forall_mem_cons] at hhint
    rw [List.map_cons, List.cons_append, List.nodup_cons, List.mem_append, not_or] at hkeys
    obtain ⟨⟨hnew, hout⟩, hkeys⟩ := hkeys
    have hput := Ascending.put_perm (Ascending.get?_eq_none_iff.mpr hout) (suggested hints m)
    have hkeys' : (ms.map (·.qubit) ++
        (router.commit m.qubit (suggested hints m)).routes.map (·.1)).Nodup := by
      refine (((hput.map (·.1)).append_left _).trans List.perm_middle).nodup_iff.mpr ?_
      refine List.nodup_cons.mpr ⟨?_, hkeys⟩
      rw [List.mem_append, not_or]
      exact ⟨hnew, hout⟩
    obtain ⟨router', hfold, hperm⟩ := ih _ hkeys' hhint.2
    refine ⟨router', ?_, hperm.trans ((hput.append_left _).trans List.perm_middle)⟩
    rw [List.foldlM_cons, followHint, hhint.1]
    exact hfold

theorem hint?_of_routed (hr : Routed g before after taken routes) {m : Mover}
    (hsrc : before.layout[m.qubit]? = some m.src) (hdst : after.layout[m.qubit]? = some m.dst)
    {route : Route} (hmem : (m.qubit, route) ∈ routes) :
    (hint? (routes.map fun r => (r.1, r.2.toPath)) m).bind Route.ofPath? = some route ∧
      suggested (routes.map fun r => (r.1, r.2.toPath)) m = route := by
  have hkeys : ((routes.map fun r => (r.1, r.2.toPath)).map Prod.fst).Nodup := by
    simpa [List.map_map, Function.comp_def] using hr.keys
  have hget : Ascending.get? m.qubit (routes.map fun r => (r.1, r.2.toPath)) = some route.toPath :=
    (Ascending.get?_eq_some_iff hkeys).mpr (List.mem_map.mpr ⟨_, hmem, rfl⟩)
  have hstart : route.start = m.src := by
    have h := hr.starts _ hmem
    rw [hsrc, Option.some.injEq] at h
    exact h.symm
  have hfinish : route.toPath.finish = m.dst := by
    obtain ⟨src, dst, hsrc', hdst', hwalk⟩ :=
      hr.transition.walks _ (List.mem_map_of_mem (f := fun r => (r.1, r.2.segments)) hmem)
    rw [hsrc, Option.some.injEq] at hsrc'
    rw [hdst, Option.some.injEq] at hdst'
    rw [← hsrc', ← hdst', ← hstart] at hwalk
    exact hwalk.finish_eq
  have hhint : hint? (routes.map fun r => (r.1, r.2.toPath)) m = some route.toPath := by
    have hstart' : route.toPath.start = m.src := hstart
    simp [hint?, hget, hstart', hfinish]
  have hbind : (hint? (routes.map fun r => (r.1, r.2.toPath)) m).bind Route.ofPath? = some route := by
    rw [hhint]
    exact hr.splits _ hmem
  exact ⟨hbind, by rw [suggested, hbind]; rfl⟩

theorem mover_of_routed (hr : Routed g before after taken routes) {q : Qubit} {route : Route}
    (hmem : (q, route) ∈ routes) : ∃ src dst, before.layout[q]? = some src ∧
      after.layout[q]? = some dst ∧ src ≠ dst := by
  have hleg := List.mem_map_of_mem (f := fun r => (r.1, r.2.segments)) hmem
  obtain ⟨src, dst, hsrc, hdst, hwalk⟩ := hr.transition.walks _ hleg
  refine ⟨src, dst, hsrc, hdst, ?_⟩
  rintro rfl
  rcases List.eq_nil_or_concat' route.segments with hnil | ⟨init, last, hlast⟩
  · exact hr.moving _ hmem hnil
  · simp only [hlast] at hwalk
    obtain ⟨_, _, hend⟩ := hwalk.split
    have hend : last.dst = src := hend.2.2
    have hentered : src ∈ entered (routes.map fun r => (r.1, r.2.segments)) := by
      refine List.mem_flatMap.mpr ⟨_, hleg, ?_⟩
      simp [hlast, hend]
    exact (hr.transition.free src hentered).1 (List.mem_of_getElem? hsrc)

theorem exists_route (hr : Routed g before after taken routes) {m : Mover}
    (hsrc : before.layout[m.qubit]? = some m.src) (hdst : after.layout[m.qubit]? = some m.dst)
    (hne : m.src ≠ m.dst) : ∃ route, (m.qubit, route) ∈ routes := by
  by_contra hout
  have hkey : m.qubit ∉ routes.map (·.1) := by
    intro hin
    obtain ⟨r, hrm, heq⟩ := List.mem_map.mp hin
    exact hout ⟨r.2, heq ▸ hrm⟩
  rw [hr.stays hkey, hsrc, Option.some.injEq] at hdst
  exact hne hdst

/-- All movers follow their routes, and nothing else is planned. -/
theorem planRoutes_of_routed (hr : Routed g before after taken routes) (h : Heuristic)
    {ms : List Mover} (hkeys : (ms.map (·.qubit)).Nodup)
    (hms : ∀ m, m ∈ ms ↔ before.layout[m.qubit]? = some m.src ∧
      after.layout[m.qubit]? = some m.dst ∧ m.src ≠ m.dst) :
    ∃ routes', planRoutes g h (routes.map fun r => (r.1, r.2.toPath)) before ms =
        .ok (routes'.map (·.2)) ∧ routes.Perm routes' := by
  have hroute : ∀ m ∈ ms, ∃ route, (m.qubit, route) ∈ routes := by
    intro m hm
    obtain ⟨hsrc, hdst, hne⟩ := (hms m).mp hm
    exact exists_route hr hsrc hdst hne
  have hhint : ∀ m ∈ ms, ∀ route, (m.qubit, route) ∈ routes → _ := fun m hm route hmem =>
    hint?_of_routed hr ((hms m).mp hm).1 ((hms m).mp hm).2.1 hmem
  have hsuggested : ∀ m ∈ ms, (hint? (routes.map fun r => (r.1, r.2.toPath)) m).bind Route.ofPath? =
      some (suggested (routes.map fun r => (r.1, r.2.toPath)) m) := by
    intro m hm
    obtain ⟨route, hmem⟩ := hroute m hm
    obtain ⟨hbind, heq⟩ := hhint m hm route hmem
    rw [hbind, heq]
  have hsome : ∀ m ∈ ms, (hint? (routes.map fun r => (r.1, r.2.toPath)) m).isSome = true := by
    intro m hm
    obtain ⟨p, hp, _⟩ := Option.bind_eq_some_iff.mp (hsuggested m hm)
    rw [hp]
    rfl
  have hall : ms.filter (fun m => (hint? (routes.map fun r => (r.1, r.2.toPath)) m).isSome) = ms :=
    List.filter_eq_self.mpr hsome
  have hnone : ms.filter (not ∘ fun m =>
      (hint? (routes.map fun r => (r.1, r.2.toPath)) m).isSome) = [] := by
    refine List.filter_eq_nil_iff.mpr ?_
    intro m hm
    simp [hsome m hm]
  obtain ⟨router', hfold, hperm⟩ := foldlM_followHint
    ⟨g, h, before.blocked, ms.map (·.dst), [], []⟩ (by simpa using hkeys) hsuggested
  refine ⟨router'.routes, ?_, ?_⟩
  · simp only [planRoutes, List.partition_eq_filter_filter, hall, hnone, hfold, ok_bind]
    rfl
  · refine List.Perm.trans ?_ hperm.symm
    rw [List.append_nil]
    have hnodup : (ms.map fun m =>
        (m.qubit, suggested (routes.map fun r => (r.1, r.2.toPath)) m)).Nodup := by
      refine List.Nodup.of_map Prod.fst ?_
      simpa [List.map_map, Function.comp_def] using hkeys
    refine (List.perm_ext_iff_of_nodup (hr.keys.of_map _) hnodup).mpr ?_
    rintro ⟨q, route⟩
    rw [List.mem_map]
    constructor
    · intro hmem
      obtain ⟨src, dst, hsrc, hdst, hne⟩ := mover_of_routed hr hmem
      have hm : (⟨q, src, dst⟩ : Mover) ∈ ms := (hms _).mpr ⟨hsrc, hdst, hne⟩
      exact ⟨_, hm, by rw [(hhint _ hm route hmem).2]⟩
    · rintro ⟨m, hm, heq⟩
      obtain ⟨route', hmem⟩ := hroute m hm
      rw [(hhint m hm route' hmem).2] at heq
      exact heq ▸ hmem

/-- Once the planned routes make a transition to the layout of the second placement, the checks that
follow the planning do not fail. The moves that the placements count play no part. -/
theorem along_of_transition {b : Blueprint} (hb : Device.ofBlueprint b = .ok g.device)
    (hs : g.device.SingleSource) (hn : before.layout.Nodup) {h : Heuristic}
    {hints : List (Qubit × Path)} {ms : List Mover} {moves : List UInt32} {last : Placement}
    (hmovers : movers g.device before after = .ok ms)
    (hplan : planRoutes g h hints before ms = .ok (routes.map (·.2)))
    (hpairs : checkWordPairs none (routes.map (·.2)) = .ok ())
    (hshape : ∀ r ∈ routes, r.2.Shaped)
    (htransition : Transition g { before with moves := moves } last
      (routes.map fun r => (r.1, r.2.segments)))
    (hlast : last.layout = after.layout) :
    along g h hints before after = .ok ((phases (routes.map (·.2))).flatMap (layersOf g.device)) := by
  have hrun : Run g { before with moves := moves }
      ((phases (routes.map (·.2))).flatMap (layersOf g.device)) last :=
    run_phases (Device.compatible_comm hb) hn hshape htransition
  have hlanes : ∀ stage ∈ phases (routes.map (·.2)), ∀ s ∈ stage,
      g.device.checkLane s.lane = .ok () := by
    intro stage hstage s hs'
    obtain ⟨r, hmem, hseg⟩ := mem_phases hstage hs'
    obtain ⟨e, he, rfl⟩ := List.mem_map.mp hmem
    obtain ⟨_, _, _, _, hwalk⟩ := htransition.walks _
      (List.mem_map_of_mem (f := fun r => (r.1, r.2.segments)) he)
    have hedge := g.edges_eq ▸ hwalk.mem hseg
    rw [Device.checkLane, (Device.endpoints_of_mem_edges hs hedge).1]
    rfl
  have hqubits : last.qubits = after.qubits := by rw [Placement.qubits, Placement.qubits, hlast]
  have hreplay : replay g.device { before with moves := moves } last
      ((phases (routes.map (·.2))).flatMap (layersOf g.device)) = .ok () := replay_of_run hs hn hrun
  rw [replay, hqubits] at hreplay
  change replay g.device before after _ = .ok () at hreplay
  have hsize : before.size = after.size := by
    rw [Placement.size, Placement.size, ← hlast]
    exact htransition.length_layout.symm
  simp only [along, if_neg (not_not.mpr hsize), hmovers, ok_bind, hplan, hpairs,
    ofStages_eq_ok hlanes, hreplay]

/-- The synthesis along the paths of a placement succeeds, and its layers run from the placement
before to the placement after. -/
theorem along_of_routed {b : Blueprint} (hb : Device.ofBlueprint b = .ok g.device)
    (hs : g.device.SingleSource) (hbefore : before.Sound g.device)
    (hr : Routed g before after taken routes) (h : Heuristic) :
    ∃ layers, along g h (routes.map fun r => (r.1, r.2.toPath)) before after = .ok layers ∧
      Run g before layers after := by
  have hrun : ∀ {routes' : List (Qubit × Route)}, Routed g before after taken routes' →
      Run g before ((phases (routes'.map (·.2))).flatMap (layersOf g.device)) after :=
    fun hr' => run_phases (Device.compatible_comm hb) hbefore.nodup hr'.shaped hr'.transition
  have hafter : after.Sound g.device := (hrun hr).sound hs hbefore
  obtain ⟨ms, hmovers, hkeys, hms⟩ := movers_eq_ok hbefore hafter hr.transition.length_layout
  obtain ⟨routes', hplan, hperm⟩ := planRoutes_of_routed hr h hkeys hms
  have hr' := hr.perm hperm
  have hpairs : checkWordPairs none (routes'.map (·.2)) = .ok () := by
    have hcross : ∀ r ∈ routes'.map (·.2), ∀ pair, r.wordPair? = some pair → taken = some pair := by
      intro r hmem
      obtain ⟨e, he, rfl⟩ := List.mem_map.mp hmem
      exact hr'.crosses e he
    exact checkWordPairs_eq_ok hcross none (Or.inl rfl)
  exact ⟨_, along_of_transition hb hs hbefore.nodup hmovers hplan hpairs hr'.shaped hr'.transition rfl,
    hrun hr'⟩

end MoveLayer

end AtomTransport
