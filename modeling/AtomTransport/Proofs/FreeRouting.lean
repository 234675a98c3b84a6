import AtomTransport.Proofs.Compilation

/-!
# Move layers without suggested paths

Without suggestions the synthesis plans every route itself, one atom after another. Each route avoids
what the first placement holds and what the routes before it claim, so that all routes together are a
transition to the second placement. A transition can be made in any interleaving, in that of the stages
as well: the checks that follow the planning cannot fail, and a refusal comes from the planning or from
what it was asked to plan.
-/

namespace AtomTransport

namespace Router

variable {g : LaneGraph} {before now : Placement} {r : Router} {route : Route}

/-- A router that has planned some atoms of a transition: its routes lead each of them to its end, and
they have claimed whatever they enter. -/
structure Leads (g : LaneGraph) (before : Placement) (planned : List MoveLayer.Mover) (r : Router)
    (now : Placement) : Prop where
  graph_eq : r.graph = g
  transition : Transition g before now (r.routes.map fun e => (e.1, e.2.segments))
  splits : r.Splits
  covers : r.Covers before
  named : ∀ q ∈ r.routes.map (·.1), ∃ m ∈ planned, m.qubit = q
  arrived : ∀ m ∈ planned, now.layout[m.qubit]? = some m.dst

theorem leads_initial (g : LaneGraph) (h : Heuristic) (before : Placement) (pending : List Location)
    (moves : List UInt32) :
    Leads g { before with moves := moves } [] ⟨g, h, before.blocked, pending, [], []⟩
      { before with moves := moves } where
  graph_eq := rfl
  transition := Transition.refl _
  splits := by simp [Splits]
  covers l hl := by
    have hheld : l ∈ before.layout ++ before.occupied := by simpa [entered] using hl
    exact Ascending.mem_ofList.mpr hheld
  named := by simp
  arrived := by simp

/-- Planning one more atom keeps the invariant: the way that is found for it is new. -/
theorem Leads.commit {planned : List MoveLayer.Mover} {m : MoveLayer.Mover}
    (h : Leads g before planned r now) (hmoves : before.moves.length = before.layout.length)
    (hnew : m.qubit ∉ planned.map (·.qubit)) (hsrc : before.layout[m.qubit]? = some m.src)
    (hne : m.src ≠ m.dst) (hroute : r.route? m.src m.dst = some route) :
    Leads g before (m :: planned) (r.commit m.qubit route)
      (now.relocate m.qubit m.dst route.length) := by
  obtain ⟨htravels, _, hsplit⟩ := travels_of_route? hne hroute
  have hfree := h.covers.fresh (unclaimed_of_travels hne htravels) htravels
  have hkey : m.qubit ∉ r.routes.map (·.1) := by
    intro hin
    obtain ⟨m', hm', heq⟩ := h.named _ hin
    exact hnew (List.mem_map.mpr ⟨m', hm', heq⟩)
  have hkey' : m.qubit ∉ (r.routes.map fun e => (e.1, e.2.segments)).map (·.1) := by
    simpa [List.map_map, Function.comp_def] using hkey
  have hvisited : route.visited.Nodup := (List.nodup_cons.mp htravels.simple).2
  have hput := commit_perm hkey route
  have hlegs := hput.map fun e => (e.1, e.2.segments)
  rw [h.graph_eq] at htravels
  have htransition := h.transition.cons hkey' hsrc htravels.walk hmoves hvisited hfree
  have hstays := (h.transition.stays _ hkey').1
  refine ⟨h.graph_eq, htransition.perm hlegs.symm, h.splits.commit m.qubit hsplit,
    h.covers.commit hkey route, ?_, ?_⟩
  · intro q hq
    rcases List.mem_cons.mp ((hput.map (·.1)).mem_iff.mp hq) with rfl | hq
    · exact ⟨m, List.mem_cons_self, rfl⟩
    · obtain ⟨m', hm', heq⟩ := h.named q hq
      exact ⟨m', List.mem_cons_of_mem _ hm', heq⟩
  · have hat := fun q => (Placement.getElem?_relocate (p := now) m.qubit q m.dst route.length).1
    refine List.forall_mem_cons.mpr ⟨?_, ?_⟩
    · have hlt : m.qubit < now.layout.length := by
        rw [hsrc] at hstays
        exact (List.getElem?_eq_some_iff.mp hstays).1
      rw [hat, if_pos rfl, if_pos hlt]
    · intro m' hm'
      have hother : m.qubit ≠ m'.qubit := fun heq => hnew (List.mem_map.mpr ⟨m', hm', heq.symm⟩)
      rw [hat, if_neg hother]
      exact h.arrived m' hm'

theorem Leads.foldlM_routeFreely {planned ms : List MoveLayer.Mover} {last : Router}
    (h : Leads g before planned r now) (hmoves : before.moves.length = before.layout.length)
    (hkeys : ((ms ++ planned).map (·.qubit)).Nodup)
    (hms : ∀ m ∈ ms, before.layout[m.qubit]? = some m.src ∧ m.src ≠ m.dst)
    (hfold : ms.foldlM MoveLayer.routeFreely r = .ok last) :
    ∃ now', Leads g before (ms.reverse ++ planned) last now' := by
  induction ms generalizing r now planned with
  | nil =>
    cases hfold
    exact ⟨now, h⟩
  | cons m ms ih =>
    rw [List.forall_mem_cons] at hms
    rw [List.foldlM_cons] at hfold
    obtain ⟨r', hr', hfold⟩ := bind_eq_ok.mp hfold
    unfold MoveLayer.routeFreely at hr'
    split at hr'
    next route hroute =>
      cases hr'
      have hkeys' : ((ms ++ m :: planned).map (·.qubit)).Nodup :=
        (List.perm_middle.map _).nodup_iff.mpr hkeys
      have hnew : m.qubit ∉ planned.map (·.qubit) := by
        rw [List.cons_append, List.map_cons, List.nodup_cons, List.map_append, List.mem_append] at hkeys
        exact fun hin => hkeys.1 (Or.inr hin)
      have hnext := h.commit hmoves hnew hms.1.1 hms.1.2 hroute
      simpa using ih hnext hkeys' hms.2 hfold
    · cases hr'

end Router

namespace MoveLayer

variable {g : LaneGraph} {h : Heuristic} {before after : Placement} {ms : List Mover}
  {routes : List Route}

theorem planRoutes_free (g : LaneGraph) (h : Heuristic) (before : Placement) (ms : List Mover) :
    planRoutes g h [] before ms =
      (ms.foldlM routeFreely ⟨g, h, before.blocked, ms.map (·.dst), [], []⟩ >>= fun router =>
        .ok (router.routes.map (·.2))) := by
  have hnone : ∀ m : Mover, (hint? [] m).isSome = false := fun _ => rfl
  have hhinted : ms.filter (fun m => (hint? [] m).isSome) = [] := by simp [hnone]
  have hfree : ms.filter (not ∘ fun m => (hint? [] m).isSome) = ms := by simp [hnone]
  simp only [planRoutes, List.partition_eq_filter_filter, hhinted, hfree]
  rfl

/-- The routes that are planned without suggestions make a transition to a placement with the layout of
the second one. The moves that the first placement counts play no part. -/
theorem transition_of_planRoutes (hlength : after.layout.length = before.layout.length)
    (hmovers : movers g.device before after = .ok ms)
    (hplan : planRoutes g h [] before ms = .ok routes) :
    ∃ (entries : List (Qubit × Route)) (last : Placement),
      routes = entries.map (·.2) ∧ last.layout = after.layout ∧
      (∀ e ∈ entries, Route.ofPath? e.2.toPath = some e.2) ∧
      Transition g { before with moves := List.replicate before.layout.length 0 } last
        (entries.map fun e => (e.1, e.2.segments)) := by
  obtain ⟨hkeys, hms⟩ := movers_spec hlength hmovers
  rw [planRoutes_free] at hplan
  obtain ⟨router, hfold, hplan⟩ := bind_eq_ok.mp hplan
  cases hplan
  have hmoving : ∀ m ∈ ms, before.layout[m.qubit]? = some m.src ∧ m.src ≠ m.dst := fun m hm =>
    ⟨((hms m).mp hm).1, ((hms m).mp hm).2.2⟩
  obtain ⟨last, hleads⟩ := (Router.leads_initial g h before (ms.map (·.dst))
    (List.replicate before.layout.length 0)).foldlM_routeFreely (by simp) (by simpa using hkeys)
      hmoving hfold
  rw [List.append_nil] at hleads
  refine ⟨router.routes, last, rfl, ?_, hleads.splits, hleads.transition⟩
  refine List.ext_getElem? fun q => ?_
  by_cases hq : ∃ m ∈ ms, m.qubit = q
  · obtain ⟨m, hm, rfl⟩ := hq
    rw [hleads.arrived m (List.mem_reverse.mpr hm), ((hms m).mp hm).2.1]
  · have hkey : q ∉ (router.routes.map fun e => (e.1, e.2.segments)).map (·.1) := by
      intro hin
      rw [List.map_map] at hin
      obtain ⟨m, hm, heq⟩ := hleads.named q hin
      exact hq ⟨m, List.mem_reverse.mp hm, heq⟩
    rw [(hleads.transition.stays q hkey).1]
    by_cases hlt : q < before.layout.length
    · by_contra hne
      refine hq ⟨⟨q, before.layout[q], after.layout[q]⟩, (hms _).mpr ⟨?_, ?_, ?_⟩, rfl⟩
      · exact List.getElem?_eq_getElem hlt
      · exact List.getElem?_eq_getElem _
      · intro heq
        rw [List.getElem?_eq_getElem hlt, List.getElem?_eq_getElem (hlength ▸ hlt)] at hne
        exact hne (congrArg some heq)
    · have hle : before.layout.length ≤ q := Nat.le_of_not_lt hlt
      rw [List.getElem?_eq_none hle, List.getElem?_eq_none (hlength ▸ hle)]

/-- Once the routes are planned and cross between two words at most, nothing else fails. -/
theorem along_free_eq_ok {b : Blueprint} (hb : Device.ofBlueprint b = .ok g.device)
    (hs : g.device.SingleSource) (hn : before.layout.Nodup) (hsize : before.size = after.size)
    (hmovers : movers g.device before after = .ok ms)
    (hplan : planRoutes g h [] before ms = .ok routes)
    (hpairs : checkWordPairs none routes = .ok ()) :
    along g h [] before after = .ok ((phases routes).flatMap (layersOf g.device)) := by
  obtain ⟨entries, last, rfl, hlast, hsplits, htransition⟩ :=
    transition_of_planRoutes hsize.symm hmovers hplan
  exact along_of_transition hb hs hn hmovers hplan hpairs
    (fun e he => (Route.toPath_of_ofPath? (hsplits e he)).1) htransition hlast

/-- The reasons for which a change of placement is refused without suggestions: different sizes, a moving
atom with a site that does not exist, a moving atom without a route, and two routes that cross between
different pairs of words. -/
inductive Refusal (g : LaneGraph) (h : Heuristic) (before after : Placement) : CompileError → Prop
  | sizes (hne : before.size ≠ after.size) :
    Refusal g h before after (.invalidProgram (.layoutSizes before.size after.size))
  | address {q : Qubit} {src dst : Location} {cause : AddressError}
    (hsrc : before.layout[q]? = some src) (hdst : after.layout[q]? = some dst) (hne : src ≠ dst)
    (hcheck : g.device.checkLocation src = .error cause ∨ g.device.checkLocation dst = .error cause) :
    Refusal g h before after (.address cause)
  | unsupported {ms : List Mover} {q : Qubit} {src dst : Location}
    (hsrc : before.layout[q]? = some src) (hdst : after.layout[q]? = some dst) (hne : src ≠ dst)
    (hmovers : movers g.device before after = .ok ms)
    (hplan : planRoutes g h [] before ms = .error (.unsupportedMove src dst)) :
    Refusal g h before after (.unsupportedMove src dst)
  | wordPairs {ms : List Mover} {routes : List Route} {r r' : Route} {first second : Nat × Nat}
    (hmovers : movers g.device before after = .ok ms)
    (hplan : planRoutes g h [] before ms = .ok routes) (hr : r ∈ routes) (hr' : r' ∈ routes)
    (hfirst : r.wordPair? = some first) (hsecond : r'.wordPair? = some second)
    (hne : first ≠ second) :
    Refusal g h before after (.multipleWordPairs first second)

theorem refusal_of_movers {e : CompileError} (h : Heuristic)
    (herror : movers g.device before after = .error e) : Refusal g h before after e := by
  obtain ⟨⟨⟨q, src⟩, dst⟩, hmem, herror⟩ := mapM_eq_error herror
  obtain ⟨hzip, hne⟩ := List.mem_filter.mp hmem
  obtain ⟨hsrc, hdst⟩ := mem_zip_qubits.mp hzip
  have hne : src ≠ dst := by simpa using hne
  rcases bind_eq_error.mp herror with herror | ⟨_, _, herror⟩
  · obtain ⟨cause, hcause, rfl⟩ := mapError_eq_error.mp herror
    exact .address hsrc hdst hne (Or.inl hcause)
  · rcases bind_eq_error.mp herror with herror | ⟨_, _, herror⟩
    · obtain ⟨cause, hcause, rfl⟩ := mapError_eq_error.mp herror
      exact .address hsrc hdst hne (Or.inr hcause)
    · cases herror

theorem refusal_of_planRoutes {e : CompileError}
    (hlength : after.layout.length = before.layout.length)
    (hmovers : movers g.device before after = .ok ms)
    (hplan : planRoutes g h [] before ms = .error e) : Refusal g h before after e := by
  have herror := hplan
  rw [planRoutes_free] at herror
  rcases bind_eq_error.mp herror with herror | ⟨_, _, herror⟩
  · obtain ⟨m, hm, router, hrouter⟩ := foldlM_eq_error herror
    obtain ⟨hsrc, hdst, hne⟩ := ((movers_spec hlength hmovers).2 m).mp hm
    unfold routeFreely at hrouter
    split at hrouter <;> cases hrouter
    exact .unsupported hsrc hdst hne hmovers hplan
  · cases herror

theorem checkWordPairs_eq_error {taken : Option (Nat × Nat)} {rs : List Route} {e : CompileError}
    (h : checkWordPairs taken rs = .error e) :
    ∃ first second, e = .multipleWordPairs first second ∧ first ≠ second ∧
      (taken = some first ∨ ∃ r ∈ rs, r.wordPair? = some first) ∧
      ∃ r ∈ rs, r.wordPair? = some second := by
  induction rs generalizing taken with
  | nil => cases h
  | cons r rs ih =>
    unfold checkWordPairs at h
    split at h
    · obtain ⟨first, second, he, hne, hfirst, hsecond⟩ := ih h
      exact ⟨first, second, he, hne, hfirst.imp_right List.exists_mem_cons_of_exists,
        List.exists_mem_cons_of_exists hsecond⟩
    next pair hpair =>
      obtain ⟨first, second, he, hne, hfirst, hsecond⟩ := ih h
      refine ⟨first, second, he, hne, Or.inr ?_, List.exists_mem_cons_of_exists hsecond⟩
      rcases hfirst with hfirst | hfirst
      · exact ⟨r, List.mem_cons_self, hpair.trans hfirst⟩
      · exact List.exists_mem_cons_of_exists hfirst
    next pair first hpair =>
      by_cases heq : pair = first
      · rw [if_pos heq] at h
        obtain ⟨first', second, he, hne, hfirst, hsecond⟩ := ih h
        exact ⟨first', second, he, hne, hfirst.imp_right List.exists_mem_cons_of_exists,
          List.exists_mem_cons_of_exists hsecond⟩
      · rw [if_neg heq] at h
        cases h
        exact ⟨first, pair, rfl, Ne.symm heq, Or.inl rfl, r, List.mem_cons_self, hpair⟩

theorem refusal_of_checkWordPairs {e : CompileError}
    (hmovers : movers g.device before after = .ok ms)
    (hplan : planRoutes g h [] before ms = .ok routes)
    (herror : checkWordPairs none routes = .error e) : Refusal g h before after e := by
  obtain ⟨first, second, rfl, hne, hfirst | ⟨r, hr, hfirst⟩, r', hr', hsecond⟩ :=
    checkWordPairs_eq_error herror
  · cases hfirst
  · exact .wordPairs hmovers hplan hr hr' hfirst hsecond hne

theorem along_free_ok_or_refused {b : Blueprint} (hb : Device.ofBlueprint b = .ok g.device)
    (hs : g.device.SingleSource) (h : Heuristic) (before after : Placement)
    (hn : before.layout.Nodup) :
    (∃ layers, along g h [] before after = .ok layers) ∨
      ∃ e, along g h [] before after = .error e ∧ Refusal g h before after e := by
  by_cases hsize : before.size = after.size
  · cases hmovers : movers g.device before after with
    | error e =>
      refine Or.inr ⟨e, ?_, refusal_of_movers h hmovers⟩
      simp only [along, if_neg (not_not.mpr hsize), hmovers, error_bind]
    | ok ms =>
      cases hplan : planRoutes g h [] before ms with
      | error e =>
        refine Or.inr ⟨e, ?_, refusal_of_planRoutes hsize.symm hmovers hplan⟩
        simp only [along, if_neg (not_not.mpr hsize), hmovers, ok_bind, hplan, error_bind]
      | ok routes =>
        cases hpairs : checkWordPairs none routes with
        | error e =>
          refine Or.inr ⟨e, ?_, refusal_of_checkWordPairs hmovers hplan hpairs⟩
          simp only [along, if_neg (not_not.mpr hsize), hmovers, ok_bind, hplan, hpairs, error_bind]
        | ok _ => exact Or.inl ⟨_, along_free_eq_ok hb hs hn hsize hmovers hplan hpairs⟩
  · refine Or.inr ⟨_, ?_, .sizes hsize⟩
    rw [along, if_pos hsize]

/-- Synthesis without suggestions never trips its own checks. It returns layers, or it refuses what it
was asked for: placements of different sizes, a moving atom with a site that does not exist, an atom
that cannot be routed, or crossings between different pairs of words. -/
theorem between_ok_or_refused {b : Blueprint} (hb : Device.ofBlueprint b = .ok g.device)
    (hs : g.device.SingleSource) (before after : Placement) (hn : before.layout.Nodup) :
    ((∃ layers, between g before after = .ok layers) ∨
      ∃ e, between g before after = .error e ∧ Refusal g .busReuse before after e) ∧
    (∀ lane cause, between g before after ≠ .error (.invalidLane lane cause)) ∧
    (∀ layer l, between g before after ≠ .error (.laneConflict layer l)) ∧
    ∀ q expected actual, between g before after ≠ .error (.routeMismatch q expected actual) := by
  have hcases := along_free_ok_or_refused hb hs .busReuse before after hn
  have hrefusal : ∀ e, between g before after = .error e → Refusal g .busReuse before after e := by
    intro e he
    rcases hcases with ⟨layers, hok⟩ | ⟨e', he', hrefusal⟩
    · cases hok.symm.trans he
    · cases he'.symm.trans he
      exact hrefusal
  refine ⟨hcases, ?_, ?_, ?_⟩
  · intro lane cause he
    cases hrefusal _ he
  · intro layer l he
    cases hrefusal _ he
  · intro q expected actual he
    cases hrefusal _ he

/-- Two atoms cannot change places: each is asked to enter the site that the other one holds. -/
theorem between_ok_or_refused_exchange :
    [(⟨0, 0⟩ : Location), ⟨0, 2⟩].Nodup ∧
    Refusal Compiler.forSmallGrid.graph .busReuse ⟨[], [⟨0, 0⟩, ⟨0, 2⟩], [0, 0]⟩
      ⟨[], [⟨0, 2⟩, ⟨0, 0⟩], [0, 0]⟩ (.unsupportedMove ⟨0, 0⟩ ⟨0, 2⟩) := by
  have hn : [(⟨0, 0⟩ : Location), ⟨0, 2⟩].Nodup := by decide
  have herror : between Compiler.forSmallGrid.graph ⟨[], [⟨0, 0⟩, ⟨0, 2⟩], [0, 0]⟩
      ⟨[], [⟨0, 2⟩, ⟨0, 0⟩], [0, 0]⟩ = .error (.unsupportedMove ⟨0, 0⟩ ⟨0, 2⟩) := by rfl
  refine ⟨hn, ?_⟩
  obtain ⟨⟨_, hok⟩ | ⟨e, he, hrefusal⟩, _⟩ := between_ok_or_refused
    Compiler.ofBlueprint_smallGrid Compiler.singleSource_smallGrid ⟨[], [⟨0, 0⟩, ⟨0, 2⟩], [0, 0]⟩
    ⟨[], [⟨0, 2⟩, ⟨0, 0⟩], [0, 0]⟩ hn
  · cases herror.symm.trans hok
  · cases herror.symm.trans he
    exact hrefusal

end MoveLayer

end AtomTransport
