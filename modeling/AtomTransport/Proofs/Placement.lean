import AtomTransport.Placement.Strategy
import AtomTransport.Proofs.Route
import AtomTransport.Proofs.Transition

/-!
# Placements that strategies find

A strategy brings the pairs of a CZ layer together one after another. Whichever candidates it prefers,
the accepted routes form a transition, because every route avoids the locations that earlier ones
claim; all crossing routes cross between the same two words; and a pair stays together once it is,
because no later move touches its qubits.
-/

namespace AtomTransport

/-- Routes that move their atoms from one placement to another, all crossings between the two words
that are taken. -/
structure Routed (g : LaneGraph) (before after : Placement) (taken : Option (Nat × Nat))
    (routes : List (Qubit × Route)) : Prop where
  transition : Transition g before after (routes.map fun r => (r.1, r.2.segments))
  splits : ∀ r ∈ routes, Route.ofPath? r.2.toPath = some r.2
  starts : ∀ r ∈ routes, before.layout[r.1]? = some r.2.start
  moving : ∀ r ∈ routes, r.2.segments ≠ []
  crosses : ∀ r ∈ routes, ∀ pair, r.2.wordPair? = some pair → taken = some pair

namespace Routed

variable {g : LaneGraph} {before after : Placement} {taken : Option (Nat × Nat)}
  {routes : List (Qubit × Route)}

theorem refl (p : Placement) : Routed g p p none [] :=
  ⟨Transition.refl p, by simp, by simp, by simp, by simp⟩

theorem perm {routes' : List (Qubit × Route)} (h : Routed g before after taken routes)
    (hp : routes.Perm routes') : Routed g before after taken routes' where
  transition := h.transition.perm (hp.map _)
  splits r hr := h.splits r (hp.mem_iff.mpr hr)
  starts r hr := h.starts r (hp.mem_iff.mpr hr)
  moving r hr := h.moving r (hp.mem_iff.mpr hr)
  crosses r hr := h.crosses r (hp.mem_iff.mpr hr)

theorem keys (h : Routed g before after taken routes) : (routes.map (·.1)).Nodup := by
  simpa [List.map_map, Function.comp_def] using h.transition.keys

theorem stays (h : Routed g before after taken routes) {q : Qubit} (hq : q ∉ routes.map (·.1)) :
    after.layout[q]? = before.layout[q]? :=
  (h.transition.stays q (by simpa [List.map_map, Function.comp_def] using hq)).1

theorem shaped (h : Routed g before after taken routes) : ∀ r ∈ routes, r.2.Shaped :=
  fun r hr => (Route.toPath_of_ofPath? (h.splits r hr)).1

theorem cons (h : Routed g before after taken routes) {q : Qubit} {route : Route}
    {src dst : Location} {blocked : Location → Bool} (hq : q ∉ routes.map (·.1))
    (hmoves : before.moves.length = before.layout.length) (hsrc : before.layout[q]? = some src)
    (hne : src ≠ dst) (htravels : route.toPath.Travels g.edges blocked src dst)
    (hsplit : Route.ofPath? route.toPath = some route)
    (hfree : ∀ l ∈ route.visited, l ∉ before.layout ∧ l ∉ before.occupied ∧
      l ∉ entered (routes.map fun r => (r.1, r.2.segments)))
    (hpair : ∀ pair, route.wordPair? = some pair → taken = none ∨ taken = some pair) :
    Routed g before (after.relocate q route.finish route.length) (taken.or route.wordPair?)
      ((q, route) :: routes) := by
  have hstart : route.start = src := htravels.start_eq
  have hfinish : route.finish = dst := by
    have hwalk := htravels.walk.finish_eq
    rw [← hstart] at hwalk
    exact hwalk
  have hsimple : (route.start :: route.visited).Nodup := htravels.simple
  have hq' : q ∉ (routes.map fun r => (r.1, r.2.segments)).map (·.1) := by
    simpa [List.map_map, Function.comp_def] using hq
  have hmoving : route.segments ≠ [] := by
    intro hnil
    have hwalk : Walk g.edges src route.segments dst := htravels.walk
    rw [hnil] at hwalk
    exact hne hwalk
  refine ⟨?_, ?_, ?_, ?_, ?_⟩
  · rw [hfinish]
    exact h.transition.cons hq' hsrc htravels.walk hmoves (List.nodup_cons.mp hsimple).2 hfree
  · exact List.forall_mem_cons.mpr ⟨hsplit, h.splits⟩
  · exact List.forall_mem_cons.mpr ⟨hstart ▸ hsrc, h.starts⟩
  · exact List.forall_mem_cons.mpr ⟨hmoving, h.moving⟩
  · refine List.forall_mem_cons.mpr ⟨?_, ?_⟩
    · intro pair hp
      rcases hpair pair hp with hnone | hsome
      · rw [hnone, Option.none_or, hp]
      · rw [hsome, Option.some_or]
    · intro r hr pair hp
      rw [h.crosses r hr pair hp, Option.some_or]

end Routed

namespace Router

variable {r : Router} {before : Placement}

def Covers (r : Router) (before : Placement) : Prop :=
  ∀ l, l ∈ before.layout ∨ l ∈ before.occupied ∨
    l ∈ entered (r.routes.map fun e => (e.1, e.2.segments)) → l ∈ r.claimed

theorem Covers.fresh (h : r.Covers before) {src dst : Location} {route : Route}
    (hdst : r.isClaimed dst = false)
    (htravels : route.toPath.Travels r.graph.edges (r.blocks src dst) src dst) :
    ∀ l ∈ route.visited, l ∉ before.layout ∧ l ∉ before.occupied ∧
      l ∉ entered (r.routes.map fun e => (e.1, e.2.segments)) := by
  intro l hl
  have hout := visited_unclaimed hdst htravels hl
  exact ⟨fun hin => hout (h l (Or.inl hin)), fun hin => hout (h l (Or.inr (Or.inl hin))),
    fun hin => hout (h l (Or.inr (Or.inr hin)))⟩

theorem Covers.commit (h : r.Covers before) {q : Qubit} (hq : q ∉ r.routes.map (·.1)) (route : Route) :
    (r.commit q route).Covers before := by
  intro l hl
  have hentered := ((commit_perm hq route).map fun e => (e.1, e.2.segments)).flatMap_right fun leg =>
    leg.2.map (·.dst)
  change l ∈ r.claimed ++ route.visited
  rcases hl with hl | hl | hl
  · exact List.mem_append_left _ (h l (Or.inl hl))
  · exact List.mem_append_left _ (h l (Or.inr (Or.inl hl)))
  · rcases List.mem_append.mp (hentered.mem_iff.mp hl) with hl | hl
    · exact List.mem_append_right _ hl
    · exact List.mem_append_left _ (h l (Or.inr (Or.inr hl)))

end Router

namespace Placement

def Blockaded (d : Device) (p : Placement) (a b : Qubit) : Prop :=
  ∃ la lb, p.layout[a]? = some la ∧ p.layout[b]? = some lb ∧ d.blockaded? la = some lb

end Placement

theorem Strategy.mem_of_best? {s : Strategy} {cs : List Candidate} {c : Candidate}
    (h : s.best? cs = some c) : c ∈ cs := by
  cases cs with
  | nil => cases h
  | cons c₀ cs =>
    simp only [best?, Option.some.injEq] at h
    exact h ▸ foldl_choose_mem (fun c b => s.rank c < s.rank b) c₀ cs

namespace LayerPlan

theorem candidate?_eq_some {plan : LayerPlan} {mover partner : Qubit} {order : Nat} {c : Candidate}
    (h : plan.candidate? mover partner order = some c) :
    c.mover = mover ∧ ∃ src other dst, plan.placement.layout[mover]? = some src ∧
      plan.placement.layout[partner]? = some other ∧
      plan.router.graph.device.blockaded? other = some dst ∧ plan.router.isClaimed dst = false ∧
      plan.router.route? src dst = some c.route ∧
      ∀ pair, c.route.wordPair? = some pair → plan.wordPair = none ∨ plan.wordPair = some pair := by
  simp only [candidate?, Option.bind_eq_bind, Option.bind_eq_some_iff] at h
  obtain ⟨src, hsrc, other, hother, dst, hdst, h⟩ := h
  split_ifs at h with hclaimed
  obtain ⟨route, hroute, h⟩ := Option.bind_eq_some_iff.mp h
  split at h <;> split_ifs at h with hpair <;> cases h
  · refine ⟨rfl, src, other, dst, hsrc, hother, hdst, by simpa using hclaimed, hroute, ?_⟩
    intro pair hp
    simp_all
  · refine ⟨rfl, src, other, dst, hsrc, hother, hdst, by simpa using hclaimed, hroute, ?_⟩
    intro pair hp
    cases hw : plan.wordPair <;> simp_all

/-- A plan in the middle of a layer: the pairs in `done` are together, only their qubits have routes, one
of a pair at most, and all locations that were held at the beginning or are entered by a route are
claimed. -/
structure Follows (g : LaneGraph) (before : Placement) (done : List (Qubit × Qubit))
    (plan : LayerPlan) : Prop where
  graph_eq : plan.router.graph = g
  routed : Routed g before plan.placement plan.wordPair plan.router.routes
  claimed : ∀ l, l ∈ before.layout ∨ l ∈ before.occupied ∨
    l ∈ entered (plan.router.routes.map fun r => (r.1, r.2.segments)) → l ∈ plan.router.claimed
  named : ∀ q ∈ plan.router.routes.map (·.1), ∃ pair ∈ done, q = pair.1 ∨ q = pair.2
  single : ∀ pair ∈ done, pair.1 ∉ plan.router.routes.map (·.1) ∨ pair.2 ∉ plan.router.routes.map (·.1)
  together : ∀ pair ∈ done, plan.placement.Blockaded g.device pair.1 pair.2

def Apart (a b : Qubit × Qubit) : Prop := a.1 ≠ b.1 ∧ a.1 ≠ b.2 ∧ a.2 ≠ b.1 ∧ a.2 ≠ b.2

section Step

variable {g : LaneGraph} {before : Placement} {done : List (Qubit × Qubit)} {plan : LayerPlan}
  {mover partner : Qubit} {order : Nat} {c : Candidate}

/-- The mover of a candidate has not moved before, so that its way to the partner site is new. -/
theorem Follows.routed_accept (h : Follows g before done plan)
    (hmoves : before.moves.length = before.layout.length)
    (hc : plan.candidate? mover partner order = some c)
    (hmover : ∀ pair ∈ done, mover ≠ pair.1 ∧ mover ≠ pair.2) :
    Routed g before (plan.accept c).placement (plan.accept c).wordPair
        ((mover, c.route) :: plan.router.routes) ∧
      (plan.accept c).router.routes.Perm ((mover, c.route) :: plan.router.routes) := by
  obtain ⟨rfl, src, other, dst, hsrc, _, _, hclaimed, hroute, hpair⟩ := candidate?_eq_some hc
  have hkey : c.mover ∉ plan.router.routes.map (·.1) := by
    intro hin
    obtain ⟨pair, hpair, hq⟩ := h.named _ hin
    exact hq.elim (hmover pair hpair).1 (hmover pair hpair).2
  have hsrc' : before.layout[c.mover]? = some src := h.routed.stays hkey ▸ hsrc
  have hne : src ≠ dst := by
    rintro rfl
    have hin := h.claimed src (Or.inl (List.mem_of_getElem? hsrc'))
    simp [Router.isClaimed, hin] at hclaimed
  obtain ⟨htravels, _, hsplit⟩ := Router.travels_of_route? hne hroute
  have hfree := Router.Covers.fresh h.claimed hclaimed htravels
  rw [h.graph_eq] at htravels
  exact ⟨h.routed.cons hkey hmoves hsrc' hne htravels hsplit hfree hpair, Router.commit_perm hkey c.route⟩

theorem Follows.layout_accept (h : Follows g before done plan)
    (hc : plan.candidate? mover partner order = some c) (hne : mover ≠ partner) :
    ∃ other dst, (plan.accept c).placement.layout[mover]? = some dst ∧
      (plan.accept c).placement.layout[partner]? = some other ∧
      g.device.blockaded? other = some dst ∧
      ∀ q, q ≠ mover → (plan.accept c).placement.layout[q]? = plan.placement.layout[q]? := by
  obtain ⟨rfl, src, other, dst, hsrc, hother, hdst, _, hroute, _⟩ := candidate?_eq_some hc
  have hfinish : c.route.finish = dst := by
    by_cases hsd : src = dst
    · rw [Router.route?, if_pos hsd] at hroute
      rw [← Option.some.inj hroute]
      exact hsd
    · obtain ⟨htravels, _, _⟩ := Router.travels_of_route? hsd hroute
      have hwalk := htravels.walk.finish_eq
      rw [← htravels.start_eq] at hwalk
      exact hwalk
  have hlt : c.mover < plan.placement.layout.length := (List.getElem?_eq_some_iff.mp hsrc).1
  have hat := fun q => (Placement.getElem?_relocate (p := plan.placement) c.mover q c.route.finish
    c.route.length).1
  refine ⟨other, dst, ?_, ?_, h.graph_eq ▸ hdst, ?_⟩
  · change (plan.placement.relocate _ _ _).layout[c.mover]? = _
    rw [hat, if_pos rfl, if_pos hlt, hfinish]
  · change (plan.placement.relocate _ _ _).layout[partner]? = _
    rw [hat, if_neg hne, hother]
  · intro q hq
    change (plan.placement.relocate _ _ _).layout[q]? = _
    rw [hat, if_neg (Ne.symm hq)]

/-- Accepting a candidate brings its pair together and keeps the pairs before it. -/
theorem Follows.accept {b : Blueprint} (hb : Device.ofBlueprint b = .ok g.device)
    (h : Follows g before done plan) (hmoves : before.moves.length = before.layout.length)
    {pair : Qubit × Qubit} (hself : pair.1 ≠ pair.2) (happart : ∀ other ∈ done, Apart pair other)
    (hc : plan.candidate? mover partner order = some c)
    (hpair : (mover, partner) = pair ∨ (partner, mover) = pair) :
    Follows g before (done ++ [pair]) (plan.accept c) := by
  have hmover : ∀ other ∈ done, mover ≠ other.1 ∧ mover ≠ other.2 := by
    intro other hother
    obtain ⟨h₁, h₂, h₃, h₄⟩ := happart other hother
    rcases hpair with rfl | rfl
    · exact ⟨h₁, h₂⟩
    · exact ⟨h₃, h₄⟩
  have hne : mover ≠ partner := by
    rcases hpair with rfl | rfl
    · exact hself
    · exact hself.symm
  obtain ⟨hrouted, hperm⟩ := h.routed_accept hmoves hc hmover
  obtain ⟨lp, lm, hlm, hlp, hblock, hrest⟩ := h.layout_accept hc hne
  have hkeys : ∀ q, q ∈ (plan.accept c).router.routes.map (·.1) ↔
      q = mover ∨ q ∈ plan.router.routes.map (·.1) := by
    intro q
    rw [(hperm.map (·.1)).mem_iff, List.map_cons, List.mem_cons]
  refine ⟨h.graph_eq, hrouted.perm hperm.symm, ?_, ?_, ?_, ?_⟩
  · obtain ⟨rfl, _⟩ := candidate?_eq_some hc
    exact Router.Covers.commit h.claimed (List.nodup_cons.mp hrouted.keys).1 c.route
  · intro q hq
    rcases (hkeys q).mp hq with rfl | hq
    · refine ⟨pair, by simp, ?_⟩
      rcases hpair with rfl | rfl
      · exact Or.inl rfl
      · exact Or.inr rfl
    · obtain ⟨other, hother, hq⟩ := h.named q hq
      exact ⟨other, List.mem_append_left _ hother, hq⟩
  · -- The partner of the mover has no route: it is in no pair before this one.
    intro other hother
    rcases List.mem_append.mp hother with hother | hother
    · obtain ⟨h₁, h₂⟩ := hmover other hother
      rw [hkeys, hkeys, not_or, not_or]
      exact (h.single other hother).imp (⟨h₁.symm, ·⟩) (⟨h₂.symm, ·⟩)
    · have hpartner : partner ∉ (plan.accept c).router.routes.map (·.1) := by
        rw [hkeys, not_or]
        refine ⟨hne.symm, fun hq => ?_⟩
        obtain ⟨other, hother, hq⟩ := h.named partner hq
        obtain ⟨h₁, h₂, h₃, h₄⟩ := happart other hother
        rcases hpair with rfl | rfl
        · exact hq.elim h₃ h₄
        · exact hq.elim h₁ h₂
      rw [List.mem_singleton.mp hother]
      rcases hpair with rfl | rfl
      · exact Or.inr hpartner
      · exact Or.inl hpartner
  · intro other hother
    rcases List.mem_append.mp hother with hother | hother
    · obtain ⟨la, lb, hla, hlb, hab⟩ := h.together other hother
      have hm := hmover other hother
      exact ⟨la, lb, (hrest _ (Ne.symm hm.1)).trans hla, (hrest _ (Ne.symm hm.2)).trans hlb, hab⟩
    · rw [List.mem_singleton.mp hother]
      rcases hpair with rfl | rfl
      · exact ⟨lm, lp, hlm, hlp, (Device.blockaded?_eq_some hb hblock).2.2.1⟩
      · exact ⟨lp, lm, hlp, hlm, hblock⟩

theorem Follows.placePair {b : Blueprint} (hb : Device.ofBlueprint b = .ok g.device)
    (h : Follows g before done plan) (hmoves : before.moves.length = before.layout.length)
    {s : Strategy} {pair : Qubit × Qubit} {plan' : LayerPlan} (hself : pair.1 ≠ pair.2)
    (happart : ∀ other ∈ done, Apart pair other) (hplace : plan.placePair s pair = .ok plan') :
    Follows g before (done ++ [pair]) plan' := by
  simp only [LayerPlan.placePair] at hplace
  split_ifs at hplace with htogether
  · cases hplace
    refine ⟨h.graph_eq, h.routed, h.claimed, ?_, ?_, ?_⟩
    · intro q hq
      obtain ⟨other, hother, hq⟩ := h.named q hq
      exact ⟨other, List.mem_append_left _ hother, hq⟩
    · intro other hother
      rcases List.mem_append.mp hother with hother | hother
      · exact h.single other hother
      · rw [List.mem_singleton.mp hother]
        refine Or.inl fun hq => ?_
        obtain ⟨other, hother, hq⟩ := h.named pair.1 hq
        exact hq.elim (happart other hother).1 (happart other hother).2.1
    · intro other hother
      rcases List.mem_append.mp hother with hother | hother
      · exact h.together other hother
      · rw [List.mem_singleton.mp hother]
        unfold LayerPlan.together at htogether
        split at htogether
        next lc lt hlc hlt =>
          rw [h.graph_eq] at htogether
          exact ⟨lc, lt, hlc, hlt, by simpa using htogether⟩
        · cases htogether
  · split at hplace
    next c hbest =>
      cases hplace
      have hmem := Strategy.mem_of_best? hbest
      simp only [List.filterMap_cons, List.filterMap_nil] at hmem
      rcases hcontrol : plan.candidate? pair.1 pair.2 0 with _ | c₁ <;>
        rcases htarget : plan.candidate? pair.2 pair.1 1 with _ | c₂ <;>
        simp only [hcontrol, htarget, List.mem_cons, List.not_mem_nil, or_false] at hmem
      · rw [hmem]
        exact h.accept hb hmoves hself happart htarget (Or.inr rfl)
      · rw [hmem]
        exact h.accept hb hmoves hself happart hcontrol (Or.inl rfl)
      · rcases hmem with rfl | rfl
        · exact h.accept hb hmoves hself happart hcontrol (Or.inl rfl)
        · exact h.accept hb hmoves hself happart htarget (Or.inr rfl)
    · cases hplace

/-- Placing all pairs of a layer, one after another, brings them all together. -/
theorem Follows.foldlM_placePair {b : Blueprint} (hb : Device.ofBlueprint b = .ok g.device)
    (hmoves : before.moves.length = before.layout.length) {s : Strategy}
    {pairs : List (Qubit × Qubit)} {plan' : LayerPlan} (h : Follows g before done plan)
    (hself : ∀ pair ∈ pairs, pair.1 ≠ pair.2) (hpairs : pairs.Pairwise Apart)
    (hdone : ∀ pair ∈ pairs, ∀ other ∈ done, Apart pair other)
    (hplace : pairs.foldlM (fun plan pair => plan.placePair s pair) plan = .ok plan') :
    Follows g before (done ++ pairs) plan' := by
  induction pairs generalizing done plan with
  | nil =>
    cases hplace
    simpa using h
  | cons pair pairs ih =>
    rw [List.foldlM_cons, bind_eq_ok] at hplace
    obtain ⟨mid, hmid, hplace⟩ := hplace
    obtain ⟨hpair, hpairs⟩ := List.pairwise_cons.mp hpairs
    have hstep := h.placePair hb hmoves (hself pair List.mem_cons_self)
      (hdone pair List.mem_cons_self) hmid
    rw [← List.singleton_append, ← List.append_assoc]
    refine ih hstep (fun p hp => hself p (List.mem_cons_of_mem _ hp)) hpairs ?_ hplace
    intro p hp other hother
    rcases List.mem_append.mp hother with hother | hother
    · exact hdone p (List.mem_cons_of_mem _ hp) other hother
    · rw [List.mem_singleton.mp hother]
      obtain ⟨h₁, h₂, h₃, h₄⟩ := hpair p hp
      exact ⟨h₁.symm, h₃.symm, h₂.symm, h₄.symm⟩

end Step

end LayerPlan

theorem nodup_of_length_eraseDups {xs : List Nat} (h : xs.eraseDups.length = xs.length) :
    xs.Nodup := by
  have key : ∀ (n : Nat) (xs : List Nat), xs.length ≤ n → xs.eraseDups.length ≤ xs.length ∧
      (xs.eraseDups.length = xs.length → xs.Nodup) := by
    intro n
    induction n with
    | zero =>
      intro xs hxs
      obtain rfl := List.length_eq_zero_iff.mp (Nat.le_zero.mp hxs)
      simp
    | succ n ih =>
      intro xs hxs
      cases xs with
      | nil => simp
      | cons x xs =>
        have hfilter := List.length_filter_le (fun y => !y == x) xs
        rw [List.length_cons] at hxs
        obtain ⟨hle, heq⟩ := ih (xs.filter fun y => !y == x) (by omega)
        rw [List.eraseDups_cons, List.length_cons, List.length_cons]
        refine ⟨by omega, ?_⟩
        intro hlen
        have hall := List.length_filter_eq_length_iff.mp
          (show (xs.filter fun y => !y == x).length = xs.length by omega)
        have hself : (xs.filter fun y => !y == x) = xs := List.filter_eq_self.mpr hall
        rw [hself] at heq hlen
        refine List.nodup_cons.mpr ⟨?_, heq (by omega)⟩
        intro hx
        simpa using hall x hx
  exact (key xs.length xs (Nat.le_refl _)).2 h

theorem eraseDups_of_nodup {xs : List Nat} (h : xs.Nodup) : xs.eraseDups = xs := by
  induction xs with
  | nil => rfl
  | cons x xs ih =>
    obtain ⟨hx, hxs⟩ := List.nodup_cons.mp h
    have hfilter : (xs.filter fun y => !y == x) = xs := by
      refine List.filter_eq_self.mpr ?_
      intro y hy
      have hne : y ≠ x := fun heq => hx (heq ▸ hy)
      simpa using hne
    rw [List.eraseDups_cons, hfilter, ih hxs]

namespace Placement

theorem admitsCz_iff {p : Placement} {controls targets : List Qubit} :
    p.admitsCz controls targets = true ↔ controls.length = targets.length ∧
      (controls ++ targets).Nodup ∧ ∀ q ∈ controls ++ targets, q < p.layout.length := by
  have hnodup : (controls ++ targets).eraseDups.length = (controls ++ targets).length ↔
      (controls ++ targets).Nodup :=
    ⟨nodup_of_length_eraseDups, fun h => congrArg List.length (eraseDups_of_nodup h)⟩
  simp only [admitsCz, Bool.and_eq_true, decide_eq_true_eq, List.all_eq_true, hnodup]
  constructor
  · rintro ⟨⟨hlength, hlt⟩, hn⟩
    exact ⟨hlength, hn, hlt⟩
  · rintro ⟨hlength, hn, hlt⟩
    exact ⟨⟨hlength, hlt⟩, hn⟩

theorem pairs_of_admitsCz {p : Placement} {controls targets : List Qubit}
    (h : p.admitsCz controls targets = true) :
    controls.length = targets.length ∧ (∀ pair ∈ controls.zip targets, pair.1 ≠ pair.2) ∧
      (controls.zip targets).Pairwise LayerPlan.Apart := by
  obtain ⟨hlength, hnodup, -⟩ := admitsCz_iff.mp h
  refine ⟨hlength, ?_⟩
  clear h hlength
  induction controls generalizing targets with
  | nil => simp
  | cons c controls ih =>
    cases targets with
    | nil => simp
    | cons t targets =>
      rw [List.nodup_append'] at hnodup
      obtain ⟨hc, ht, hdisjoint⟩ := hnodup
      obtain ⟨hc, hcs⟩ := List.nodup_cons.mp hc
      obtain ⟨ht, hts⟩ := List.nodup_cons.mp ht
      rw [List.disjoint_cons_left, List.disjoint_cons_right] at hdisjoint
      obtain ⟨hct, htc, hrest⟩ := hdisjoint
      have hnodup : (controls ++ targets).Nodup := List.nodup_append'.mpr ⟨hcs, hts, hrest⟩
      obtain ⟨hself, hpairs⟩ := ih hnodup
      rw [List.mem_cons, not_or] at hct
      refine ⟨List.forall_mem_cons.mpr ⟨hct.1, hself⟩, List.pairwise_cons.mpr ⟨?_, hpairs⟩⟩
      rintro ⟨c', t'⟩ hin
      obtain ⟨hc', ht'⟩ := List.of_mem_zip hin
      refine ⟨?_, ?_, ?_, ?_⟩
      · rintro rfl
        exact hc hc'
      · rintro rfl
        exact hct.2 ht'
      · rintro rfl
        exact htc hc'
      · rintro rfl
        exact ht ht'

/-- What a layer does to a known placement. Only CZ gates move atoms; their layer is refused, and then the
placement is lost, or all its pairs are placed. -/
theorem transfer_cases {b : Blueprint} {g : LaneGraph} {h : Heuristic} {s : Strategy}
    {before : Placement} {info : PlacementInfo} {layer : GateLayer} {paths : List (Qubit × Path)}
    (hb : Device.ofBlueprint b = .ok g.device) (hmoves : before.moves.length = before.layout.length)
    (ht : transfer g h s before layer = .ok (info, paths)) :
    ((∀ controls targets, layer ≠ .cz controls targets) ∧ info = .known before ∧ paths = []) ∨
      (∃ controls targets, layer = .cz controls targets ∧ before.admitsCz controls targets = false ∧
        info = .anything ∧ paths = []) ∨
      ∃ controls targets plan, layer = .cz controls targets ∧
        before.admitsCz controls targets = true ∧ info = .known plan.placement ∧
        paths = (plan.router.routes.map fun r => (r.1, r.2.toPath)) ∧
        LayerPlan.Follows g before (controls.zip targets) plan := by
  unfold transfer at ht
  split at ht
  next controls targets =>
    refine Or.inr ?_
    obtain ⟨⟨_, router⟩, hplace, hresult⟩ := bind_eq_ok.mp ht
    simp only [Except.ok.injEq, Prod.mk.injEq] at hresult
    obtain ⟨rfl, rfl⟩ := hresult
    unfold placeCz at hplace
    split_ifs at hplace with hadmits
    · obtain ⟨plan, hfold, hplan⟩ := bind_eq_ok.mp hplace
      cases hplan
      obtain ⟨_, hself, hpairs⟩ := pairs_of_admitsCz hadmits
      have hstart : LayerPlan.Follows g before []
          { router := ⟨g, h, before.blocked, [], [], []⟩, placement := before } := by
        refine ⟨rfl, Routed.refl before, ?_, by simp, by simp, by simp⟩
        intro l hl
        simpa [blocked, entered] using hl
      have hfollows := hstart.foldlM_placePair hb hmoves hself hpairs (by simp) hfold
      refine Or.inr ⟨controls, targets, plan, rfl, hadmits, rfl, ?_, by simpa using hfollows⟩
      have hmoving : plan.router.routes.filter (fun r => !r.2.isEmpty) = plan.router.routes := by
        refine List.filter_eq_self.mpr ?_
        intro r hr
        simpa [Route.isEmpty] using hfollows.routed.moving r hr
      simp only [Router.paths, hmoving]
    · cases hplace
      exact Or.inl ⟨controls, targets, rfl, by simpa using hadmits, rfl, rfl⟩
  next hcz =>
    cases ht
    exact Or.inl ⟨hcz, rfl, rfl⟩

/-- A layer that keeps the placement known moves its atoms along the reported paths, and brings the
pairs of CZ gates together. -/
theorem routed_of_transfer {b : Blueprint} {g : LaneGraph} {h : Heuristic} {s : Strategy}
    {before after : Placement} {layer : GateLayer} {paths : List (Qubit × Path)}
    (hb : Device.ofBlueprint b = .ok g.device) (hmoves : before.moves.length = before.layout.length)
    (ht : transfer g h s before layer = .ok (.known after, paths)) :
    ∃ taken routes, Routed g before after taken routes ∧
      paths = (routes.map fun r => (r.1, r.2.toPath)) ∧
      ∀ controls targets, layer = .cz controls targets → controls.length = targets.length ∧
        ∀ pair ∈ controls.zip targets, after.Blockaded g.device pair.1 pair.2 := by
  rcases transfer_cases hb hmoves ht with ⟨hcz, hafter, rfl⟩ | ⟨_, _, _, _, hafter, _⟩ |
    ⟨controls, targets, plan, rfl, hadmits, hafter, rfl, hfollows⟩
  · cases hafter
    refine ⟨none, [], Routed.refl before, rfl, ?_⟩
    intro controls targets hlayer
    exact absurd hlayer (hcz controls targets)
  · cases hafter
  · cases hafter
    refine ⟨_, plan.router.routes, hfollows.routed, rfl, ?_⟩
    rintro _ _ ⟨⟩
    exact ⟨(pairs_of_admitsCz hadmits).1, hfollows.together⟩

end Placement

end AtomTransport
