import AtomTransport.Proofs.ParallelStep

/-!
# Replaying runs

The replay of move layers keeps its own map from locations to qubits. As long as this map shows a
placement, lifting and dropping the atoms of a possible step succeeds and shows the placement after
it, so that the replay of a run succeeds and finds every qubit where it should be.
-/

namespace AtomTransport.MoveLayer

structure Shows (positions : Positions) (p : Placement) : Prop where
  keys : (positions.map (·.1)).Nodup
  mem_iff : ∀ l q, (l, q) ∈ positions ↔ p.layout[q]? = some l

theorem shows_ofPairs {p : Placement} (hn : p.layout.Nodup) :
    Shows (Ascending.ofPairs (p.qubits.map Prod.swap)) p := by
  have hpairs : p.qubits.map Prod.swap = p.layout.zipIdx := by
    simp [Placement.qubits, List.map_map, Function.comp_def]
  have hkeys : (p.layout.zipIdx.map Prod.fst).Nodup := by
    rw [List.zipIdx_map_fst]
    exact hn
  have hperm := Ascending.ofPairs_perm hkeys
  rw [hpairs]
  refine ⟨(hperm.map Prod.fst).nodup_iff.mpr hkeys, ?_⟩
  intro l q
  rw [hperm.mem_iff, List.mem_zipIdx_iff_getElem?]

theorem lift_eq_ok {d : Device} (hs : d.SingleSource) (index : Nat) {positions : Positions}
    {hops : List Hop} (hkeys : (positions.map (·.1)).Nodup)
    (hedges : ∀ h ∈ hops, (⟨h.lane, h.src, h.dst⟩ : Segment) ∈ d.edges)
    (hq : (hops.map (·.qubit)).Nodup) (hat : ∀ h ∈ hops, (h.src, h.qubit) ∈ positions) :
    lift d index positions (hops.map (·.lane)) =
      .ok (hops.map fun h => (h.qubit, h.dst), positions.filter fun e => e.1 ∉ hops.map (·.src)) := by
  induction hops generalizing positions with
  | nil => simp [lift]
  | cons h hops ih =>
    rw [List.forall_mem_cons] at hedges hat
    obtain ⟨hnew, hq⟩ := List.nodup_cons.mp hq
    have hends : d.endpoints h.lane = .ok (h.src, h.dst) :=
      (Device.endpoints_of_mem_edges hs hedges.1).1
    have hget : Ascending.get? h.src positions = some h.qubit :=
      (Ascending.get?_eq_some_iff hkeys).mpr hat.1
    have hkeys' : ((positions.filter (·.1 ≠ h.src)).map (·.1)).Nodup :=
      hkeys.sublist (List.filter_sublist.map _)
    have hat' : ∀ h' ∈ hops, (h'.src, h'.qubit) ∈ positions.filter (·.1 ≠ h.src) := by
      intro h' hh'
      refine List.mem_filter.mpr ⟨hat.2 h' hh', ?_⟩
      rw [decide_eq_true_eq]
      intro heq
      have hsame := List.inj_on_of_nodup_map hkeys (hat.2 h' hh') hat.1 heq
      have hqubit : h'.qubit = h.qubit := congrArg Prod.snd hsame
      exact hnew (List.mem_map.mpr ⟨h', hh', hqubit⟩)
    have hrest := ih hkeys' hedges.2 hq hat'
    simp only [List.map_cons, lift, hends, Except.mapError, ok_bind, hget, hrest,
      List.filter_filter, List.mem_cons, not_or]
    congr 3
    funext e
    simp [Bool.and_comm]

theorem drop_eq_ok {occupied : List Location} (index : Nat) {positions : Positions} {hops : List Hop}
    (hfree : ∀ h ∈ hops, h.dst ∉ occupied)
    (hkeys : (hops.map (·.dst) ++ positions.map (·.1)).Nodup) :
    ∃ positions', drop occupied index positions (hops.map fun h => (h.qubit, h.dst)) = .ok positions' ∧
      positions'.Perm ((hops.map fun h => (h.dst, h.qubit)) ++ positions) := by
  induction hops generalizing positions with
  | nil => exact ⟨positions, rfl, List.Perm.refl _⟩
  | cons h hops ih =>
    rw [List.forall_mem_cons] at hfree
    rw [List.map_cons, List.cons_append, List.nodup_cons, List.mem_append, not_or] at hkeys
    obtain ⟨⟨hend, hout⟩, hkeys⟩ := hkeys
    have hget : Ascending.get? h.dst positions = none := Ascending.get?_eq_none_iff.mpr hout
    have hput := Ascending.put_perm hget h.qubit
    have hkeys' : (hops.map (·.dst) ++ (Ascending.put h.dst h.qubit positions).map (·.1)).Nodup := by
      refine (((hput.map (·.1)).append_left _).trans List.perm_middle).nodup_iff.mpr ?_
      refine List.nodup_cons.mpr ⟨?_, hkeys⟩
      rw [List.mem_append, not_or]
      exact ⟨hend, hout⟩
    obtain ⟨positions', hdrop, hperm⟩ := ih hfree.2 hkeys'
    refine ⟨positions', ?_, hperm.trans ((hput.append_left _).trans List.perm_middle)⟩
    simpa [drop, hfree.1, hget] using hdrop

theorem Shows.mem_left {g : LaneGraph} {p : Placement} {hops : List Hop} {positions : Positions}
    (h : Shows positions p) (hstep : ParallelStep g p hops) (l : Location) (q : Qubit) :
    (l, q) ∈ positions.filter (fun e => e.1 ∉ hops.map (·.src)) ↔
      p.layout[q]? = some l ∧ q ∉ hops.map (·.qubit) := by
  rw [List.mem_filter, h.mem_iff, decide_eq_true_eq]
  refine and_congr_right fun hl => not_congr ⟨?_, ?_⟩
  · intro hin
    obtain ⟨h', hh', heq⟩ := List.mem_map.mp hin
    have heq : h'.src = l := heq
    have hsame := List.inj_on_of_nodup_map h.keys ((h.mem_iff _ _).mpr hl)
      ((h.mem_iff _ _).mpr (hstep.departs h' hh')) heq.symm
    have hqubit : q = h'.qubit := congrArg Prod.snd hsame
    exact hqubit ▸ List.mem_map_of_mem hh'
  · intro hin
    obtain ⟨h', hh', rfl⟩ := List.mem_map.mp hin
    have hsrc := hstep.departs h' hh'
    rw [hl, Option.some.injEq] at hsrc
    exact hsrc ▸ List.mem_map_of_mem hh'

/-- Lifting and dropping the atoms of a possible step shows the placement after it. -/
theorem Shows.step {g : LaneGraph} {p : Placement} {hops : List Hop} {positions : Positions}
    (hs : g.device.SingleSource) (h : Shows positions p) (hstep : ParallelStep g p hops)
    (index : Nat) :
    ∃ left positions', lift g.device index positions (hops.map (·.lane)) =
        .ok (hops.map fun h => (h.qubit, h.dst), left) ∧
      drop p.occupied index left (hops.map fun h => (h.qubit, h.dst)) = .ok positions' ∧
      Shows positions' (p.hopAll hops) := by
  have hlift := lift_eq_ok hs index h.keys (fun h' hh => g.edges_eq ▸ hstep.edges h' hh)
    hstep.qubits (fun h' hh => (h.mem_iff _ _).mpr (hstep.departs h' hh))
  have hkeys : (hops.map (·.dst) ++
      (positions.filter fun e => e.1 ∉ hops.map (·.src)).map (·.1)).Nodup := by
    refine List.nodup_append'.mpr ⟨hstep.ends_nodup, h.keys.sublist (List.filter_sublist.map _), ?_⟩
    intro l hl hl'
    obtain ⟨h', hh', rfl⟩ := List.mem_map.mp hl
    obtain ⟨⟨l, q⟩, hmem, heq⟩ := List.mem_map.mp hl'
    obtain ⟨hlayout, hq⟩ := (h.mem_left hstep l q).mp hmem
    exact hstep.dst_ne_of_stays hh' hq hlayout heq.symm
  obtain ⟨positions', hdrop, hperm⟩ := drop_eq_ok index hstep.avoids hkeys
  refine ⟨_, positions', hlift, hdrop, ?_, ?_⟩
  · refine (hperm.map (·.1)).nodup_iff.mpr ?_
    simpa [List.map_map, Function.comp_def] using hkeys
  · intro l q
    rw [hperm.mem_iff, List.mem_append, h.mem_left hstep, List.mem_map]
    by_cases hq : q ∈ hops.map (·.qubit)
    · obtain ⟨h', hh', rfl⟩ := List.mem_map.mp hq
      rw [hstep.layout_of_mem hh']
      constructor
      · rintro (⟨h'', hh'', heq⟩ | ⟨_, hout⟩)
        · simp only [Prod.mk.injEq] at heq
          have hsame := List.inj_on_of_nodup_map hstep.qubits hh'' hh' heq.2
          rw [← heq.1, hsame]
        · exact absurd hq hout
      · intro heq
        exact Or.inl ⟨h', hh', by rw [← Option.some.inj heq]⟩
    · rw [(Placement.hopAll_of_notMem hq).1]
      constructor
      · rintro (⟨h'', hh'', heq⟩ | ⟨hlayout, _⟩)
        · simp only [Prod.mk.injEq] at heq
          exact absurd (heq.2 ▸ List.mem_map_of_mem (f := (·.qubit)) hh'') hq
        · exact hlayout
      · exact fun hlayout => Or.inr ⟨hlayout, hq⟩

/-- The replay of a run succeeds and shows its last placement. -/
theorem Shows.replayFrom {g : LaneGraph} {p p' : Placement} {layers : List MoveLayer}
    {positions : Positions} (hs : g.device.SingleSource) (h : Shows positions p)
    (hrun : Run g p layers p') (index : Nat) :
    ∃ positions', replayFrom g.device p.occupied index positions layers = .ok positions' ∧
      Shows positions' p' := by
  induction layers generalizing p positions index with
  | nil =>
    obtain rfl : p = p' := hrun
    exact ⟨positions, rfl, h⟩
  | cons layer layers ih =>
    obtain ⟨hops, hlanes, hstep, hrun⟩ := hrun
    obtain ⟨left, mid, hlift, hdrop, hmid⟩ := h.step hs hstep index
    obtain ⟨positions', hreplay, hshows⟩ := ih hmid hrun (index + 1)
    rw [Placement.hopAll_occupied] at hreplay
    exact ⟨positions', by simp only [MoveLayer.replayFrom, hlanes, hlift, ok_bind, hdrop, hreplay],
      hshows⟩

theorem Shows.checkReached {p : Placement} {positions : Positions} (h : Shows positions p)
    {qubits : List (Qubit × Location)} (hq : ∀ e ∈ qubits, p.layout[e.1]? = some e.2) :
    checkReached positions qubits = .ok () := by
  induction qubits with
  | nil => rfl
  | cons e qubits ih =>
    obtain ⟨q, l⟩ := e
    rw [List.forall_mem_cons] at hq
    rw [MoveLayer.checkReached]
    cases hfind : positions.find? (·.2 = q) with
    | none => exact ih hq.2
    | some e =>
      have hqubit : e.2 = q := by simpa using List.find?_some hfind
      have hlayout : p.layout[q]? = some e.1 :=
        (h.mem_iff e.1 q).mp (hqubit ▸ List.mem_of_find?_eq_some hfind)
      rw [hq.1, Option.some.injEq] at hlayout
      exact (if_pos hlayout.symm).trans (ih hq.2)

/-- Layers that run from one placement to another pass the replay. -/
theorem replay_of_run {g : LaneGraph} {before after : Placement} {layers : List MoveLayer}
    (hs : g.device.SingleSource) (hn : before.layout.Nodup) (hrun : Run g before layers after) :
    replay g.device before after layers = .ok () := by
  obtain ⟨positions, hreplay, hshows⟩ := (shows_ofPairs hn).replayFrom hs hrun 0
  change (replayFrom g.device before.occupied 0 (Ascending.ofPairs (before.qubits.map Prod.swap))
    layers >>= fun reached => checkReached reached after.qubits) = .ok ()
  rw [hreplay, ok_bind]
  refine hshows.checkReached ?_
  rintro ⟨q, l⟩ hmem
  simpa [Placement.qubits, List.mem_zipIdx_iff_getElem?] using hmem

end AtomTransport.MoveLayer
