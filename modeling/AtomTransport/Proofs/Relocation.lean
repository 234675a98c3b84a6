import AtomTransport.Proofs.Compilation

/-!
# Synthesised layers move the atoms

Whatever paths are suggested, layers that come out of the synthesis have been replayed. A replay that
succeeds lifts and drops atoms in possible steps only, so that the same layers move the atoms themselves
from the first placement to the second, and no atom is put on a site that is occupied otherwise.
-/

namespace AtomTransport

namespace MoveLayer

variable {g : LaneGraph} {p : Placement} {positions left positions' : Positions}

/-- The atoms that a layer lifts: each lane has end points, and another atom at its start. -/
theorem hops_of_lift {d : Device} {index : Nat} {lanes : List Lane}
    {lifted : List (Qubit × Location)} (hkeys : (positions.map (·.1)).Nodup)
    (h : lift d index positions lanes = .ok (lifted, left)) :
    ∃ hops : List Hop, lanes = hops.map (·.lane) ∧ lifted = hops.map (fun h => (h.qubit, h.dst)) ∧
      (∀ h ∈ hops, d.endpoints h.lane = .ok (h.src, h.dst)) ∧
      (∀ h ∈ hops, (h.src, h.qubit) ∈ positions) ∧ (hops.map (·.src)).Nodup ∧
      left = positions.filter fun e => e.1 ∉ hops.map (·.src) := by
  induction lanes generalizing positions lifted with
  | nil =>
    cases h
    exact ⟨[], rfl, rfl, by simp, by simp, List.nodup_nil, by simp⟩
  | cons lane lanes ih =>
    obtain ⟨⟨src, dst⟩, hends, h⟩ := bind_eq_ok.mp h
    simp only at h
    split at h
    · cases h
    next q hq =>
      obtain ⟨⟨lifted', left'⟩, hlift, h⟩ := bind_eq_ok.mp h
      cases h
      have hkeys' : ((positions.filter (·.1 ≠ src)).map (·.1)).Nodup :=
        hkeys.sublist (List.filter_sublist.map _)
      obtain ⟨hops, rfl, rfl, hends', hat, hnodup, rfl⟩ := ih hkeys' hlift
      have hat' : ∀ h ∈ hops, (h.src, h.qubit) ∈ positions ∧ h.src ≠ src := by
        intro h hh
        simpa using List.mem_filter.mp (hat h hh)
      refine ⟨⟨lane, q, src, dst⟩ :: hops, rfl, rfl, ?_, ?_, ?_, ?_⟩
      · exact List.forall_mem_cons.mpr ⟨mapError_eq_ok.mp hends, hends'⟩
      · exact List.forall_mem_cons.mpr ⟨Ascending.mem_of_get? hq, fun h hh => (hat' h hh).1⟩
      · refine List.nodup_cons.mpr ⟨?_, hnodup⟩
        intro hin
        obtain ⟨h, hh, heq⟩ := List.mem_map.mp hin
        exact (hat' h hh).2 heq
      · simp only [List.filter_filter, List.map_cons, List.mem_cons, not_or]
        congr 1
        funext e
        simp [Bool.and_comm]

/-- Atoms are only dropped on sites that are free, each on another one. -/
theorem free_of_drop {occupied : List Location} {index : Nat} {lifted : List (Qubit × Location)}
    (hkeys : (positions.map (·.1)).Nodup)
    (h : drop occupied index positions lifted = .ok positions') :
    (∀ e ∈ lifted, e.2 ∉ occupied) ∧ (lifted.map (·.2) ++ positions.map (·.1)).Nodup := by
  induction lifted generalizing positions with
  | nil => exact ⟨by simp, hkeys⟩
  | cons e lifted ih =>
    obtain ⟨q, dst⟩ := e
    simp only [drop] at h
    split_ifs at h with hfree
    simp only [Bool.or_eq_true, not_or, List.contains_eq_mem, decide_eq_true_eq,
      Option.not_isSome_iff_eq_none] at hfree
    obtain ⟨hout, hget⟩ := hfree
    have hput := (Ascending.put_perm hget q).map (·.1)
    have hnew : dst ∉ positions.map (·.1) := Ascending.get?_eq_none_iff.mp hget
    have hkeys' : ((Ascending.put dst q positions).map (·.1)).Nodup :=
      hput.nodup_iff.mpr (List.nodup_cons.mpr ⟨hnew, hkeys⟩)
    obtain ⟨hfree, hnodup⟩ := ih hkeys' h
    refine ⟨List.forall_mem_cons.mpr ⟨hout, hfree⟩, ?_⟩
    exact ((hput.append_left _).trans List.perm_middle).nodup_iff.mp hnodup

/-- A replayed layer of compatible lanes is a possible step, and its end shows the placement after it. -/
theorem Shows.step_of_replay {index : Nat} {lanes : List Lane} {lifted : List (Qubit × Location)}
    (hs : g.device.SingleSource) (h : Shows positions p)
    (hc : lanes.Pairwise (fun a b => g.device.compatible a b = true))
    (hlift : lift g.device index positions lanes = .ok (lifted, left))
    (hdrop : drop p.occupied index left lifted = .ok positions') :
    ∃ hops, lanes = hops.map (·.lane) ∧ ParallelStep g p hops ∧ Shows positions' (p.hopAll hops) := by
  obtain ⟨hops, rfl, rfl, hends, hat, hsources, rfl⟩ := hops_of_lift h.keys hlift
  obtain ⟨havoids, hnodup⟩ := free_of_drop (h.keys.sublist (List.filter_sublist.map _)) hdrop
  simp only [List.map_map, Function.comp_def] at hnodup
  obtain ⟨hfinal, _, hapart⟩ := List.nodup_append'.mp hnodup
  have hdeparts : ∀ h' ∈ hops, p.layout[h'.qubit]? = some h'.src := fun h' hh =>
    (h.mem_iff _ _).mp (hat h' hh)
  have hqubits : (hops.map (·.qubit)).Nodup := by
    refine List.Nodup.map_on ?_ hsources.of_map
    intro x hx y hy heq
    refine List.inj_on_of_nodup_map hsources hx hy ?_
    exact Option.some.inj ((hdeparts x hx).symm.trans (heq ▸ hdeparts y hy))
  have hmoved : ∀ h' ∈ hops, (p.hopAll hops).layout[h'.qubit]? = some h'.dst := by
    intro h' hh
    exact (Placement.hopAll_of_mem hqubits hh (List.getElem?_eq_some_iff.mp (hdeparts h' hh)).1).1
  have hstays : ∀ {q l}, q ∉ hops.map (·.qubit) → p.layout[q]? = some l → l ∉ hops.map (·.dst) := by
    intro q l hq hl hin
    refine hapart hin (List.mem_map.mpr ⟨(l, q), List.mem_filter.mpr ⟨(h.mem_iff l q).mpr hl, ?_⟩, rfl⟩)
    rw [decide_eq_true_eq]
    intro hsrc
    obtain ⟨h', hh, heq⟩ := List.mem_map.mp hsrc
    have hsame := List.inj_on_of_nodup_map h.keys ((h.mem_iff l q).mpr hl) (hat h' hh) heq.symm
    have hqubit : q = h'.qubit := congrArg Prod.snd hsame
    exact hq (hqubit ▸ List.mem_map_of_mem hh)
  have hlands : (p.hopAll hops).layout.Nodup := by
    rw [List.nodup_iff_getElem?_ne_getElem?]
    intro q r hqr hr heq
    obtain ⟨l, hl⟩ : ∃ l, (p.hopAll hops).layout[r]? = some l :=
      ⟨_, List.getElem?_eq_getElem hr⟩
    rw [hl] at heq
    refine Nat.ne_of_lt hqr ?_
    by_cases hq : q ∈ hops.map (·.qubit)
    · obtain ⟨x, hx, rfl⟩ := List.mem_map.mp hq
      rw [hmoved x hx] at heq
      by_cases hr' : r ∈ hops.map (·.qubit)
      · obtain ⟨y, hy, rfl⟩ := List.mem_map.mp hr'
        rw [hmoved y hy, ← heq] at hl
        rw [List.inj_on_of_nodup_map hfinal hx hy (Option.some.inj hl).symm]
      · rw [(Placement.hopAll_of_notMem hr').1, ← heq] at hl
        exact absurd (List.mem_map_of_mem hx) (hstays hr' hl)
    · rw [(Placement.hopAll_of_notMem hq).1] at heq
      by_cases hr' : r ∈ hops.map (·.qubit)
      · obtain ⟨y, hy, rfl⟩ := List.mem_map.mp hr'
        rw [hmoved y hy] at hl
        cases hl
        exact absurd (List.mem_map_of_mem hy) (hstays hq heq)
      · rw [(Placement.hopAll_of_notMem hr').1] at hl
        exact congrArg Prod.snd (List.inj_on_of_nodup_map h.keys ((h.mem_iff _ _).mpr heq)
          ((h.mem_iff _ _).mpr hl) rfl)
  have hstep : ParallelStep g p hops := by
    refine ⟨?_, hqubits, hdeparts, hlands, ?_, hc⟩
    · intro h' hh
      rw [g.edges_eq]
      exact Device.mem_edges_of_endpoints (hends h' hh)
    · intro h' hh
      exact havoids _ (List.mem_map_of_mem (f := fun h : Hop => (h.qubit, h.dst)) hh)
  obtain ⟨_, _, hlift', hdrop', hshows⟩ := h.step hs hstep index
  cases hlift.symm.trans hlift'
  cases hdrop.symm.trans hdrop'
  exact ⟨hops, rfl, hstep, hshows⟩

/-- A replay that succeeds is a run, and it shows the placement at its end. -/
theorem Shows.run_of_replayFrom {index : Nat} {layers : List MoveLayer} (hs : g.device.SingleSource)
    (h : Shows positions p)
    (hc : ∀ l ∈ layers, l.lanes.Pairwise (fun a b => g.device.compatible a b = true))
    (hreplay : MoveLayer.replayFrom g.device p.occupied index positions layers = .ok positions') :
    ∃ p', Run g p layers p' ∧ Shows positions' p' := by
  induction layers generalizing p positions index with
  | nil =>
    cases hreplay
    exact ⟨p, rfl, h⟩
  | cons layer layers ih =>
    rw [List.forall_mem_cons] at hc
    obtain ⟨⟨lifted, left⟩, hlift, hreplay⟩ := bind_eq_ok.mp hreplay
    obtain ⟨mid, hdrop, hreplay⟩ := bind_eq_ok.mp hreplay
    obtain ⟨hops, hlanes, hstep, hmid⟩ := h.step_of_replay hs hc.1 hlift hdrop
    rw [← Placement.hopAll_occupied hops] at hreplay
    obtain ⟨p', hrun, hshows⟩ := ih hmid hc.2 hreplay
    exact ⟨p', ⟨hops, hlanes, hstep, hrun⟩, hshows⟩

theorem Shows.layout_of_checkReached (h : Shows positions p) {qubits : List (Qubit × Location)}
    (hq : ∀ e ∈ qubits, e.1 < p.layout.length)
    (hreached : MoveLayer.checkReached positions qubits = .ok ()) :
    ∀ e ∈ qubits, p.layout[e.1]? = some e.2 := by
  induction qubits with
  | nil => simp
  | cons e qubits ih =>
    obtain ⟨q, expected⟩ := e
    rw [List.forall_mem_cons] at hq ⊢
    obtain ⟨l, hl⟩ : ∃ l, p.layout[q]? = some l := ⟨_, List.getElem?_eq_getElem hq.1⟩
    have hat := (h.mem_iff l q).mpr hl
    simp only [MoveLayer.checkReached] at hreached
    split at hreached
    next actual q' hfind =>
      split_ifs at hreached with heq
      have hqubit : q' = q := by simpa using List.find?_some hfind
      have hlayout := (h.mem_iff actual q').mp (List.mem_of_find?_eq_some hfind)
      rw [hqubit, heq] at hlayout
      exact ⟨hlayout, ih hq.2 hreached⟩
    next hfind =>
      have hnone := List.find?_eq_none.mp hfind _ hat
      simp at hnone

/-- Layers that pass the replay run from the first placement to one with the layout of the second. The
replay does not look at the moves that the placements count. -/
theorem run_of_replay {before after : Placement} {layers : List MoveLayer} (hs : g.device.SingleSource)
    (hn : before.layout.Nodup) (hlength : before.layout.length = after.layout.length)
    (hc : ∀ l ∈ layers, l.lanes.Pairwise (fun a b => g.device.compatible a b = true))
    (hreplay : replay g.device before after layers = .ok ()) (moves : List UInt32) :
    ∃ last, Run g { before with moves := moves } layers last ∧ last.layout = after.layout := by
  obtain ⟨positions, hfrom, hreached⟩ := bind_eq_ok.mp hreplay
  have hstart : Shows (Ascending.ofPairs (before.qubits.map Prod.swap)) { before with moves := moves } :=
    shows_ofPairs (p := { before with moves := moves }) hn
  obtain ⟨last, hrun, hshows⟩ := hstart.run_of_replayFrom hs hc hfrom
  refine ⟨last, hrun, ?_⟩
  have hsize : last.layout.length = after.layout.length := hrun.length_layout.trans hlength
  have hqubits : ∀ q l, (q, l) ∈ after.qubits ↔ after.layout[q]? = some l := by
    intro q l
    simp [Placement.qubits, List.mem_zipIdx_iff_getElem?]
  have hbound : ∀ e ∈ after.qubits, e.1 < last.layout.length := by
    intro e he
    rw [hsize]
    exact (List.getElem?_eq_some_iff.mp ((hqubits e.1 e.2).mp he)).1
  have hreaches := hshows.layout_of_checkReached hbound hreached
  refine List.ext_getElem? fun q => ?_
  cases hq : after.layout[q]? with
  | none =>
    rw [List.getElem?_eq_none_iff] at hq ⊢
    omega
  | some l => exact hreaches (q, l) ((hqubits q l).mpr hq)

theorem insert_ne_nil {d : Device} {lane : Lane} {layers : List MoveLayer}
    (h : ∀ l ∈ layers, l.lanes ≠ []) : ∀ l ∈ insert d lane layers, l.lanes ≠ [] := by
  induction layers with
  | nil => simp [insert]
  | cons layer layers ih =>
    rw [List.forall_mem_cons] at h
    simp only [insert]
    split_ifs
    · exact List.forall_mem_cons.mpr ⟨by simp, h.2⟩
    · exact List.forall_mem_cons.mpr ⟨h.1, ih h.2⟩

theorem split_ne_nil {d : Device} (lanes : List Lane) : ∀ l ∈ split d lanes, l.lanes ≠ [] :=
  List.foldlRecOn (motive := fun layers : List MoveLayer => ∀ l ∈ layers, l.lanes ≠ []) lanes _
    (by simp) fun _ h _ _ => insert_ne_nil h

/-- Every layer of some stages holds a lane, only lanes that exist, and only lanes that can run
together. -/
theorem ofStages_spec {d : Device} (hd : ∀ a b, d.compatible a b = d.compatible b a)
    {stages : List (List Segment)} {layers : List MoveLayer} (h : ofStages d stages = .ok layers) :
    ∀ l ∈ layers, l.lanes ≠ [] ∧ (∀ lane ∈ l.lanes, d.checkLane lane = .ok ()) ∧
      l.lanes.Pairwise (fun a b => d.compatible a b = true) := by
  obtain ⟨hlanes, rfl⟩ := layers_of_ofStages h
  intro l hl
  obtain ⟨stage, hstage, hl⟩ := List.mem_flatMap.mp hl
  obtain ⟨hperm, hpairwise⟩ := layersOf_spec hd stage
  refine ⟨?_, ?_, hpairwise l hl⟩
  · obtain ⟨s, _, hl⟩ := List.mem_flatMap.mp hl
    exact split_ne_nil _ l hl
  · intro lane hlane
    have hmem := hperm.mem_iff.mp (List.mem_flatMap.mpr ⟨l, hl, hlane⟩)
    obtain ⟨s, hs, rfl⟩ := List.mem_map.mp hmem
    exact hlanes stage hstage s hs

end MoveLayer

namespace Atoms

variable {g : LaneGraph}

/-- Layers move atoms step after step. An atom that a step moves is not put on an occupied site. -/
def Performs (g : LaneGraph) (occupied : List Location) : Atoms → List MoveLayer → Atoms → Prop
  | a, [], last => a = last
  | a, layer :: rest, last => ∃ next, a.move g layer.lanes = .ok next ∧
      (∀ x ∈ next.list, x ∈ a.list ∨ x.location ∉ occupied) ∧ Performs g occupied next rest last

theorem mem_list_of_move {a next : Atoms} {p : Placement} {hops : List Hop}
    (hs : g.device.SingleSource) (h : a.Realizes p) (hstep : ParallelStep g p hops)
    (hmove : a.move g (hops.map (·.lane)) = .ok next) :
    ∀ x ∈ next.list, x ∈ a.list ∨ x.location ∉ p.occupied := by
  obtain ⟨hops', hhops, _, hlist⟩ := move_eq_ok hmove
  cases (hops_eq_ok hs h hstep).symm.trans hhops
  rw [hlist]
  intro x hx
  obtain ⟨y, hy, rfl⟩ := List.mem_map.mp hx
  unfold AtomMaps.relocate
  split
  next hop hfind => exact Or.inr (hstep.avoids hop (List.mem_of_find?_eq_some hfind))
  · exact Or.inl hy

/-- The atoms of the first placement of a run perform its layers and realise its last placement. -/
theorem Realizes.performs {a : Atoms} {p last : Placement} {layers : List MoveLayer}
    (hs : g.device.SingleSource) (h : a.Realizes p) (hrun : Run g p layers last) :
    ∃ a', a.Performs g p.occupied layers a' ∧ a'.Realizes last := by
  induction layers generalizing a p with
  | nil =>
    obtain rfl : p = last := hrun
    exact ⟨a, rfl, h⟩
  | cons layer layers ih =>
    obtain ⟨hops, hlanes, hstep, hrun⟩ := hrun
    obtain ⟨next, hmove, hnext⟩ := h.move hs hstep
    obtain ⟨a', hperforms, ha'⟩ := ih hnext hrun
    rw [Placement.hopAll_occupied] at hperforms
    refine ⟨a', ⟨next, ?_, mem_list_of_move hs h hstep hmove, hperforms⟩, ha'⟩
    rw [hlanes]
    exact hmove

end Atoms

namespace MoveLayer

variable {g : LaneGraph} {h : Heuristic} {hints : List (Qubit × Path)} {before after : Placement}
  {layers : List MoveLayer} {b : Blueprint}

/-- Move layers never do harm, whatever paths were suggested: every layer holds lanes that exist and can
run together, and the atoms of the first placement perform the layers one after another, without being
put on occupied sites, until each is where the second placement has it. -/
theorem along_performs (hb : Device.ofBlueprint b = .ok g.device) (hs : g.device.SingleSource)
    (hn : before.layout.Nodup) (hok : along g h hints before after = .ok layers) :
    (∀ l ∈ layers, l.lanes ≠ [] ∧ (∀ lane ∈ l.lanes, g.device.checkLane lane = .ok ()) ∧
      l.lanes.Pairwise fun x y => g.device.compatible x y = true ∧ g.device.compatible y x = true) ∧
    ∃ start last, Atoms.fill {} before.layout = .ok start ∧
      (∀ q, start.locationOf? q = before.layout[q]?) ∧
      start.Performs g before.occupied layers last ∧ ∀ q, last.locationOf? q = after.layout[q]? := by
  unfold along at hok
  split_ifs at hok with hsize
  obtain ⟨movers, _, hok⟩ := bind_eq_ok.mp hok
  obtain ⟨routes, _, hok⟩ := bind_eq_ok.mp hok
  obtain ⟨_, _, hok⟩ := bind_eq_ok.mp hok
  obtain ⟨layers', hstages, hok⟩ := bind_eq_ok.mp hok
  obtain ⟨⟨⟩, hreplay, hok⟩ := bind_eq_ok.mp hok
  cases hok
  have hd := Device.compatible_comm hb
  have hlayers := ofStages_spec hd hstages
  refine ⟨?_, ?_⟩
  · intro l hl
    obtain ⟨hne, hcheck, hpairwise⟩ := hlayers l hl
    refine ⟨hne, hcheck, hpairwise.imp ?_⟩
    intro x y hxy
    exact ⟨hxy, hd x y ▸ hxy⟩
  · have hlength : before.layout.length = after.layout.length := not_not.mp hsize
    obtain ⟨last, hrun, hlast⟩ := run_of_replay hs hn hlength (fun l hl => (hlayers l hl).2.2) hreplay
      (List.replicate before.layout.length 0)
    obtain ⟨start, hfill, hstart⟩ := Atoms.realizes_fill hn before.occupied
    obtain ⟨a, hperforms, ha⟩ := hstart.performs hs hrun
    refine ⟨start, a, hfill, hstart.locationOf?, hperforms, ?_⟩
    intro q
    rw [ha.locationOf?, hlast]

def overlapping : List (Qubit × Path) :=
  [(0, ⟨⟨0, 0⟩, [⟨⟨.site, 0, 0, 0, .forward⟩, ⟨7, 7⟩, ⟨0, 2⟩⟩]⟩),
    (1, ⟨⟨0, 3⟩, [⟨⟨.site, 0, 0, 1, .backward⟩, ⟨0, 3⟩, ⟨0, 0⟩⟩]⟩)]

/-- Qubit 1 takes the site that qubit 0 leaves one layer before. -/
theorem along_performs_overlapping :
    along Compiler.forSmallGrid.graph .busReuse overlapping ⟨[⟨1, 3⟩], [⟨0, 0⟩, ⟨0, 3⟩], [0, 0]⟩
        ⟨[], [⟨0, 2⟩, ⟨0, 0⟩], [1, 1]⟩ =
      .ok [⟨[⟨.site, 0, 0, 0, .forward⟩]⟩, ⟨[⟨.site, 0, 0, 1, .backward⟩]⟩] ∧
    ∃ start last, Atoms.fill {} [⟨0, 0⟩, ⟨0, 3⟩] = .ok start ∧
      start.Performs Compiler.forSmallGrid.graph [⟨1, 3⟩]
        [⟨[⟨.site, 0, 0, 0, .forward⟩]⟩, ⟨[⟨.site, 0, 0, 1, .backward⟩]⟩] last ∧
      last.locationOf? 0 = some ⟨0, 2⟩ ∧ last.locationOf? 1 = some ⟨0, 0⟩ := by
  have hok : along Compiler.forSmallGrid.graph .busReuse overlapping
      ⟨[⟨1, 3⟩], [⟨0, 0⟩, ⟨0, 3⟩], [0, 0]⟩ ⟨[], [⟨0, 2⟩, ⟨0, 0⟩], [1, 1]⟩ =
      .ok [⟨[⟨.site, 0, 0, 0, .forward⟩]⟩, ⟨[⟨.site, 0, 0, 1, .backward⟩]⟩] := by rfl
  obtain ⟨_, start, last, hfill, _, hperforms, hlast⟩ := along_performs
    Compiler.ofBlueprint_smallGrid Compiler.singleSource_smallGrid (by decide) hok
  exact ⟨hok, start, last, hfill, hperforms, hlast 0, hlast 1⟩

end MoveLayer

end AtomTransport
