import AtomTransport.Proofs.ParallelStep
import AtomTransport.Proofs.Walk
import Mathlib.Data.List.Pairwise

/-!
# Transitions without collisions

A transition between two placements gives every moving atom a walk. No location is entered twice, by
one atom or by two, and none is entered that was held at the beginning. Such walks can be advanced in
any interleaving: taking the first edge of some of them is a set of fresh hops, and what remains is a
transition from the new placement.
-/

namespace AtomTransport

theorem length_eq_of_getElem? {α : Type} {xs ys : List α}
    (h : ∀ i : Nat, xs[i]? = none ↔ ys[i]? = none) : xs.length = ys.length := by
  simp only [List.getElem?_eq_none_iff] at h
  exact Nat.le_antisymm ((h _).mpr (Nat.le_refl _)) ((h _).mp (Nat.le_refl _))

def entered (legs : List (Qubit × List Segment)) : List Location :=
  legs.flatMap fun leg => leg.2.map (·.dst)

/-- The walks that lead from one placement to another without meeting each other or a resting atom. -/
structure Transition (g : LaneGraph) (before after : Placement)
    (legs : List (Qubit × List Segment)) : Prop where
  keys : (legs.map (·.1)).Nodup
  walks : ∀ leg ∈ legs, ∃ src dst, before.layout[leg.1]? = some src ∧
    after.layout[leg.1]? = some dst ∧ Walk g.edges src leg.2 dst
  counts : ∀ leg ∈ legs, ∃ n, before.moves[leg.1]? = some n ∧
    after.moves[leg.1]? = some (n + .ofNat leg.2.length)
  stays : ∀ q, q ∉ legs.map (·.1) →
    after.layout[q]? = before.layout[q]? ∧ after.moves[q]? = before.moves[q]?
  occupied_eq : after.occupied = before.occupied
  once : (entered legs).Nodup
  free : ∀ l ∈ entered legs, l ∉ before.layout ∧ l ∉ before.occupied

namespace Transition

variable {g : LaneGraph} {before after : Placement} {legs : List (Qubit × List Segment)}

theorem refl (p : Placement) : Transition g p p [] where
  keys := List.nodup_nil
  walks := by simp
  counts := by simp
  stays _ _ := ⟨rfl, rfl⟩
  occupied_eq := rfl
  once := List.nodup_nil
  free := by simp [entered]

theorem perm {legs' : List (Qubit × List Segment)} (h : Transition g before after legs)
    (hp : legs.Perm legs') : Transition g before after legs' := by
  have hkeys := hp.map (·.1)
  have hentered : (entered legs).Perm (entered legs') := hp.flatMap_right _
  refine ⟨hkeys.nodup_iff.mp h.keys, fun leg hl => h.walks leg (hp.mem_iff.mpr hl),
    fun leg hl => h.counts leg (hp.mem_iff.mpr hl), ?_, h.occupied_eq,
    hentered.nodup_iff.mp h.once, fun l hl => h.free l (hentered.mem_iff.mpr hl)⟩
  intro q hq
  exact h.stays q (fun hin => hq (hkeys.mem_iff.mp hin))

theorem length_layout (h : Transition g before after legs) :
    after.layout.length = before.layout.length := by
  refine length_eq_of_getElem? fun q => ?_
  by_cases hq : q ∈ legs.map (·.1)
  · obtain ⟨leg, hleg, rfl⟩ := List.mem_map.mp hq
    obtain ⟨src, dst, hsrc, hdst, _⟩ := h.walks leg hleg
    simp [hsrc, hdst]
  · rw [(h.stays q hq).1]

theorem length_moves (h : Transition g before after legs) :
    after.moves.length = before.moves.length := by
  refine length_eq_of_getElem? fun q => ?_
  by_cases hq : q ∈ legs.map (·.1)
  · obtain ⟨leg, hleg, rfl⟩ := List.mem_map.mp hq
    obtain ⟨n, hn, hn'⟩ := h.counts leg hleg
    simp [hn, hn']
  · rw [(h.stays q hq).2]

/-- An atom is where it was, or at a location that its own walk has entered. -/
theorem arrives (h : Transition g before after legs) {q : Qubit} {l : Location}
    (hl : after.layout[q]? = some l) :
    before.layout[q]? = some l ∨ ∃ w, (q, w) ∈ legs ∧ l ∈ w.map (·.dst) := by
  by_cases hq : q ∈ legs.map (·.1)
  · obtain ⟨⟨q, w⟩, hleg, rfl⟩ := List.mem_map.mp hq
    obtain ⟨src, dst, hsrc, hdst, hwalk⟩ := h.walks _ hleg
    obtain rfl : dst = l := Option.some.inj (hdst.symm.trans hl)
    by_cases hw : w = []
    · subst hw
      obtain rfl : src = dst := hwalk
      exact Or.inl hsrc
    · obtain ⟨s, hs, hend⟩ := hwalk.end_mem hw
      exact Or.inr ⟨w, hleg, List.mem_map.mpr ⟨s, hs, hend⟩⟩
  · exact Or.inl ((h.stays q hq).1 ▸ hl)

theorem walks_disjoint (h : Transition g before after legs) {q r : Qubit} {v w : List Segment}
    (hq : (q, v) ∈ legs) (hr : (r, w) ∈ legs) (hne : q ≠ r) :
    (v.map (·.dst)).Disjoint (w.map (·.dst)) := by
  have hpairwise := (List.nodup_flatMap.mp h.once).2
  have hsymm : Std.Symm (Function.onFun List.Disjoint fun leg : Qubit × List Segment =>
      leg.2.map (·.dst)) := ⟨fun _ _ hd _ hl hl' => hd hl' hl⟩
  exact hpairwise.forall hq hr fun heq => hne (congrArg Prod.fst heq)

/-- A transition keeps a placement sound: atoms that have moved stand where nobody was and nobody else
has gone. -/
theorem sound (h : Transition g before after legs) (hbefore : before.Sound g.device) :
    after.Sound g.device where
  exist l hl := by
    obtain ⟨q, hq⟩ := List.mem_iff_getElem?.mp hl
    rcases h.arrives hq with hstay | ⟨w, hleg, hin⟩
    · exact hbefore.exist l (List.mem_of_getElem? hstay)
    · obtain ⟨_, _, _, _, hwalk⟩ := h.walks _ hleg
      obtain ⟨s, hs, rfl⟩ := List.mem_map.mp hin
      exact (Device.hasLocation_of_mem_edges (g.edges_eq ▸ hwalk.mem hs)).2
  nodup := by
    rw [List.nodup_iff_getElem?_ne_getElem?]
    intro q r hqr hr heq
    have hr' := List.getElem?_eq_getElem hr
    rcases h.arrives (heq.trans hr') with hq | ⟨v, hv, hqv⟩ <;>
      rcases h.arrives hr' with hr' | ⟨w, hw, hrw⟩
    · have hlt := (List.getElem?_eq_some_iff.mp hq).1
      exact Nat.ne_of_lt hqr ((List.getElem?_inj hlt hbefore.nodup).mp (hq.trans hr'.symm))
    · exact (h.free _ (List.mem_flatMap.mpr ⟨_, hw, hrw⟩)).1 (List.mem_of_getElem? hq)
    · exact (h.free _ (List.mem_flatMap.mpr ⟨_, hv, hqv⟩)).1 (List.mem_of_getElem? hr')
    · exact h.walks_disjoint hv hw (Nat.ne_of_lt hqr) hqv hrw
  free l hl := by
    obtain ⟨q, hq⟩ := List.mem_iff_getElem?.mp hl
    rw [h.occupied_eq]
    rcases h.arrives hq with hstay | ⟨w, hleg, hin⟩
    · exact hbefore.free l (List.mem_of_getElem? hstay)
    · exact (h.free l (List.mem_flatMap.mpr ⟨_, hleg, hin⟩)).2
  length_moves := by rw [h.length_moves, h.length_layout, hbefore.length_moves]

theorem eq_of_done (h : Transition g before after legs) (hdone : ∀ leg ∈ legs, leg.2 = []) :
    before = after := by
  have hpoint : ∀ q : Qubit, before.layout[q]? = after.layout[q]? ∧
      before.moves[q]? = after.moves[q]? := by
    intro q
    by_cases hq : q ∈ legs.map (·.1)
    · obtain ⟨leg, hleg, rfl⟩ := List.mem_map.mp hq
      obtain ⟨src, dst, hsrc, hdst, hwalk⟩ := h.walks leg hleg
      obtain ⟨n, hn, hn'⟩ := h.counts leg hleg
      rw [hdone leg hleg] at hwalk hn'
      obtain rfl : src = dst := hwalk
      change _ = some (n + 0) at hn'
      rw [UInt32.add_zero] at hn'
      exact ⟨hsrc.trans hdst.symm, hn.trans hn'.symm⟩
    · obtain ⟨hlayout, hmoves⟩ := h.stays q hq
      exact ⟨hlayout.symm, hmoves.symm⟩
  have hlayout : before.layout = after.layout := List.ext_getElem? fun q => (hpoint q).1
  have hmoves : before.moves = after.moves := List.ext_getElem? fun q => (hpoint q).2
  have hoccupied : before.occupied = after.occupied := h.occupied_eq.symm
  cases before
  cases after
  exact Placement.mk.injEq .. ▸ ⟨hoccupied, hlayout, hmoves⟩

/-- One more atom joins a transition along a walk that enters new locations only. -/
theorem cons (h : Transition g before after legs) {q : Qubit} {w : List Segment} {src dst : Location}
    (hq : q ∉ legs.map (·.1)) (hsrc : before.layout[q]? = some src) (hw : Walk g.edges src w dst)
    (hmoves : before.moves.length = before.layout.length) (hn : (w.map (·.dst)).Nodup)
    (hfree : ∀ l ∈ w.map (·.dst), l ∉ before.layout ∧ l ∉ before.occupied ∧ l ∉ entered legs) :
    Transition g before (after.relocate q dst w.length) ((q, w) :: legs) := by
  have hstay := h.stays q hq
  have hlt : q < after.layout.length := by
    rw [hsrc] at hstay
    exact (List.getElem?_eq_some_iff.mp hstay.1).1
  have hmove : ∃ n, before.moves[q]? = some n := by
    have hq' : q < before.moves.length := by
      rw [hmoves]
      exact (List.getElem?_eq_some_iff.mp hsrc).1
    exact ⟨_, List.getElem?_eq_getElem hq'⟩
  have hat := fun r => Placement.getElem?_relocate (p := after) q r dst w.length
  have hother : ∀ leg ∈ legs, q ≠ leg.1 := by
    intro leg hleg heq
    exact hq (heq ▸ List.mem_map_of_mem (f := (·.1)) hleg)
  refine ⟨List.nodup_cons.mpr ⟨hq, h.keys⟩, ?_, ?_, ?_, h.occupied_eq, ?_, ?_⟩
  · intro leg hleg
    rcases List.mem_cons.mp hleg with rfl | hleg
    · exact ⟨src, dst, hsrc, by rw [(hat q).1, if_pos rfl, if_pos hlt], hw⟩
    · rw [(hat leg.1).1, if_neg (hother leg hleg)]
      exact h.walks leg hleg
  · intro leg hleg
    rcases List.mem_cons.mp hleg with rfl | hleg
    · obtain ⟨n, hn⟩ := hmove
      exact ⟨n, hn, by rw [(hat q).2, if_pos rfl, hstay.2, hn]; rfl⟩
    · rw [(hat leg.1).2, if_neg (hother leg hleg)]
      exact h.counts leg hleg
  · intro r hr
    rw [List.map_cons, List.mem_cons, not_or] at hr
    rw [(hat r).1, (hat r).2, if_neg (Ne.symm hr.1), if_neg (Ne.symm hr.1)]
    exact h.stays r hr.2
  · change (w.map (·.dst) ++ entered legs).Nodup
    exact List.nodup_append'.mpr ⟨hn, h.once, fun l hl hl' => (hfree l hl).2.2 hl'⟩
  · intro l hl
    change l ∈ w.map (·.dst) ++ entered legs at hl
    rcases List.mem_append.mp hl with hl | hl
    · exact ⟨(hfree l hl).1, (hfree l hl).2.1⟩
    · exact h.free l hl

section Advance

variable {ι : Type} (key : ι → Qubit) (now later : ι → List Segment)

def heads (items : List ι) : List Hop :=
  items.filterMap fun i => (now i).head?.map fun s => ⟨s.lane, key i, s.src, s.dst⟩

variable {key now later}

theorem mem_heads {items : List ι} {h : Hop} : h ∈ heads key now items ↔
    ∃ i ∈ items, ∃ s rest, now i = s :: rest ∧ h = ⟨s.lane, key i, s.src, s.dst⟩ := by
  simp only [heads, List.mem_filterMap, Option.map_eq_some_iff, List.head?_eq_some_iff]
  constructor
  · rintro ⟨i, hi, s, ⟨rest, hrest⟩, rfl⟩
    exact ⟨i, hi, s, rest, hrest, rfl⟩
  · rintro ⟨i, hi, s, rest, hrest, rfl⟩
    exact ⟨i, hi, s, ⟨rest, hrest⟩, rfl⟩

theorem qubits_heads_sublist (key : ι → Qubit) (now : ι → List Segment) (items : List ι) :
    ((heads key now items).map (·.qubit)).Sublist (items.map key) := by
  induction items with
  | nil => exact List.Sublist.refl _
  | cons i items ih =>
    cases hi : now i with
    | nil =>
      have hheads : heads key now (i :: items) = heads key now items := by simp [heads, hi]
      rw [hheads]
      exact ih.cons (key i)
    | cons s rest =>
      have hheads : heads key now (i :: items) =
          ⟨s.lane, key i, s.src, s.dst⟩ :: heads key now items := by simp [heads, hi]
      rw [hheads]
      exact ih.cons_cons (key i)

theorem entered_perm_heads (key : ι → Qubit) (now later : ι → List Segment) (items : List ι) :
    (entered (items.map fun i => (key i, now i ++ later i))).Perm
      ((heads key now items).map (·.dst) ++
        entered (items.map fun i => (key i, (now i).tail ++ later i))) := by
  induction items with
  | nil => exact List.Perm.refl _
  | cons i items ih =>
    simp only [entered, List.map_cons, List.flatMap_cons] at ih ⊢
    cases hi : now i with
    | nil =>
      have hheads : heads key now (i :: items) = heads key now items := by simp [heads, hi]
      rw [hheads, List.nil_append, List.tail_nil, List.nil_append]
      refine (ih.append_left _).trans ?_
      rw [← List.append_assoc, ← List.append_assoc]
      exact List.perm_append_comm.append_right _
    | cons s rest =>
      have hheads : heads key now (i :: items) =
          ⟨s.lane, key i, s.src, s.dst⟩ :: heads key now items := by simp [heads, hi]
      rw [hheads, List.tail_cons, List.cons_append, List.map_cons, List.map_cons, List.cons_append,
        List.cons_append]
      refine ((ih.append_left _).trans ?_).cons _
      rw [← List.append_assoc, ← List.append_assoc]
      exact List.perm_append_comm.append_right _

theorem freshHops_heads {items : List ι}
    (h : Transition g before after (items.map fun i => (key i, now i ++ later i))) :
    FreshHops g before (heads key now items) := by
  have hperm := entered_perm_heads key now later items
  have honce := hperm.nodup_iff.mp h.once
  have hkeys := h.keys
  rw [List.map_map] at hkeys
  refine ⟨?_, hkeys.sublist (qubits_heads_sublist key now items), ?_, ?_,
    (List.nodup_append'.mp honce).1⟩
  · intro hop hhop
    obtain ⟨i, hi, s, rest, hnow, rfl⟩ := mem_heads.mp hhop
    obtain ⟨src, dst, _, _, hwalk⟩ := h.walks _ (List.mem_map_of_mem hi)
    rw [hnow] at hwalk
    exact hwalk.1
  · intro hop hhop
    obtain ⟨i, hi, s, rest, hnow, rfl⟩ := mem_heads.mp hhop
    obtain ⟨src, dst, hsrc, _, hwalk⟩ := h.walks _ (List.mem_map_of_mem hi)
    rw [hnow] at hwalk
    exact hwalk.2.1 ▸ hsrc
  · intro hop hhop
    exact h.free hop.dst (hperm.mem_iff.mpr
      (List.mem_append_left _ (List.mem_map_of_mem (f := (·.dst)) hhop)))

theorem key_notMem_heads {items : List ι} (hkeys : (items.map key).Nodup) {i : ι} (hi : i ∈ items)
    (hnow : now i = []) : key i ∉ (heads key now items).map (·.qubit) := by
  intro hin
  obtain ⟨hop, hhop, hkey⟩ := List.mem_map.mp hin
  obtain ⟨j, hj, s, rest, hnowj, rfl⟩ := mem_heads.mp hhop
  obtain rfl : j = i := List.inj_on_of_nodup_map hkeys hj hi hkey
  rw [hnow] at hnowj
  cases hnowj

/-- Making the first hops of some walks leaves a transition along what remains of them. -/
theorem advance {items : List ι}
    (h : Transition g before after (items.map fun i => (key i, now i ++ later i))) :
    Transition g (before.hopAll (heads key now items)) after
      (items.map fun i => (key i, (now i).tail ++ later i)) := by
  have hfresh := h.freshHops_heads
  have hperm := entered_perm_heads key now later items
  have honce := List.nodup_append'.mp (hperm.nodup_iff.mp h.once)
  have hkeys : (items.map key).Nodup := by simpa [List.map_map, Function.comp_def] using h.keys
  have hhead : ∀ i ∈ items, ∀ s rest, now i = s :: rest →
      (⟨s.lane, key i, s.src, s.dst⟩ : Hop) ∈ heads key now items :=
    fun i hi s rest hnow => mem_heads.mpr ⟨i, hi, s, rest, hnow, rfl⟩
  refine ⟨by simpa [List.map_map, Function.comp_def] using hkeys, ?_, ?_, ?_, ?_, honce.2.1, ?_⟩
  · intro leg hleg
    obtain ⟨i, hi, rfl⟩ := List.mem_map.mp hleg
    obtain ⟨src, dst, hsrc, hdst, hwalk⟩ := h.walks _ (List.mem_map_of_mem hi)
    cases hnow : now i with
    | nil =>
      simp only [hnow] at hwalk
      have hstays := Placement.hopAll_of_notMem (p := before) (key_notMem_heads hkeys hi hnow)
      exact ⟨src, dst, hstays.1.trans hsrc, hdst, hwalk⟩
    | cons s rest =>
      simp only [hnow, List.cons_append] at hwalk
      have hlt := (List.getElem?_eq_some_iff.mp hsrc).1
      have hhop := Placement.hopAll_of_mem hfresh.qubits (hhead i hi s rest hnow) hlt
      exact ⟨s.dst, dst, hhop.1, hdst, hwalk.2.2⟩
  · intro leg hleg
    obtain ⟨i, hi, rfl⟩ := List.mem_map.mp hleg
    obtain ⟨src, _, hsrc, _, _⟩ := h.walks _ (List.mem_map_of_mem hi)
    obtain ⟨n, hn, hn'⟩ := h.counts _ (List.mem_map_of_mem hi)
    cases hnow : now i with
    | nil =>
      simp only [hnow] at hn'
      have hstays := Placement.hopAll_of_notMem (p := before) (key_notMem_heads hkeys hi hnow)
      exact ⟨n, hstays.2.trans hn, hn'⟩
    | cons s rest =>
      simp only [hnow, List.cons_append, List.length_cons] at hn'
      have hlt := (List.getElem?_eq_some_iff.mp hsrc).1
      have hhop := Placement.hopAll_of_mem hfresh.qubits (hhead i hi s rest hnow) hlt
      refine ⟨n + 1, by rw [hhop.2, hn]; rfl, ?_⟩
      rw [hn', UInt32.ofNat_add, UInt32.add_comm (.ofNat _), ← UInt32.add_assoc]
      rfl
  · intro q hq
    have hq' : q ∉ items.map key := by simpa [List.map_map, Function.comp_def] using hq
    have hout := fun hin => hq' ((qubits_heads_sublist key now items).subset hin)
    obtain ⟨hlayout, hmoves⟩ := Placement.hopAll_of_notMem (p := before) hout
    rw [hlayout, hmoves]
    exact h.stays q (by simpa [List.map_map, Function.comp_def] using hq')
  · rw [Placement.hopAll_occupied]
    exact h.occupied_eq
  · intro l hl
    obtain ⟨hlayout, hoccupied⟩ := h.free l (hperm.mem_iff.mpr (List.mem_append_right _ hl))
    rw [Placement.hopAll_occupied]
    refine ⟨?_, hoccupied⟩
    intro hin
    rcases Placement.mem_layout_hopAll hin with hin | hin
    · exact hlayout hin
    · exact honce.2.2 hin hl

end Advance

end Transition

end AtomTransport
