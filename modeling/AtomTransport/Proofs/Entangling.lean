import AtomTransport.Proofs.Agreement
import AtomTransport.Proofs.Pairing

/-!
# What a layer of CZ gates entangles

An entangling statement acts on every interacting pair of its zone, whichever qubits the gate layer
names. It entangles only the pairs of the layer exactly when no two other qubits sit on interacting
sites of the zone, and placement does not see to that.
-/

namespace AtomTransport

/-- Two qubits that are not named sit on interacting sites of a zone. -/
def Placement.HasSpectators (d : Device) (p : Placement) (z : Zone) (named : List Qubit) : Prop :=
  ∃ q r l m, q ∉ named ∧ r ∉ named ∧ p.layout[q]? = some l ∧ p.layout[r]? = some m ∧
    d.blockaded? l = some m ∧ l ∈ (d.zoneLocations? z).getD []

namespace Atoms

variable {d : Device} {a : Atoms} {m : Placement}

theorem Realizes.interactsAt (ha : a.Realizes m) {q r : Qubit} {l : Location} :
    a.InteractsAt d (q, r) l ↔ ∃ l', m.layout[q]? = some l ∧ m.layout[r]? = some l' ∧
      d.blockaded? l = some l' ∧ l < l' := by
  simp only [AtomMaps.InteractsAt, ha.qubitAt?_eq_some]
  constructor
  · rintro ⟨l', hl, hblockaded, hl', hlt⟩
    exact ⟨l', hl, hl', hblockaded, hlt⟩
  · rintro ⟨l', hl, hl', hblockaded, hlt⟩
    exact ⟨l', hl, hblockaded, hl', hlt⟩

end Atoms

section Layer

variable {d : Device} {b : Blueprint} {controls targets : List Qubit} {p : Placement} {q r : Qubit}
  {l m : Location}

theorem requested_of_named (hb : Device.ofBlueprint b = .ok d) (hp : p.Sound d)
    (hpaired : (GateLayer.cz controls targets).Paired d p) (hq : q ∈ controls ++ targets)
    (hl : p.layout[q]? = some l) (hm : p.layout[r]? = some m) (hblockaded : d.blockaded? l = some m) :
    (q, r) ∈ controls.zip targets ∨ (r, q) ∈ controls.zip targets := by
  obtain ⟨hlength, hpairs⟩ := hpaired controls targets rfl
  have hsame : ∀ {r' : Qubit}, p.layout[r']? = some m → r = r' := by
    intro r' hm'
    have hr := (List.getElem?_eq_some_iff.mp hm).1
    exact (List.getElem?_inj hr hp.nodup).mp (hm.trans hm'.symm)
  rcases List.mem_append.mp hq with hq | hq
  · have hcontrol : q ∈ (controls.zip targets).map (·.1) := by
      rw [List.map_fst_zip (Nat.le_of_eq hlength)]
      exact hq
    obtain ⟨⟨q, r'⟩, hmem, rfl⟩ := List.mem_map.mp hcontrol
    obtain ⟨l', m', hl', hm', hblockaded'⟩ := hpairs _ hmem
    cases hl.symm.trans hl'
    cases hblockaded.symm.trans hblockaded'
    rw [hsame hm']
    exact Or.inl hmem
  · have htarget : q ∈ (controls.zip targets).map (·.2) := by
      rw [List.map_snd_zip (Nat.le_of_eq hlength.symm)]
      exact hq
    obtain ⟨⟨r', q⟩, hmem, rfl⟩ := List.mem_map.mp htarget
    obtain ⟨m', l', hm', hl', hblockaded'⟩ := hpairs _ hmem
    cases hl.symm.trans hl'
    obtain ⟨_, _, hback, _⟩ := Device.blockaded?_eq_some hb hblockaded'
    cases hblockaded.symm.trans hback
    rw [hsame hm']
    exact Or.inr hmem

/-- The entangled pairs of a zone are pairs of the layer exactly if no two qubits that the layer does
not name interact there. -/
theorem pairs_requested_iff {a : Atoms} {z : Zone} {pairing : Pairing}
    (hb : Device.ofBlueprint b = .ok d) (hp : p.Sound d)
    (hpaired : (GateLayer.cz controls targets).Paired d p) (ha : a.Realizes p)
    (hpairing : a.pairing? d z = some pairing) :
    (∀ pair ∈ pairing.pairs, pair ∈ controls.zip targets ∨ pair.swap ∈ controls.zip targets) ↔
      ¬ p.HasSpectators d z (controls ++ targets) := by
  constructor
  · rintro hrequested ⟨q, r, l, m, hq, hr, hl, hm, hblockaded, hzone⟩
    obtain ⟨_, hne, hback, _⟩ := Device.blockaded?_eq_some hb hblockaded
    have hnamed : ∀ {x y : Qubit}, (x, y) ∈ pairing.pairs → x ∈ controls ++ targets := by
      intro x y hmem
      rcases hrequested (x, y) hmem with hmem | hmem
      · exact List.mem_append_left _ (List.of_mem_zip hmem).1
      · exact List.mem_append_right _ (List.of_mem_zip hmem).2
    rcases trichotomous_of (fun x y : Location => x < y) l m with hlt | rfl | hlt
    · refine hq (hnamed ((AtomMaps.mem_pairs_of_pairing? hpairing (q, r)).mpr ⟨l, hzone, ?_⟩))
      exact ha.interactsAt.mpr ⟨m, hl, hm, hblockaded, hlt⟩
    · exact hne rfl
    · have hzone' := Device.mem_zoneLocations_of_blockaded hb hblockaded hzone
      refine hr (hnamed ((AtomMaps.mem_pairs_of_pairing? hpairing (r, q)).mpr ⟨m, hzone', ?_⟩))
      exact ha.interactsAt.mpr ⟨l, hm, hl, hback, hlt⟩
  · rintro hspectators ⟨q, r⟩ hmem
    obtain ⟨l, hzone, hinteracts⟩ := (AtomMaps.mem_pairs_of_pairing? hpairing (q, r)).mp hmem
    obtain ⟨m, hl, hm, hblockaded, _⟩ := ha.interactsAt.mp hinteracts
    obtain ⟨_, _, hback, _⟩ := Device.blockaded?_eq_some hb hblockaded
    by_cases hq : q ∈ controls ++ targets
    · exact requested_of_named hb hp hpaired hq hl hm hblockaded
    · by_cases hr : r ∈ controls ++ targets
      · exact (requested_of_named hb hp hpaired hr hm hl hback).symm
      · exact absurd ⟨q, r, l, m, hq, hr, hl, hm, hblockaded, hzone⟩ hspectators

end Layer

namespace Compiler

variable {c : Compiler} {p : GateProgram} {initial : InitialLayout} {b : Blueprint} {r : Compiled}

/-- Every statement of a layer of CZ gates entangles only pairs of that layer exactly if no two qubits
outside the layer interact in its zone at the placement of the layer. -/
theorem entangled_pairs_requested_iff (hb : Device.ofBlueprint b = .ok c.graph.device)
    (hs : c.graph.device.SingleSource) (hok : c.compile p initial = .ok r) :
    ∃ start, initial.place c.graph.device p.numQubits = .ok start ∧
      ∀ k controls targets, p.layers[k]? = some (.cz controls targets) → ∃ after v s s',
        r.Reaches c.graph.device p start k (.cz controls targets) after v s s' ∧
        ∀ i u z, s.ops.length ≤ i → s'.ops[i]? = some (.cz u z) → ∃ a pairing,
          r.Holds p.numQubits u a after ∧ a.pairing? c.graph.device z = some pairing ∧
          ((∀ pair ∈ pairing.pairs,
              pair ∈ controls.zip targets ∨ pair.swap ∈ controls.zip targets) ↔
            ¬ after.HasSpectators c.graph.device z (controls ++ targets)) := by
  obtain ⟨start, last, state, s, h⟩ := lowered_of_compile hb hs hok
  refine ⟨start, h.placed, ?_⟩
  intro k controls targets hk
  obtain ⟨after, v, s₁, s₂, new, hreaches, hsound, hpaired, hsize, hnew, _, hcarries⟩ :=
    h.reaches hs hok hk
  refine ⟨after, v, s₁, s₂, hreaches, ?_⟩
  intro i u z hle hi
  rw [hnew, List.getElem?_append_right hle] at hi
  obtain ⟨hstands, _, _, _, q, _, l, _, hzone⟩ :=
    (hcarries _ (List.mem_of_getElem? hi)).entangling u z rfl
  obtain ⟨a, ha, hholds⟩ := Compiled.exists_holds hstands hsize
  obtain ⟨_, words, hwords, _⟩ := Device.zoneOf?_eq_some hzone
  have hpairing : a.pairing? c.graph.device z =
      some ((words.flatMap c.graph.device.wordLocations).foldl (a.addToPairing c.graph.device) {}) := by
    rw [AtomMaps.pairing?, Device.zoneLocations?, hwords]
    rfl
  exact ⟨a, _, hholds, hpairing, pairs_requested_iff hb hsound hpaired ha hpairing⟩

/-- When qubits 2 and 0 meet, qubit 1 is alone. -/
theorem entangled_pairs_requested_iff_meetings :
    ∃ r start after v s s', forSmallGrid.compile meetings meetingSites = .ok r ∧
      r.Reaches forSmallGrid.graph.device meetings start 3 (.cz [2] [0]) after v s s' ∧
      ∀ i u z, s.ops.length ≤ i → s'.ops[i]? = some (.cz u z) → ∃ a pairing, r.Holds 3 u a after ∧
        a.pairing? forSmallGrid.graph.device z = some pairing ∧
        ((∀ pair ∈ pairing.pairs, pair ∈ [(2, 0)] ∨ pair.swap ∈ [(2, 0)]) ↔
          ¬ after.HasSpectators forSmallGrid.graph.device z [2, 0]) := by
  obtain ⟨r, hok⟩ := exists_compile_meetings
  obtain ⟨start, _, hlayers⟩ :=
    entangled_pairs_requested_iff ofBlueprint_smallGrid singleSource_smallGrid hok
  obtain ⟨after, v, s, s', hreaches, hpairs⟩ := hlayers 3 [2] [0] rfl
  exact ⟨r, start, after, v, s, s', hok, hreaches, hpairs⟩

def forOneWord : Compiler := { graph := .ofDevice ⟨(Blueprint.grid 1 2).normalize, .bits32⟩ }

def fullWord : InitialLayout := ⟨[⟨0, 0⟩, ⟨0, 1⟩, ⟨0, 2⟩, ⟨0, 3⟩], []⟩

/-- In a full word the gate between qubits 0 and 2 entangles qubits 1 and 3 as well. -/
theorem spectators_entangled :
    Device.ofBlueprint (.grid 1 2) = .ok forOneWord.graph.device ∧
      forOneWord.graph.device.SingleSource ∧
      ∃ r a pairing, forOneWord.compile ⟨4, [.cz [0] [2]]⟩ fullWord = .ok r ∧
        (⟨0, 2⟩, ⟨2, .cz 1 ⟨0⟩⟩) ∈ r.program.statements ∧ (r.analysis.value 1).atoms? = some a ∧
        a.pairing? forOneWord.graph.device ⟨0⟩ = some pairing ∧ (1, 3) ∈ pairing.pairs ∧
        ¬ ((1, 3) ∈ [0].zip [2] ∨ (3, 1) ∈ [0].zip [2]) := by
  refine ⟨by decide +kernel, by decide +kernel, ?_⟩
  have hrun : ((forOneWord.compile ⟨4, [.cz [0] [2]]⟩ fullWord).toOption.any fun r =>
      decide ((⟨0, 2⟩, ⟨2, .cz 1 ⟨0⟩⟩) ∈ r.program.statements) && (r.analysis.value 1).atoms?.any
        fun a => (a.pairing? forOneWord.graph.device ⟨0⟩).any fun p => decide ((1, 3) ∈ p.pairs)) =
      true := by
    decide +kernel
  simp only [Option.any_eq_true, Bool.and_eq_true, decide_eq_true_eq] at hrun
  obtain ⟨r, hok, hstatement, a, ha, pairing, hpairing, hpair⟩ := hrun
  refine ⟨r, a, pairing, ?_, hstatement, ha, hpairing, hpair, by decide⟩
  cases hcompile : forOneWord.compile ⟨4, [.cz [0] [2]]⟩ fullWord with
  | error e =>
    rw [hcompile] at hok
    cases hok
  | ok r' =>
    rw [hcompile] at hok
    cases hok
    rfl

end Compiler

end AtomTransport
