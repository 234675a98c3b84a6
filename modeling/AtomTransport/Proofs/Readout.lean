import AtomTransport.Proofs.Lowering

/-!
# Reading trees off shots

The trees of a lowered program have no unknown parts. A tree of results is read off a shot as the
parity of its bits, and the results of a zone are read site by site.
-/

namespace AtomTransport

def needed (n : Nat) (bits : List Nat) : Nat := bits.foldl (fun n i => max n (i + 1)) n

theorem needed_append (n : Nat) (bits bits' : List Nat) :
    needed n (bits ++ bits') = needed (needed n bits) bits' := List.foldl_append

theorem needed_le_iff {n k : Nat} {bits : List Nat} : needed n bits ≤ k ↔ n ≤ k ∧ ∀ i ∈ bits, i < k := by
  induction bits generalizing n with
  | nil => simp [needed]
  | cons i bits ih =>
    rw [needed, List.foldl_cons, ← needed, ih, List.forall_mem_cons, Nat.max_le, Nat.succ_le_iff, and_assoc]

theorem needed_eq_max? (n : Nat) (bits : List Nat) : needed n bits =
    match bits.max? with
    | some i => max n (i + 1)
    | none => n := by
  cases hmax : bits.max? with
  | none =>
    rw [List.max?_eq_none_iff] at hmax
    rw [hmax]
    rfl
  | some i =>
    obtain ⟨hi, hle⟩ := List.max?_eq_some_iff.mp hmax
    obtain ⟨hn, hbits⟩ := needed_le_iff.mp (Nat.le_refl (needed n bits))
    refine Nat.le_antisymm (needed_le_iff.mpr ⟨Nat.le_max_left .., fun j hj => ?_⟩) ?_
    · exact Nat.lt_of_lt_of_le (Nat.lt_succ_of_le (hle j hj)) (Nat.le_max_right ..)
    · exact Nat.max_le.mpr ⟨hn, hbits i hi⟩

namespace Extractor

mutual

def bits : Extractor → List Nat
  | none => []
  | constant _ => []
  | bit i => [i]
  | list items => bitsAll items

def bitsAll : List Extractor → List Nat
  | [] => []
  | e :: es => e.bits ++ bitsAll es

end

def Compiles (v : Value) (e : Extractor) : Prop := ∀ n, compile n v = .ok (e, needed n e.bits)

theorem compiles_list {vs : List Value} {es : List Extractor} (h : List.Forall₂ Compiles vs es) :
    Compiles (.list vs) (.list es) := by
  have hall : ∀ n, compileAll n vs = .ok (es, needed n (bitsAll es)) := by
    induction h with
    | nil => exact fun n => rfl
    | cons hv _ ih =>
      intro n
      simp only [compileAll, hv n, ok_bind, ih, bitsAll, needed_append]
  intro n
  rw [compile, hall]
  rfl

theorem compiles_map {α : Type} {f : α → Value} {e : α → Extractor} {xs : List α}
    (h : ∀ x ∈ xs, Compiles (f x) (e x)) : Compiles (.list (xs.map f)) (.list (xs.map e)) := by
  apply compiles_list
  rw [List.forall₂_map_left_iff, List.forall₂_map_right_iff, List.forall₂_same]
  exact h

theorem applyAll_eq_map (shot : List Bool) (es : List Extractor) :
    applyAll shot es = es.map (apply shot) := by
  induction es with
  | nil => rfl
  | cons e es ih => rw [applyAll, ih]; rfl

theorem mem_bitsAll {i : Nat} {es : List Extractor} : i ∈ bitsAll es ↔ ∃ e ∈ es, i ∈ e.bits := by
  induction es with
  | nil => simp [bitsAll]
  | cons e es ih => simp [bitsAll, ih]

def zone (d : Device) (a : Atoms) (z : Zone) : Extractor :=
  .list (((d.zoneLocations? z).getD []).map fun l =>
    match a.qubitAt? l with
    | some q => .bit q
    | Option.none => .none)

theorem compiles_zoneResults (d : Device) (a : Atoms) (z : Zone) :
    Compiles (Op.zoneResults d a z) (zone d a z) := by
  refine compiles_map ?_
  intro l _ n
  cases a.qubitAt? l <;> rfl

theorem bits_zone {d : Device} {a : Atoms} {m : Placement} (ha : a.Realizes m)
    (z : Zone) : ∀ i ∈ (zone d a z).bits, i < m.layout.length := by
  intro i hi
  rw [zone, bits, mem_bitsAll] at hi
  obtain ⟨e, he, hi⟩ := hi
  obtain ⟨l, _, rfl⟩ := List.mem_map.mp he
  cases hq : a.qubitAt? l with
  | none => simp [hq, bits] at hi
  | some q =>
    rw [hq] at hi
    rw [List.mem_singleton.mp hi]
    exact (List.getElem?_eq_some_iff.mp (ha.qubitAt?_eq_some.mp hq)).1

def zones (d : Device) (a : Atoms) : List Zone → Extractor
  | [z] => zone d a z
  | zs => .list (zs.map (zone d a))

theorem compiles_zoneTree (d : Device) (a : Atoms) (zs : List Zone) :
    Compiles (Lowering.zoneTree d a zs) (zones d a zs) := by
  rcases zs with _ | ⟨z, _ | ⟨z', zs⟩⟩
  · exact fun n => rfl
  · exact compiles_zoneResults d a z
  · exact compiles_map fun z _ => compiles_zoneResults d a z

theorem bits_zones {d : Device} {a : Atoms} {m : Placement} (ha : a.Realizes m)
    (zs : List Zone) : ∀ i ∈ (zones d a zs).bits, i < m.layout.length := by
  unfold zones
  split
  · exact bits_zone ha _
  · intro i hi
    rw [bits, mem_bitsAll] at hi
    obtain ⟨e, he, hi⟩ := hi
    obtain ⟨z, _, rfl⟩ := List.mem_map.mp he
    exact bits_zone ha z i hi

end Extractor

def parityOf (shot : List Bool) (qubits : List Qubit) : Bool :=
  decide (qubits.countP (fun q => shot[q]? = some true) % 2 = 1)

namespace Parity

theorem addValues_results (part : ReadoutPart) (p : Parity) (qubits : List Qubit) :
    addValues part p (qubits.map .result) = .ok { p with bits := p.bits ++ qubits } := by
  induction qubits generalizing p with
  | nil => simp [addValues]
  | cons q qubits ih =>
    rw [List.map_cons, addValues, addValue, ok_bind, ih]
    simp

theorem ofValue_bitsOf (part : ReadoutPart) (qubits : List Qubit) :
    ofValue part (bitsOf qubits) = .ok ⟨qubits, false⟩ := by
  rw [ofValue, bitsOf, addValue, addValues_results]
  rfl

theorem compile_eq (part : ReadoutPart) (n : Nat) (v : Value) :
    compile part n v = (ofValue part v).map fun p => (p, needed n p.bits) := by
  unfold compile
  cases ofValue part v with
  | error e => rfl
  | ok p =>
    rw [ok_bind, Except.map, needed_eq_max?]
    cases p.bits.max? <;> rfl

/-- The parities of some trees are found one by one, and all their bits are needed. -/
theorem compileAll_eq (part : ReadoutPart) (n : Nat) (vs : List Value) : compileAll part n vs =
    (vs.mapM (ofValue part)).map fun ps => (ps, needed n (ps.flatMap (·.bits))) := by
  induction vs generalizing n with
  | nil => rfl
  | cons v vs ih =>
    rw [compileAll, compile_eq, List.mapM_cons]
    cases ofValue part v with
    | error e => rfl
    | ok p =>
      simp only [Except.map, ok_bind, ih]
      cases vs.mapM (ofValue part) with
      | error e => rfl
      | ok ps =>
        change Except.ok (p :: ps, _) = Except.ok (p :: ps, _)
        rw [List.flatMap_cons, needed_append]

theorem apply_eq_parityOf (shot : List Bool) (qubits : List Qubit) :
    apply shot ⟨qubits, false⟩ = parityOf shot qubits := by
  have key : ∀ (qubits : List Qubit) (acc : Bool),
      qubits.foldl (fun acc i => acc ^^ shot.getD i false) acc =
        (acc ^^ decide (qubits.countP (fun q => shot[q]? = some true) % 2 = 1)) := by
    intro qubits
    induction qubits with
    | nil => simp
    | cons q qubits ih =>
      intro acc
      rw [List.foldl_cons, ih, List.countP_cons, List.getD_eq_getElem?_getD]
      rcases hq : shot[q]? with _ | b
      · simp
      · cases b
        · simp
        · simp only [Option.getD_some, decide_true, if_true]
          rcases Nat.mod_two_eq_zero_or_one (qubits.countP fun q => shot[q]? = some true) with h | h
          · have h' : (qubits.countP (fun q => shot[q]? = some true) + 1) % 2 = 1 := by omega
            simp [h, h']
          · have h' : (qubits.countP (fun q => shot[q]? = some true) + 1) % 2 = 0 := by omega
            simp [h, h']
  simpa [apply, parityOf] using key qubits false

end Parity

namespace Readout

def bits (r : Readout) : List Nat :=
  r.value.bits ++ r.detectors.flatMap (·.bits) ++ r.observables.flatMap (·.bits)

/-- A shot is long enough exactly if it has all bits that are read. -/
def Exact (r : Readout) : Prop := r.minBits = needed 0 r.bits

theorem Exact.minBits_le_iff {r : Readout} (hr : r.Exact) {n : Nat} : r.minBits ≤ n ↔ ∀ i ∈ r.bits, i < n := by
  rw [hr, needed_le_iff, and_iff_right (Nat.zero_le n)]

theorem Exact.apply_eq_ok {r : Readout} (hr : r.Exact) {shot : List Bool} (h : ∀ i ∈ r.bits, i < shot.length) :
    r.apply shot =
      .ok ⟨r.value.apply shot, r.detectors.map (·.apply shot), r.observables.map (·.apply shot)⟩ := by
  rw [apply, if_neg (Nat.not_lt.mpr (hr.minBits_le_iff.mpr h))]

def ofParts (e : Extractor) (detectors observables : List Parity) : Readout :=
  ⟨e, detectors, observables,
    needed 0 (e.bits ++ detectors.flatMap (·.bits) ++ observables.flatMap (·.bits))⟩

theorem exact_ofParts (e : Extractor) (detectors observables : List Parity) :
    (ofParts e detectors observables).Exact := rfl

theorem ofValues_eq {value : Value} {e : Extractor} (he : Extractor.Compiles value e) (detectors observables : List Value) :
    ofValues value detectors observables = (do
      let detectors ← detectors.mapM (Parity.ofValue .detector)
      let observables ← observables.mapM (Parity.ofValue .observable)
      .ok (ofParts e detectors observables)) := by
  simp only [ofValues, he 0, ok_bind, Parity.compileAll_eq]
  cases detectors.mapM (Parity.ofValue .detector) with
  | error e => rfl
  | ok ds =>
    cases observables.mapM (Parity.ofValue .observable) with
    | error e => rfl
    | ok os => simp only [Except.map, ok_bind, ofParts, needed_append]

theorem ofValues_bitsOf {value : Value} {e : Extractor} (he : Extractor.Compiles value e)
    (detectors observables : List (List Qubit)) :
    ofValues value (detectors.map bitsOf) (observables.map bitsOf) =
      .ok (ofParts e (detectors.map fun qs => ⟨qs, false⟩) (observables.map fun qs => ⟨qs, false⟩)) := by
  have hparity : ∀ (part : ReadoutPart) (trees : List (List Qubit)),
      (trees.map bitsOf).mapM (Parity.ofValue part) =
        .ok (trees.map fun qs => (⟨qs, false⟩ : Parity)) := by
    intro part trees
    rw [mapM_eq_ok, List.forall₂_map_left_iff, List.forall₂_map_right_iff]
    exact List.forall₂_same.mpr fun qs _ => Parity.ofValue_bitsOf part qs
  simp only [ofValues_eq he, ok_bind, hparity]

end Readout

end AtomTransport
