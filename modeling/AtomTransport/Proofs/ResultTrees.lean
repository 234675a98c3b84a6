import AtomTransport.Proofs.Readout
import AtomTransport.Proofs.ValueOrder

/-!
# Trees of results

What a readout says about a shot can be read off the trees directly. `Outcome.ofValue?` puts the bits of the
shot into a tree, and `Value.HasParity` is the exclusive or of the bits and constants in a tree; neither has
an answer for a bit that the shot does not have. A readout exists exactly if no tree has an unknown part, it
accepts exactly the shots with a bit for every qubit that is mentioned, and on these it agrees with the
trees.
-/

namespace AtomTransport

namespace Value

mutual

def qubits : Value → List Qubit
  | result q => [q]
  | list items => qubitsAll items
  | _ => []

def qubitsAll : List Value → List Qubit
  | [] => []
  | v :: vs => v.qubits ++ qubitsAll vs

end

mutual

def bools : Value → List Bool
  | scalar (.bool b) => [b]
  | list items => boolsAll items
  | _ => []

def boolsAll : List Value → List Bool
  | [] => []
  | v :: vs => v.bools ++ boolsAll vs

end

/-- A bit is the parity of a value in a shot if it is the exclusive or of the constants of the value and of
the bits of all its results, each of which the shot has. -/
def HasParity (shot : List Bool) (v : Value) (b : Bool) : Prop :=
  ∃ bits, List.Forall₂ (fun q bit => shot[q]? = some bit) v.qubits bits ∧
    b = (v.bools ++ bits).foldl (· ^^ ·) false

theorem anyUnknown_append (us vs : List Value) :
    anyUnknown (us ++ vs) = (anyUnknown us || anyUnknown vs) := by
  induction us with
  | nil => rfl
  | cons u us ih => rw [List.cons_append, anyUnknown, anyUnknown, ih, Bool.or_assoc]

theorem anyUnknown_iff {vs : List Value} : anyUnknown vs = true ↔ ∃ v ∈ vs, v.containsUnknown = true := by
  induction vs with
  | nil => simp [anyUnknown]
  | cons v vs ih => simp [anyUnknown, ih]

end Value

namespace Outcome

mutual

/-- A value with the bit of its qubit in place of every result. There is no outcome if a part is unknown or
the shot lacks a bit. -/
def ofValue? (shot : List Bool) : Value → Option Outcome
  | .unknown => Option.none
  | .bottom => some .none
  | .scalar s => some (.scalar s)
  | .atoms _ => some .none
  | .measured _ => some .none
  | .result q => shot[q]?.map fun b => .scalar (.bool b)
  | .list items => (ofValues? shot items).map .list

def ofValues? (shot : List Bool) : List Value → Option (List Outcome)
  | [] => some []
  | v :: vs => (ofValue? shot v).bind fun x => (ofValues? shot vs).map (x :: ·)

end

/-- The outcome depends on the bits of the mentioned qubits only. -/
theorem ofValue?_congr {shot shot' : List Bool} {v : Value}
    (h : ∀ q ∈ v.qubits, shot'[q]? = shot[q]?) : ofValue? shot' v = ofValue? shot v := by
  induction v with
  | result q => rw [ofValue?, ofValue?, h q (List.mem_singleton_self q)]
  | list items ih =>
    have hitems : ofValues? shot' items = ofValues? shot items := by
      rw [Value.qubits] at h
      induction items with
      | nil => rfl
      | cons v vs ihvs =>
        rw [List.forall_mem_cons] at ih
        rw [Value.qubitsAll, List.forall_mem_append] at h
        rw [ofValues?, ofValues?, ih.1 h.1, ihvs ih.2 h.2]
    rw [ofValue?, ofValue?, hitems]
  | _ => rfl

end Outcome

namespace Extractor

/-- An extractor stands for a tree if it reads the bits of its qubits and gives its outcome. -/
structure Extracts (e : Extractor) (v : Value) : Prop where
  bits : e.bits = v.qubits
  apply : ∀ shot, (∀ q ∈ v.qubits, q < shot.length) → Outcome.ofValue? shot v = some (e.apply shot)

theorem Extracts.list {es : List Extractor} {vs : List Value} (h : List.Forall₂ Extracts es vs) :
    (list es).Extracts (.list vs) := by
  have hbits : bitsAll es = Value.qubitsAll vs := by
    induction h with
    | nil => rfl
    | cons hv _ ih => rw [bitsAll, Value.qubitsAll, hv.bits, ih]
  have happly : ∀ shot, (∀ q ∈ Value.qubitsAll vs, q < shot.length) →
      Outcome.ofValues? shot vs = some (applyAll shot es) := by
    intro shot hshot
    clear hbits
    induction h with
    | nil => rfl
    | cons hv _ ih =>
      rw [Value.qubitsAll, List.forall_mem_append] at hshot
      rw [Outcome.ofValues?, hv.apply shot hshot.1, ih hshot.2]
      rfl
  refine ⟨hbits, fun shot hshot => ?_⟩
  rw [Outcome.ofValue?, happly shot hshot]
  rfl

theorem exists_compiles {v : Value} (h : v.containsUnknown = false) :
    ∃ e, Compiles v e ∧ e.Extracts v := by
  induction v with
  | unknown => cases h
  | result q =>
    refine ⟨.bit q, fun n => rfl, rfl, fun shot hshot => ?_⟩
    have hq : q < shot.length := hshot q (List.mem_singleton_self q)
    simp [Outcome.ofValue?, apply, List.getElem?_eq_getElem hq]
  | list items ih =>
    have hitems : ∃ es, List.Forall₂ Compiles items es ∧ List.Forall₂ Extracts es items := by
      rw [Value.containsUnknown, Value.anyUnknown_eq_false] at h
      induction items with
      | nil => exact ⟨[], .nil, .nil⟩
      | cons v vs ihvs =>
        rw [List.forall_mem_cons] at ih h
        obtain ⟨e, he, hv⟩ := ih.1 h.1
        obtain ⟨es, hes, hvs⟩ := ihvs ih.2 h.2
        exact ⟨e :: es, .cons he hes, .cons hv hvs⟩
    obtain ⟨es, hes, hvs⟩ := hitems
    exact ⟨.list es, compiles_list hes, .list hvs⟩
  | scalar s => exact ⟨.constant s, fun n => rfl, rfl, fun _ _ => rfl⟩
  | _ => exact ⟨.none, fun n => rfl, rfl, fun _ _ => rfl⟩

theorem compile_eq_error {v : Value} (h : v.containsUnknown = true) (n : Nat) :
    compile n v = .error (.unknownValue .returnValue) := by
  induction v generalizing n with
  | unknown => rfl
  | list items ih =>
    have hitems : ∀ n, compileAll n items = .error (.unknownValue .returnValue) := by
      rw [Value.containsUnknown] at h
      induction items with
      | nil => cases h
      | cons v vs ihvs =>
        intro n
        rw [List.forall_mem_cons] at ih
        rw [Value.anyUnknown, Bool.or_eq_true] at h
        cases hv : v.containsUnknown with
        | true => rw [compileAll, ih.1 hv, error_bind]
        | false =>
          obtain ⟨e, he, _⟩ := exists_compiles hv
          have hvs := h.resolve_left (hv ▸ Bool.false_ne_true)
          simp only [compileAll, he n, ok_bind, ihvs ih.2 hvs, error_bind]
    rw [compile, hitems, error_bind]
  | _ => cases h

end Extractor

namespace Parity

def ofTree (v : Value) : Parity := ⟨v.qubits, v.bools.foldl (· ^^ ·) false⟩

theorem addValue_eq (part : ReadoutPart) (p : Parity) (v : Value) : addValue part p v =
    if v.containsUnknown then .error (.unknownValue part)
    else .ok ⟨p.bits ++ v.qubits, v.bools.foldl (· ^^ ·) p.flip⟩ := by
  induction v generalizing p with
  | scalar s => cases s <;> simp [addValue, Value.containsUnknown, Value.qubits, Value.bools]
  | list items ih =>
    have hitems : addValues part p items =
        if Value.anyUnknown items then .error (.unknownValue part)
        else .ok ⟨p.bits ++ Value.qubitsAll items, (Value.boolsAll items).foldl (· ^^ ·) p.flip⟩ := by
      induction items generalizing p with
      | nil => simp [addValues, Value.anyUnknown, Value.qubitsAll, Value.boolsAll]
      | cons v vs ihvs =>
        rw [List.forall_mem_cons] at ih
        rw [addValues, ih.1, Value.anyUnknown, Value.qubitsAll, Value.boolsAll, List.foldl_append,
          ← List.append_assoc]
        cases v.containsUnknown with
        | true => rfl
        | false => exact ihvs ih.2 _
    exact hitems
  | _ => simp [addValue, Value.containsUnknown, Value.qubits, Value.bools]

theorem mapM_ofValue (part : ReadoutPart) (vs : List Value) : vs.mapM (ofValue part) =
    if Value.anyUnknown vs then .error (.unknownValue part) else .ok (vs.map ofTree) := by
  induction vs with
  | nil => rfl
  | cons v vs ih =>
    rw [List.mapM_cons, ofValue, addValue_eq, ih, Value.anyUnknown]
    cases v.containsUnknown with
    | true => rfl
    | false => cases Value.anyUnknown vs <;> rfl

theorem hasParity_apply {shot : List Bool} {v : Value} (h : ∀ q ∈ v.qubits, q < shot.length) :
    v.HasParity shot ((ofTree v).apply shot) := by
  refine ⟨v.qubits.map fun q => shot.getD q false, ?_, ?_⟩
  · rw [List.forall₂_map_right_iff, List.forall₂_same]
    intro q hq
    rw [List.getD_eq_getElem?_getD, List.getElem?_eq_getElem (h q hq)]
    rfl
  · rw [List.foldl_append, List.foldl_map]
    rfl

theorem forall₂_hasParity {shot : List Bool} {vs : List Value}
    (h : ∀ v ∈ vs, ∀ q ∈ v.qubits, q < shot.length) :
    List.Forall₂ (Value.HasParity shot) vs ((vs.map ofTree).map (·.apply shot)) := by
  rw [List.map_map, List.forall₂_map_right_iff, List.forall₂_same]
  exact fun v hv => hasParity_apply (h v hv)

theorem apply_congr {shot shot' : List Bool} {p : Parity} (h : ∀ q ∈ p.bits, shot'[q]? = shot[q]?) :
    p.apply shot' = p.apply shot := by
  refine List.foldl_ext _ _ _ fun acc q hq => ?_
  rw [List.getD_eq_getElem?_getD, List.getD_eq_getElem?_getD, h q hq]

end Parity

namespace Readout

variable {value : Value} {detectors observables : List Value} {r : Readout}

def mentioned (value : Value) (detectors observables : List Value) : List Qubit :=
  (value :: (detectors ++ observables)).flatMap Value.qubits

def ofTrees (e : Extractor) (detectors observables : List Value) : Readout :=
  ofParts e (detectors.map Parity.ofTree) (observables.map Parity.ofTree)

theorem ofValues_eq_ok (hvalue : value.containsUnknown = false)
    (hdetectors : Value.anyUnknown detectors = false) (hobservables : Value.anyUnknown observables = false) :
    ∃ e : Extractor, e.Extracts value ∧
      ofValues value detectors observables = .ok (ofTrees e detectors observables) := by
  obtain ⟨e, he, hextracts⟩ := Extractor.exists_compiles hvalue
  refine ⟨e, hextracts, ?_⟩
  simp only [ofValues_eq he, ok_bind, Parity.mapM_ofValue, hdetectors, hobservables, Bool.false_eq_true,
    if_false, ofTrees]

theorem ofValues_eq_error (h : Value.anyUnknown (value :: (detectors ++ observables)) = true) :
    ∃ part, ofValues value detectors observables = .error (.unknownValue part) := by
  cases hvalue : value.containsUnknown with
  | true =>
    refine ⟨.returnValue, ?_⟩
    rw [ofValues, Extractor.compile_eq_error hvalue, error_bind]
  | false =>
    obtain ⟨e, he, _⟩ := Extractor.exists_compiles hvalue
    cases hdetectors : Value.anyUnknown detectors with
    | true =>
      refine ⟨.detector, ?_⟩
      simp only [ofValues_eq he, Parity.mapM_ofValue, hdetectors, if_true, error_bind]
    | false =>
      have hobservables : Value.anyUnknown observables = true := by
        simpa [Value.anyUnknown, hvalue, Value.anyUnknown_append, hdetectors] using h
      refine ⟨.observable, ?_⟩
      simp only [ofValues_eq he, ok_bind, Parity.mapM_ofValue, hdetectors, hobservables, Bool.false_eq_true,
        if_false, if_true, error_bind]

section Trees

variable {e : Extractor} {shot shot' : List Bool}

theorem bits_ofTrees (he : e.Extracts value) :
    (ofTrees e detectors observables).bits = mentioned value detectors observables := by
  simp only [bits, ofTrees, ofParts, mentioned, he.bits, List.flatMap_cons, List.flatMap_append, List.flatMap_map,
    List.append_assoc]
  rfl

/-- A shot with a bit for every mentioned qubit is read as the trees say. -/
theorem apply_ofTrees (he : e.Extracts value)
    (h : ∀ q ∈ mentioned value detectors observables, q < shot.length) :
    ∃ out, (ofTrees e detectors observables).apply shot = .ok out ∧
      Outcome.ofValue? shot value = some out.value ∧
      List.Forall₂ (Value.HasParity shot) detectors out.detectors ∧
      List.Forall₂ (Value.HasParity shot) observables out.observables := by
  refine ⟨_, (exact_ofParts ..).apply_eq_ok (bits_ofTrees he ▸ h), ?_⟩
  simp only [mentioned, List.flatMap_cons, List.flatMap_append, List.forall_mem_append,
    List.forall_mem_flatMap] at h
  exact ⟨he.apply shot h.1, Parity.forall₂_hasParity h.2.1, Parity.forall₂_hasParity h.2.2⟩

theorem apply_ofTrees_congr (he : e.Extracts value)
    (h : ∀ q ∈ mentioned value detectors observables, q < shot.length)
    (hagree : ∀ q ∈ mentioned value detectors observables, shot'[q]? = shot[q]?) :
    (ofTrees e detectors observables).apply shot' = (ofTrees e detectors observables).apply shot := by
  have h' : ∀ q ∈ mentioned value detectors observables, q < shot'.length := by
    intro q hq
    have hbit := hagree q hq
    rw [List.getElem?_eq_getElem (h q hq)] at hbit
    exact (List.getElem?_eq_some_iff.mp hbit).1
  have hexact : (ofTrees e detectors observables).Exact := exact_ofParts ..
  rw [hexact.apply_eq_ok (bits_ofTrees he ▸ h'), hexact.apply_eq_ok (bits_ofTrees he ▸ h)]
  simp only [mentioned, List.flatMap_cons, List.flatMap_append, List.forall_mem_append,
    List.forall_mem_flatMap] at h h' hagree
  have hparity : ∀ vs : List Value, (∀ v ∈ vs, ∀ q ∈ v.qubits, shot'[q]? = shot[q]?) →
      (vs.map Parity.ofTree).map (·.apply shot') = (vs.map Parity.ofTree).map (·.apply shot) := by
    intro vs hvs
    rw [List.map_map, List.map_map]
    exact List.map_congr_left fun v hv => Parity.apply_congr (hvs v hv)
  have hvalue : e.apply shot' = e.apply shot := by
    apply Option.some.inj
    rw [← he.apply shot' h'.1, ← he.apply shot h.1, Outcome.ofValue?_congr hagree.1]
  simp only [ofTrees, ofParts, hvalue, hparity _ hagree.2.1, hparity _ hagree.2.2]

end Trees

/-- A readout exists exactly if no tree has an unknown part. It needs a bit for each qubit up to the largest
one that a tree mentions, refuses shorter shots, and reads every other shot as the trees say: the bits of the
shot stand in the value, and the parities of the trees are its detectors and observables. Shots that agree on
the mentioned qubits are read alike. -/
theorem readout_of_trees (value : Value) (detectors observables : List Value) :
    ((∃ e, ofValues value detectors observables = .error e) ↔
      ∃ v ∈ value :: (detectors ++ observables), v.containsUnknown = true) ∧
    ∀ r, ofValues value detectors observables = .ok r →
      (r.minBits = match (mentioned value detectors observables).max? with
        | none => 0
        | some q => q + 1) ∧
      (∀ shot, shot.length < r.minBits →
        r.apply shot = .error (.tooFewBits r.minBits shot.length)) ∧
      (∀ shot, r.minBits ≤ shot.length → ∃ out, r.apply shot = .ok out ∧
        Outcome.ofValue? shot value = some out.value ∧
        List.Forall₂ (Value.HasParity shot) detectors out.detectors ∧
        List.Forall₂ (Value.HasParity shot) observables out.observables) ∧
      ∀ shot shot', r.minBits ≤ shot.length →
        (∀ q ∈ mentioned value detectors observables, shot'[q]? = shot[q]?) →
        r.apply shot' = r.apply shot := by
  rw [← Value.anyUnknown_iff]
  cases hunknown : Value.anyUnknown (value :: (detectors ++ observables)) with
  | true =>
    obtain ⟨part, herror⟩ := ofValues_eq_error hunknown
    refine ⟨iff_of_true ⟨_, herror⟩ rfl, fun r hr => ?_⟩
    cases herror.symm.trans hr
  | false =>
    rw [Value.anyUnknown, Value.anyUnknown_append, Bool.or_eq_false_iff, Bool.or_eq_false_iff] at hunknown
    obtain ⟨hvalue, hdetectors, hobservables⟩ := hunknown
    obtain ⟨e, he, hok⟩ := ofValues_eq_ok hvalue hdetectors hobservables
    refine ⟨iff_of_false ?_ Bool.false_ne_true, fun r hr => ?_⟩
    · rintro ⟨error, herror⟩
      cases hok.symm.trans herror
    cases hok.symm.trans hr
    have haccepts : ∀ shot : List Bool, (ofTrees e detectors observables).minBits ≤ shot.length →
        ∀ q ∈ mentioned value detectors observables, q < shot.length := by
      intro shot hshot
      rw [← bits_ofTrees he]
      exact (exact_ofParts ..).minBits_le_iff.mp hshot
    refine ⟨?_, fun shot hshort => ?_, fun shot hshot => apply_ofTrees he (haccepts shot hshot),
      fun shot shot' hshot => apply_ofTrees_congr he (haccepts shot hshot)⟩
    · rw [← bits_ofTrees he]
      refine (needed_eq_max? 0 (ofTrees e detectors observables).bits).trans ?_
      cases (ofTrees e detectors observables).bits.max? with
      | none => rfl
      | some q => exact Nat.zero_max _
    · rw [apply, if_pos hshort]

/-- A detector may mention a qubit that the returned value does not, here qubit 3, which then decides how
long a shot has to be. Its two results of qubit 3 cancel. -/
theorem readout_of_trees_nested :
    ∃ r out, ofValues (.list [.result 1, .list [.bottom, .result 0]])
        [.list [.result 3, .scalar (.bool true), .list [.result 0, .result 3]]] [] = .ok r ∧
      r.minBits = 4 ∧ r.apply [true, false, false, true] = .ok out ∧ out.detectors = [false] ∧
      List.Forall₂ (Value.HasParity [true, false, false, true])
        [.list [.result 3, .scalar (.bool true), .list [.result 0, .result 3]]] out.detectors := by
  obtain ⟨hmin, -, hread, -⟩ := (readout_of_trees (.list [.result 1, .list [.bottom, .result 0]])
    [.list [.result 3, .scalar (.bool true), .list [.result 0, .result 3]]] []).2 _ rfl
  obtain ⟨out, hout, -, hdetectors, -⟩ := hread [true, false, false, true] (Nat.le_of_eq hmin)
  exact ⟨_, out, rfl, hmin, hout, by cases hout; rfl, hdetectors⟩

end Readout

end AtomTransport
