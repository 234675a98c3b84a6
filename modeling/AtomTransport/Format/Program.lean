import AtomTransport.Format.Address
import AtomTransport.Gates

/-!
# Documents of programs

The JSON forms of movement programs and gate programs, and their decoders. Operations, terminators
and gates are tagged with their names.
-/

namespace AtomTransport

open Json (Decoder Members tagged)
open Json.Decode (str number couple list set idMap oneOf)

/-- A constant: a Boolean, a signed integer of 64 bits, or any other number. -/
def Scalar.decoder : Decoder Scalar
  | .bool b => some (.bool b)
  | .int n => if n < Int.pow 2 63 then some (.int n) else some (.float (Binary64.ofInt n))
  | .float x => some (.float x)
  | _ => none

def Scalar.toJson : Scalar → Json
  | bool b => .bool b
  | int n => .int n
  | float x => .float x

def Op.decoderOf (lane : Decoder Lane) (name : String) : Decoder Op := fun v =>
  match name with
  | "load" => do
    let _ ← (Members.ofJson [] v)
    some .load
  | "fill" => do
    let m ← Members.ofJson ["state", "locations"] v
    some (.fill (← m.required "state" Json.Decode.id)
      (← m.required "locations" (list Location.decoder)))
  | "move" => do
    let m ← Members.ofJson ["state", "lanes"] v
    some (.move (← m.required "state" Json.Decode.id) (← m.required "lanes" (list lane)))
  | "cz" => do
    let m ← Members.ofJson ["state", "zone"] v
    some (.cz (← m.required "state" Json.Decode.id) (← m.required "zone" Zone.decoder))
  | "local_r" => do
    let m ← Members.ofJson ["state", "axis_angle", "rotation_angle", "locations"] v
    some (.localR (← m.required "state" Json.Decode.id) (← m.required "axis_angle" number)
      (← m.required "rotation_angle" number) (← m.required "locations" (list Location.decoder)))
  | "global_r" => do
    let m ← Members.ofJson ["state", "axis_angle", "rotation_angle"] v
    some (.globalR (← m.required "state" Json.Decode.id) (← m.required "axis_angle" number)
      (← m.required "rotation_angle" number))
  | "local_rz" => do
    let m ← Members.ofJson ["state", "rotation_angle", "locations"] v
    some (.localRz (← m.required "state" Json.Decode.id) (← m.required "rotation_angle" number)
      (← m.required "locations" (list Location.decoder)))
  | "global_rz" => do
    let m ← Members.ofJson ["state", "rotation_angle"] v
    some (.globalRz (← m.required "state" Json.Decode.id) (← m.required "rotation_angle" number))
  | "end_measure" => do
    let m ← Members.ofJson ["state", "zones"] v
    some (.endMeasure (← m.required "state" Json.Decode.id) (← m.required "zones" (list Zone.decoder)))
  | "get_future_result" => do
    let m ← Members.ofJson ["future", "zone"] v
    some (.getFutureResult (← m.required "future" Json.Decode.id) (← m.required "zone" Zone.decoder))
  | "get_zone_index" => do
    let m ← Members.ofJson ["zone", "location"] v
    some (.getZoneIndex (← m.required "zone" Zone.decoder)
      (← m.required "location" Location.decoder))
  | "constant" => do
    let m ← Members.ofJson ["value"] v
    some (.constant (← m.required "value" Scalar.decoder))
  | "new_list" => do
    let m ← Members.ofJson ["items"] v
    some (.newList (← m.required "items" (list Json.Decode.id)))
  | "get_item" => do
    let m ← Members.ofJson ["list", "index"] v
    some (.getItem (← m.required "list" Json.Decode.id) (← m.required "index" Json.Decode.id))
  | "set_detector" => do
    let m ← Members.ofJson ["measurements", "coordinates"] v
    some (.setDetector (← m.required "measurements" Json.Decode.id)
      (← m.required "coordinates" (list number)))
  | "set_observable" => do
    let m ← Members.ofJson ["measurements", "index"] v
    some (.setObservable (← m.required "measurements" Json.Decode.id) (← m.required "index" Json.Decode.id))
  | _ => none

def Op.decoder : Decoder Op := fun v => do
  let (name, rest) ← tagged "op" str v
  Op.decoderOf Lane.decoderInside name rest

def Op.members : Op → List (String × Json)
  | load => []
  | fill s locations => [("state", .ofNat s), ("locations", .ofList Location.toJson locations)]
  | move s lanes => [("state", .ofNat s), ("lanes", .ofList Lane.toJson lanes)]
  | cz s zone => [("state", .ofNat s), ("zone", zone.toJson)]
  | localR s axis rotation locations =>
    [("state", .ofNat s), ("axis_angle", .float axis), ("rotation_angle", .float rotation),
      ("locations", .ofList Location.toJson locations)]
  | globalR s axis rotation =>
    [("state", .ofNat s), ("axis_angle", .float axis), ("rotation_angle", .float rotation)]
  | localRz s rotation locations =>
    [("state", .ofNat s), ("rotation_angle", .float rotation),
      ("locations", .ofList Location.toJson locations)]
  | globalRz s rotation => [("state", .ofNat s), ("rotation_angle", .float rotation)]
  | endMeasure s zones => [("state", .ofNat s), ("zones", .ofList Zone.toJson zones)]
  | getFutureResult future zone => [("future", .ofNat future), ("zone", zone.toJson)]
  | getZoneIndex zone location => [("zone", zone.toJson), ("location", location.toJson)]
  | constant value => [("value", value.toJson)]
  | newList items => [("items", .ofList .ofNat items)]
  | getItem l index => [("list", .ofNat l), ("index", .ofNat index)]
  | setDetector measurements coordinates =>
    [("measurements", .ofNat measurements), ("coordinates", .ofList .float coordinates)]
  | setObservable measurements index =>
    [("measurements", .ofNat measurements), ("index", .ofNat index)]

def Op.toJson (op : Op) : Json := .obj (("op", .str op.name) :: op.members)

def Terminator.decoderOf (kind : String) : Decoder Terminator := fun v =>
  match kind with
  | "jump" => do
    let m ← Members.ofJson ["target", "args"] v
    some (.jump (← m.required "target" Json.Decode.id) (← m.required "args" (list Json.Decode.id)))
  | "branch" => do
    let m ← Members.ofJson ["cond", "then_target", "then_args", "else_target", "else_args"] v
    some (.branch (← m.required "cond" Json.Decode.id) (← m.required "then_target" Json.Decode.id)
      (← m.required "then_args" (list Json.Decode.id)) (← m.required "else_target" Json.Decode.id)
      (← m.required "else_args" (list Json.Decode.id)))
  | "return" => do
    let m ← Members.ofJson ["value"] v
    some (.ret (← m.required "value" Json.Decode.id))
  | _ => none

def Terminator.decoder : Decoder Terminator := fun v => do
  let (kind, rest) ← tagged "kind" str v
  Terminator.decoderOf kind rest

def Terminator.toJson : Terminator → Json
  | jump target args =>
    .obj [("kind", .str "jump"), ("target", .ofNat target), ("args", .ofList .ofNat args)]
  | branch cond thenTarget thenArgs elseTarget elseArgs =>
    .obj [("kind", .str "branch"), ("cond", .ofNat cond),
      ("then_target", .ofNat thenTarget), ("then_args", .ofList .ofNat thenArgs),
      ("else_target", .ofNat elseTarget), ("else_args", .ofList .ofNat elseArgs)]
  | ret value => .obj [("kind", .str "return"), ("value", .ofNat value)]

def Statement.decoder : Decoder Statement := fun v => do
  let m ← Members.ofJson ["result", "op"] v
  some ⟨← m.required "result" Json.Decode.id, ← m.required "op" Op.decoder⟩

def Statement.toJson (s : Statement) : Json :=
  .obj [("result", .ofNat s.result), ("op", s.op.toJson)]

def Block.decoder : Decoder Block := fun v => do
  let m ← Members.ofJson ["params", "statements", "terminator"] v
  some ⟨← m.withDefault "params" (list Json.Decode.id) [],
    ← m.required "statements" (list Statement.decoder),
    ← m.required "terminator" Terminator.decoder⟩

def Block.toJson (b : Block) : Json :=
  .obj [("params", .ofList .ofNat b.params),
    ("statements", .ofList Statement.toJson b.statements),
    ("terminator", b.terminator.toJson)]

def Program.decoder : Decoder Program := fun v => do
  let m ← Members.ofJson ["blocks", "num_values"] v
  some ⟨← m.required "blocks" (list Block.decoder), ← m.required "num_values" Json.Decode.id⟩

def Program.toJson (p : Program) : Json :=
  .obj [("blocks", .ofList Block.toJson p.blocks), ("num_values", .ofNat p.numValues)]

def GateLayer.decoderOf (gate : String) : Decoder GateLayer := fun v =>
  match gate with
  | "cz" => do
    let m ← Members.ofJson ["controls", "targets"] v
    some (.cz (← m.required "controls" (list Json.Decode.id)) (← m.required "targets" (list Json.Decode.id)))
  | "local_r" => do
    let m ← Members.ofJson ["qubits", "axis_angle", "rotation_angle"] v
    some (.localR (← m.required "qubits" (list Json.Decode.id)) (← m.required "axis_angle" number)
      (← m.required "rotation_angle" number))
  | "global_r" => do
    let m ← Members.ofJson ["axis_angle", "rotation_angle"] v
    some (.globalR (← m.required "axis_angle" number) (← m.required "rotation_angle" number))
  | "local_rz" => do
    let m ← Members.ofJson ["qubits", "rotation_angle"] v
    some (.localRz (← m.required "qubits" (list Json.Decode.id)) (← m.required "rotation_angle" number))
  | "global_rz" => do
    let m ← Members.ofJson ["rotation_angle"] v
    some (.globalRz (← m.required "rotation_angle" number))
  | "measure" => do
    let _ ← Members.ofJson [] v
    some .measure
  | "detector" => do
    let m ← Members.ofJson ["qubits", "coordinates"] v
    some (.detector (← m.required "qubits" (list Json.Decode.id))
      (← m.withDefault "coordinates" (list number) []))
  | "observable" => do
    let m ← Members.ofJson ["qubits"] v
    some (.observable (← m.required "qubits" (list Json.Decode.id)))
  | _ => none

def GateLayer.decoder : Decoder GateLayer := fun v => do
  let (gate, rest) ← tagged "gate" str v
  GateLayer.decoderOf gate rest

def GateLayer.toJson : GateLayer → Json
  | cz controls targets =>
    .obj [("gate", .str "cz"), ("controls", .ofList .ofNat controls),
      ("targets", .ofList .ofNat targets)]
  | localR qubits axis rotation =>
    .obj [("gate", .str "local_r"), ("qubits", .ofList .ofNat qubits),
      ("axis_angle", .float axis), ("rotation_angle", .float rotation)]
  | globalR axis rotation =>
    .obj [("gate", .str "global_r"), ("axis_angle", .float axis),
      ("rotation_angle", .float rotation)]
  | localRz qubits rotation =>
    .obj [("gate", .str "local_rz"), ("qubits", .ofList .ofNat qubits),
      ("rotation_angle", .float rotation)]
  | globalRz rotation => .obj [("gate", .str "global_rz"), ("rotation_angle", .float rotation)]
  | measure => .obj [("gate", .str "measure")]
  | detector qubits coordinates =>
    .obj [("gate", .str "detector"), ("qubits", .ofList .ofNat qubits),
      ("coordinates", .ofList .float coordinates)]
  | observable qubits => .obj [("gate", .str "observable"), ("qubits", .ofList .ofNat qubits)]

def GateProgram.decoder : Decoder GateProgram := fun v => do
  let m ← Members.ofJson ["num_qubits", "layers"] v
  some ⟨← m.required "num_qubits" Json.Decode.id, ← m.required "layers" (list GateLayer.decoder)⟩

def GateProgram.toJson (p : GateProgram) : Json :=
  .obj [("num_qubits", .ofNat p.numQubits), ("layers", .ofList GateLayer.toJson p.layers)]

end AtomTransport
