import AtomTransport.Compiler
import AtomTransport.Format.Address

/-!
# Documents of placements and compilations

The JSON forms of placements, initial layouts, move layers and settings, and their decoders.
-/

namespace AtomTransport

open Json (Decoder Members tagged)
open Json.Decode (number couple list set idMap oneOf)

/-- Counts of 32 bits are plain numbers in documents. -/
instance coeUInt32Nat : Coe UInt32 Nat := ⟨UInt32.toNat⟩

instance coeListNatUInt32 : Coe (List Nat) (List UInt32) := ⟨List.map .ofNat⟩

def Placement.decoder : Decoder Placement := fun v => do
  let m ← Members.ofJson ["occupied", "layout", "move_count"] v
  some ⟨← m.required "occupied" (set Location.decoder),
    ← m.required "layout" (list Location.decoder),
    ← m.required "move_count" (list Json.Decode.id)⟩

def Placement.toJson (p : Placement) : Json :=
  .obj [("occupied", .ofList Location.toJson p.occupied),
    ("layout", .ofList Location.toJson p.layout),
    ("move_count", .ofList (fun n : UInt32 => .ofNat n) p.moves)]

/-- What follows from a tag without content, which may be absent or `null`. -/
def noContent {α : Type} (result : α) : Option Json → Option α
  | none => some result
  | some .null => some result
  | some _ => none

/-- The tags of what is known about a placement, and what each makes of the content beside it. -/
def PlacementInfo.tags : List (String × (Option Json → Option PlacementInfo)) :=
  [("not_state", noContent .nothing), ("any_state", noContent .anything),
    ("concrete", fun content => (content.bind Placement.decoder).map .known)]

def PlacementInfo.decoder : Decoder PlacementInfo := fun v => do
  match v with
  | .arr [.str tag, content] => (← tags.lookup tag) (some content)
  | .arr _ => none
  | v =>
    let m ← Members.ofJson ["kind", "state"] v
    (← m.required "kind" (oneOf tags)) (m.lookup "state")

def PlacementInfo.toJson : PlacementInfo → Json
  | nothing => .obj [("kind", .str "not_state")]
  | anything => .obj [("kind", .str "any_state")]
  | known p => .obj [("kind", .str "concrete"), ("state", p.toJson)]

def InitialLayout.decoder : Decoder InitialLayout := fun v => do
  let m ← Members.ofJson ["sites", "reserved"] v
  some ⟨← m.required "sites" (list Location.decoder),
    ← m.withDefault "reserved" (set Location.decoder) []⟩

def LayerPlacement.decoder : Decoder LayerPlacement := fun v => do
  let m ← Members.ofJson ["index", "before", "after", "paths"] v
  some ⟨← m.required "index" Json.Decode.size, ← m.required "before" PlacementInfo.decoder,
    ← m.required "after" PlacementInfo.decoder,
    ← m.withDefault "paths" (idMap Path.decoder) []⟩

/-- A layer without movement has no paths member. -/
def LayerPlacement.toJson (l : LayerPlacement) : Json :=
  let paths := if l.paths.isEmpty then []
    else [("paths", Json.obj (l.paths.map fun (q, p) => (toString q, p.toJson)))]
  .obj ([("index", .ofNat l.index), ("before", l.before.toJson), ("after", l.after.toJson)] ++ paths)

def MoveLayer.decoder : Decoder MoveLayer := fun v => do
  let m ← Members.ofJson ["lanes"] v
  some ⟨← m.required "lanes" (list Lane.decoder)⟩

def MoveLayer.toJson (l : MoveLayer) : Json := .obj [("lanes", .ofList Lane.toJson l.lanes)]

def Strategy.decoder : Decoder Strategy := oneOf (Strategy.all.map fun s => (s.name, s))

def HeuristicKind.decoder : Decoder HeuristicKind := oneOf (HeuristicKind.all.map fun k => (k.name, k))

def Config.decoder : Decoder Config := fun v => do
  let m ← Members.ofJson ["strategy", "heuristic", "validate", "max_iterations"] v
  let base : Config := {}
  some ⟨← m.withDefault "strategy" Strategy.decoder base.strategy,
    ← m.withDefault "heuristic" HeuristicKind.decoder base.heuristic,
    ← m.withDefault "validate" Json.Decode.bool base.validate,
    ← m.withDefault "max_iterations" Json.Decode.size base.maxVisits⟩

def Config.toJson (c : Config) : Json :=
  .obj [("strategy", .str c.strategy.name), ("heuristic", .str c.heuristic.name),
    ("validate", .bool c.validate), ("max_iterations", .ofNat c.maxVisits)]

end AtomTransport
