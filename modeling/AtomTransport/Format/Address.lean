import AtomTransport.Encoding
import AtomTransport.Json.Decode
import AtomTransport.Path

/-!
# Documents of addresses and paths

The JSON forms of locations, lanes, zones and paths, and their decoders.
-/

namespace AtomTransport

open Json (Decoder Members tagged)
open Json.Decode (str number couple list set idMap oneOf oneOfInside tagInside)

def Direction.table : List (String × Direction) :=
  [("Forward", .forward), ("Backward", .backward)]

def Direction.decoder : Decoder Direction := oneOf table

def Direction.decoderInside : Decoder Direction := oneOfInside table

def Direction.toJson : Direction → Json
  | forward => .str "Forward"
  | backward => .str "Backward"

def Location.decoder : Decoder Location := fun v => do
  let m ← Members.ofJson ["word_id", "site_id"] v
  let word ← m.required "word_id" Json.Decode.id
  let site ← m.required "site_id" Json.Decode.id
  some ⟨word, site⟩

def Location.toJson (l : Location) : Json :=
  .obj [("word_id", .ofNat l.word), ("site_id", .ofNat l.site)]

def Lane.decoderAs (kind : LaneKind) (direction : Decoder Direction := Direction.decoder) :
    Decoder Lane := fun v => do
  let m ← Members.ofJson ["word_id", "site_id", "bus_id", "direction"] v
  let word ← m.required "word_id" Json.Decode.id
  let site ← m.required "site_id" Json.Decode.id
  let bus ← m.required "bus_id" Json.Decode.id
  let direction ← m.required "direction" direction
  some ⟨kind, word, site, bus, direction⟩

def Lane.decoderTagged (tag : Decoder String) : Decoder Lane := fun v => do
  let (kind, rest) ← tagged "kind" tag v
  match kind with
  | "site" => Lane.decoderAs .site Direction.decoderInside rest
  | "word" => Lane.decoderAs .word Direction.decoderInside rest
  | _ => none

def Lane.decoder : Decoder Lane := Lane.decoderTagged str

def Lane.decoderInside : Decoder Lane := Lane.decoderTagged (tagInside ["site", "word"])

def Lane.members (l : Lane) : List (String × Json) :=
  [("word_id", .ofNat l.word), ("site_id", .ofNat l.site), ("bus_id", .ofNat l.bus),
    ("direction", l.direction.toJson)]

def Lane.toJson (l : Lane) : Json := .obj (("kind", .str l.kind.text) :: l.members)

def Zone.decoder : Decoder Zone := fun v => do
  let m ← Members.ofJson ["zone_id"] v
  let zone ← m.required "zone_id" Json.Decode.id
  some ⟨zone⟩

def Zone.toJson (z : Zone) : Json := .obj [("zone_id", .ofNat z.id)]

def Encoding.table : List (String × Encoding) := [("Bit32", .bits32), ("Bit64", .bits64)]

def Encoding.decoder : Decoder Encoding := oneOf table

def Encoding.toJson : Encoding → Json
  | bits32 => .str "Bit32"
  | bits64 => .str "Bit64"

def Segment.decoder : Decoder Segment := fun v => do
  let m ← Members.ofJson ["lane", "src", "dst"] v
  let lane ← m.required "lane" Lane.decoder
  let src ← m.required "src" Location.decoder
  let dst ← m.required "dst" Location.decoder
  some ⟨lane, src, dst⟩

def Segment.toJson (s : Segment) : Json :=
  .obj [("lane", s.lane.toJson), ("src", s.src.toJson), ("dst", s.dst.toJson)]

def Path.decoder : Decoder Path := fun v => do
  let m ← Members.ofJson ["start", "segments"] v
  let start ← m.required "start" Location.decoder
  let segments ← m.required "segments" (list Segment.decoder)
  some ⟨start, segments⟩

def Path.toJson (p : Path) : Json :=
  .obj [("start", p.start.toJson), ("segments", .ofList Segment.toJson p.segments)]

end AtomTransport
