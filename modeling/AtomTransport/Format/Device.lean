import AtomTransport.Device
import AtomTransport.Format.Address

/-!
# Documents of devices

The JSON form of a blueprint and its decoder. Maps are objects with identifiers as member names.
-/

namespace AtomTransport

open Json (Decoder Members tagged)
open Json.Decode (number couple list set idMap oneOf)

def Bus.decoder : Decoder Bus := fun v => do
  let m ← Members.ofJson ["src", "dst"] v
  let sources ← m.required "src" (list Json.Decode.id)
  let destinations ← m.required "dst" (list Json.Decode.id)
  some ⟨sources, destinations⟩

def Bus.toJson (b : Bus) : Json :=
  .obj [("src", .ofList .ofNat b.sources), ("dst", .ofList .ofNat b.destinations)]

def Word.decoder : Decoder Word := fun v => do
  let m ← Members.ofJson ["sites", "cz_pair"] v
  let sites ← m.required "sites" (list (couple number number))
  let partners ← m.withDefault "cz_pair" (idMap Json.Decode.id) []
  some ⟨sites, partners⟩

def Word.toJson (w : Word) : Json :=
  .obj [("sites", .ofList (fun (x, y) => .arr [.float x, .float y]) w.sites),
    ("cz_pair", .obj (w.partners.map fun (k, v) => (toString k, .ofNat v)))]

def Compatibility.decoder : Decoder Compatibility := idMap (set Json.Decode.id)

def Compatibility.toJson (t : Compatibility) : Json :=
  .obj (t.map fun (k, row) => (toString k, .ofList .ofNat row))

def Blueprint.decoder : Decoder Blueprint := fun v => do
  let m ← Members.ofJson ["words", "zones", "has_site_buses", "has_word_buses", "site_buses",
    "word_buses", "site_bus_compatibility", "word_bus_compatibility"] v
  let words ← m.required "words" (list Word.decoder)
  let zones ← m.required "zones" (list (list Json.Decode.id))
  let siteBusWords ← m.required "has_site_buses" (set Json.Decode.id)
  let wordBusSites ← m.required "has_word_buses" (set Json.Decode.id)
  let siteBuses ← m.required "site_buses" (list Bus.decoder)
  let wordBuses ← m.required "word_buses" (list Bus.decoder)
  let siteTable ← m.withDefault "site_bus_compatibility" Compatibility.decoder []
  let wordTable ← m.withDefault "word_bus_compatibility" Compatibility.decoder []
  some ⟨words, zones, siteBusWords, wordBusSites, siteBuses, wordBuses, siteTable, wordTable⟩

def Blueprint.toJson (b : Blueprint) : Json :=
  .obj [("words", .ofList Word.toJson b.words),
    ("zones", .ofList (.ofList .ofNat) b.zones),
    ("has_site_buses", .ofList .ofNat b.siteBusWords),
    ("has_word_buses", .ofList .ofNat b.wordBusSites),
    ("site_buses", .ofList Bus.toJson b.siteBuses),
    ("word_buses", .ofList Bus.toJson b.wordBuses),
    ("site_bus_compatibility", b.siteBusCompatibility.toJson),
    ("word_bus_compatibility", b.wordBusCompatibility.toJson)]

end AtomTransport
