import AtomTransport.Ascending
import AtomTransport.Binary64
import AtomTransport.Encoding

/-!
# Blueprints

A blueprint lists the parts of a device: its words with their sites and blockade pairs, its zones,
and its buses with the places that can ride them. `Blueprint.fault?` finds the first reference that
does not fit, in a fixed order of checks.
-/

namespace AtomTransport

/-- A parallelism group of lanes. Sources and destinations correspond by position; they are sites of
a word for a site bus and words for a word bus. -/
structure Bus where
  sources : List Nat
  destinations : List Nat
  deriving DecidableEq

namespace Bus

def pairs (b : Bus) : List (Nat × Nat) := b.sources.zip b.destinations

def destination? (b : Bus) (source : Nat) : Option Nat :=
  (b.sources.findIdx? (· = source)).bind fun i => b.destinations[i]?

end Bus

structure Word where
  sites : List (Binary64 × Binary64)
  partners : List (Nat × Nat) := []
  deriving DecidableEq

namespace Word

def size (w : Word) : Nat := w.sites.length

def hasSite (w : Word) (site : Nat) : Bool := site < w.size

def partner? (w : Word) (site : Nat) : Option Nat := Ascending.get? site w.partners

def pair (w : Word) (a b : Nat) : Word :=
  { w with partners := Ascending.put b a (Ascending.put a b w.partners) }

/-- A pairing joins two different existing sites, each of which names the other. -/
def soundPair (w : Word) (site partner : Nat) : Bool :=
  w.hasSite site && w.hasSite partner && site ≠ partner && w.partner? partner = some site

end Word

def firstOutside? (limit : Nat) (ids : List Nat) : Option Nat := ids.find? (limit ≤ ·)

/-- For every word the words that may run a bus in the same step. -/
abbrev Compatibility := List (Nat × List Nat)

namespace Compatibility

def row (t : Compatibility) (word : Nat) : List Nat := (Ascending.get? word t).getD []

def lists (t : Compatibility) (a b : Nat) : Bool := (t.row a).contains b

def enlist (t : Compatibility) (a b : Nat) : Compatibility :=
  Ascending.put a (Ascending.insert b (t.row a)) t

def mirror (a : Nat) (t : Compatibility) (b : Nat) : Compatibility :=
  if b = a then t else (t.enlist a b).enlist b a

end Compatibility

structure Blueprint where
  words : List Word
  zones : List (List Nat)
  siteBusWords : List Nat
  wordBusSites : List Nat
  siteBuses : List Bus
  wordBuses : List Bus
  siteBusCompatibility : Compatibility := []
  wordBusCompatibility : Compatibility := []
  deriving DecidableEq

inductive ReferenceTable where
  | siteBusWords
  | wordBusSites
  | siteBusCompatibility
  | wordBusCompatibility
  deriving DecidableEq

def ReferenceTable.text : ReferenceTable → String
  | siteBusWords => "has_site_buses"
  | wordBusSites => "has_word_buses"
  | siteBusCompatibility => "site_bus_compatibility"
  | wordBusCompatibility => "word_bus_compatibility"

inductive BlueprintError where
  | noWords
  | encoding (cause : EncodingError)
  | busLengthMismatch (kind : LaneKind) (bus sources destinations : Nat)
  | busOutOfRange (kind : LaneKind) (bus id : Nat)
  | zoneOutOfRange (zone word : Nat)
  | invalidPairing (word site partner : Nat)
  | unknownReference (table : ReferenceTable) (id : Nat)
  deriving DecidableEq

def BlueprintError.message : BlueprintError → String
  | noWords => "Architecture has no words"
  | encoding cause => "Encoding error: " ++ cause.message
  | busLengthMismatch kind bus sources destinations =>
    kind.text ++ " bus " ++ toString bus ++ " has " ++ toString sources ++ " sources but " ++
      toString destinations ++ " destinations"
  | busOutOfRange kind bus id =>
    kind.text ++ " bus " ++ toString bus ++ " references unknown id " ++ toString id
  | zoneOutOfRange zone word =>
    "Zone " ++ toString zone ++ " references unknown word " ++ toString word
  | invalidPairing word site partner =>
    "Word " ++ toString word ++ ": invalid CZ pairing " ++ toString site ++ " <-> " ++
      toString partner
  | unknownReference table id => table.text ++ " references unknown id " ++ toString id

def checkReferences (table : ReferenceTable) (limit : Nat) (ids : List Nat) : Except BlueprintError Unit :=
  match firstOutside? limit ids with
  | some id => .error (.unknownReference table id)
  | none => .ok ()

/-- The table in which a listing on either side counts for both. The identifiers of an entry are checked
before its listings are mirrored, the key before its row. -/
def Compatibility.symmetrize (table : ReferenceTable) (limit : Nat) (t : Compatibility) :
    Except BlueprintError Compatibility :=
  t.foldlM (fun result entry => do
    checkReferences table limit (entry.1 :: entry.2)
    .ok (entry.2.foldl (mirror entry.1) result)) []

namespace Blueprint

def maxSites (b : Blueprint) : Nat := b.words.foldl (fun n w => max n w.size) 0

def pairingFault? (b : Blueprint) : Option BlueprintError :=
  b.words.zipIdx.findSome? fun (w, i) =>
    (w.partners.find? fun p => !w.soundPair p.1 p.2).map fun p => .invalidPairing i p.1 p.2

def zoneFault? (b : Blueprint) : Option BlueprintError :=
  b.zones.zipIdx.findSome? fun (zone, i) =>
    (firstOutside? b.words.length zone).map (.zoneOutOfRange i)

def busFault? (kind : LaneKind) (limit : Nat) (buses : List Bus) : Option BlueprintError :=
  buses.zipIdx.findSome? fun (bus, i) =>
    if bus.sources.length ≠ bus.destinations.length then
      some (.busLengthMismatch kind i bus.sources.length bus.destinations.length)
    else (firstOutside? limit (bus.sources ++ bus.destinations)).map (.busOutOfRange kind i)

/-- The first fault of a blueprint: pairings, zones, buses, and the places that ride buses. -/
def fault? (b : Blueprint) : Option BlueprintError :=
  b.pairingFault?
    <|> b.zoneFault?
    <|> busFault? .site b.maxSites b.siteBuses
    <|> busFault? .word b.words.length b.wordBuses
    <|> (firstOutside? b.words.length b.siteBusWords).map (.unknownReference .siteBusWords)
    <|> (firstOutside? b.maxSites b.wordBusSites).map (.unknownReference .wordBusSites)

def maxId (b : Blueprint) : Nat :=
  max b.words.length (max b.maxSites
    (max b.siteBuses.length (max b.wordBuses.length b.zones.length))) - 1

end Blueprint

end AtomTransport
