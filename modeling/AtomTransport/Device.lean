import AtomTransport.Device.Blueprint

/-!
# Devices

A device is a blueprint without faults, with symmetric compatibility tables, together with the
narrowest encoding that holds all its addresses. The queries here say which addresses exist, where
a lane starts and ends, which sites interact, and which lanes may run in one step.
-/

namespace AtomTransport

structure Device where
  blueprint : Blueprint
  encoding : Encoding
  deriving DecidableEq

inductive AddressError where
  | unknownWord (word : Nat)
  | unknownSite (word site : Nat)
  | unknownBus (kind : LaneKind) (bus : Nat)
  | noSiteBuses (word : Nat)
  | noWordBuses (site : Nat)
  | laneNotInBus (lane : Lane)
  | unknownZone (zone : Nat)
  | incompatibleLanes (first second : Lane)
  deriving DecidableEq

def AddressError.message : AddressError → String
  | unknownWord word => "Unknown word " ++ toString word
  | unknownSite word site => "Unknown site " ++ toString site ++ " in word " ++ toString word
  | unknownBus kind bus => "Unknown " ++ kind.text ++ " bus " ++ toString bus
  | noSiteBuses word => "Word " ++ toString word ++ " has no site buses"
  | noWordBuses site => "Site " ++ toString site ++ " has no word buses"
  | laneNotInBus lane => "Lane " ++ lane.text ++ " is not part of its bus"
  | unknownZone zone => "Unknown zone " ++ toString zone
  | incompatibleLanes first second =>
    "Lanes " ++ first.text ++ " and " ++ second.text ++ " cannot execute in parallel"

namespace Device

def ofBlueprint (b : Blueprint) : Except BlueprintError Device :=
  if b.words.isEmpty then .error .noWords
  else
    match b.fault? with
    | some fault => .error fault
    | none => do
      let siteTable ← b.siteBusCompatibility.symmetrize .siteBusCompatibility b.words.length
      let wordTable ← b.wordBusCompatibility.symmetrize .wordBusCompatibility b.words.length
      let encoding ← (Encoding.infer b.maxId).mapError .encoding
      .ok ⟨{ b with siteBusCompatibility := siteTable, wordBusCompatibility := wordTable }, encoding⟩

variable (d : Device)

def words : List Word := d.blueprint.words

def word? (word : Nat) : Option Word := d.words[word]?

def zones : List (List Nat) := d.blueprint.zones

def buses : LaneKind → List Bus
  | .site => d.blueprint.siteBuses
  | .word => d.blueprint.wordBuses

def hasSiteBuses (word : Nat) : Bool := d.blueprint.siteBusWords.contains word

def hasWordBuses (site : Nat) : Bool := d.blueprint.wordBusSites.contains site

def wordLocations (word : Nat) : List Location :=
  match d.word? word with
  | some w => (List.range w.size).map fun site => ⟨word, site⟩
  | none => []

def locations : List Location := (List.range d.words.length).flatMap d.wordLocations

def compatibility : LaneKind → Compatibility
  | .site => d.blueprint.siteBusCompatibility
  | .word => d.blueprint.wordBusCompatibility

/-- Two lanes may run in one step when they share their signature, differ in word or site, and
their words are equal or listed together. -/
def compatible (first second : Lane) : Bool :=
  first.signature = second.signature
    && !(first.word = second.word && first.site = second.site)
    && (first.word = second.word
      || (d.compatibility first.kind).lists first.word second.word)

def checkLocation (l : Location) : Except AddressError Unit :=
  match d.word? l.word with
  | none => .error (.unknownWord l.word)
  | some w => if w.hasSite l.site then .ok () else .error (.unknownSite l.word l.site)

def checkZone (z : Zone) : Except AddressError Unit :=
  if z.id < d.zones.length then .ok () else .error (.unknownZone z.id)

/-- Whether the place that a lane names can ride the buses of its kind. A word that does not exist
is reported as such. -/
def checkRider (lane : Lane) : Except AddressError Unit :=
  match lane.kind with
  | .site =>
    if d.hasSiteBuses lane.word then .ok ()
    else
      match d.checkLocation ⟨lane.word, 0⟩ with
      | .error e => .error e
      | .ok () => .error (.noSiteBuses lane.word)
  | .word => if d.hasWordBuses lane.site then .ok () else .error (.noWordBuses lane.site)

def laneSides (lane : Lane) : Except AddressError (Location × Location) :=
  match (d.buses lane.kind)[lane.bus]? with
  | none => .error (.unknownBus lane.kind lane.bus)
  | some bus => do
    d.checkRider lane
    match lane.kind with
    | .site =>
      match bus.destination? lane.site with
      | some site => .ok (⟨lane.word, lane.site⟩, ⟨lane.word, site⟩)
      | none => .error (.laneNotInBus lane)
    | .word =>
      match bus.destination? lane.word with
      | some word => .ok (⟨lane.word, lane.site⟩, ⟨word, lane.site⟩)
      | none => .error (.laneNotInBus lane)

def endpoints (lane : Lane) : Except AddressError (Location × Location) := do
  let (source, destination) ← d.laneSides lane
  d.checkLocation source
  d.checkLocation destination
  match lane.direction with
  | .forward => .ok (source, destination)
  | .backward => .ok (destination, source)

def checkLane (lane : Lane) : Except AddressError Unit := (d.endpoints lane).map fun _ => ()

/-- The first lane of a bus that leads from one end to the other. The two ends are sites of one word
or words of one site, and `lane` completes the source-side end to a forward lane. -/
def busLane? (bus : Bus) (lane : Nat → Lane) (src dst : Nat) : Option Lane :=
  bus.pairs.findSome? fun (s, t) =>
    if s = src ∧ t = dst then some (lane s)
    else if t = src ∧ s = dst then some (lane s).reverse
    else none

def siteLaneBetween? (word src dst : Nat) : Option Lane :=
  if d.hasSiteBuses word then
    (d.buses .site).zipIdx.findSome? fun (bus, i) =>
      busLane? bus (fun s => ⟨.site, word, s, i, .forward⟩) src dst
  else none

/-- The word lane that carries a site from one word to another, on the lowest bus that has one. -/
def wordLaneBetween? (site src dst : Nat) : Option Lane :=
  if d.hasWordBuses site then
    (d.buses .word).zipIdx.findSome? fun (bus, i) =>
      busLane? bus (fun s => ⟨.word, s, site, i, .forward⟩) src dst
  else none

/-- The location that interacts with the given one under an entangling gate. -/
def blockaded? (l : Location) : Option Location :=
  ((d.word? l.word).bind fun w => w.partner? l.site).map fun site => ⟨l.word, site⟩

def zoneOf? (l : Location) : Option Zone :=
  (d.zones.findIdx? (·.contains l.word)).map fun i => ⟨i⟩

def zoneWords? (z : Zone) : Option (List Nat) := d.zones[z.id]?

def zoneLocations? (z : Zone) : Option (List Location) :=
  (d.zoneWords? z).map fun words => words.flatMap d.wordLocations

def zoneIndex? (z : Zone) (l : Location) : Option Nat :=
  (d.zoneLocations? z).bind fun locations => locations.findIdx? (· = l)

end Device

end AtomTransport
