import AtomTransport.Address

/-!
# Packed addresses

Locations, lanes and zones are packed into integers, field by field from the least significant bit.
All identifiers of one encoding have the same width: 10 bits in the 32-bit encoding and 20 bits in
the 64-bit encoding. Unpacking accepts exactly the integers that packing produces.
-/

namespace AtomTransport

inductive Encoding where
  | bits32
  | bits64
  deriving DecidableEq

namespace Encoding

def fieldBits : Encoding → Nat
  | bits32 => 10
  | bits64 => 20

def totalBits : Encoding → Nat
  | bits32 => 32
  | bits64 => 64

def maxId (e : Encoding) : Nat := Nat.pow 2 e.fieldBits - 1

def maxAddress (e : Encoding) : Nat := Nat.pow 2 e.totalBits - 1

def text : Encoding → String
  | bits32 => "32-bit"
  | bits64 => "64-bit"

end Encoding

inductive Field where
  | direction
  | tag
  | bus
  | site
  | word
  | zone
  deriving DecidableEq

def Field.text : Field → String
  | direction => "direction"
  | tag => "tag"
  | bus => "bus_id"
  | site => "site_id"
  | word => "word_id"
  | zone => "zone_id"

inductive EncodingError where
  | idTooLarge (id limit : Nat)
  | fieldOverflow (field : Field) (value bits : Nat)
  | addressOutOfRange (address : Nat) (encoding : Encoding)
  | trailingBits (address : Nat)
  | laneKindMismatch (address : Nat) (found expected : LaneKind)
  deriving DecidableEq

def hexText (n : Nat) : String := "0x" ++ String.ofList (Nat.toDigits 16 n)

def EncodingError.message : EncodingError → String
  | idTooLarge id limit =>
    "Id " ++ toString id ++ " exceeds the largest encodable id " ++ toString limit
  | fieldOverflow field value bits =>
    "Field '" ++ field.text ++ "' value " ++ toString value ++ " does not fit in " ++
      toString bits ++ " bits"
  | addressOutOfRange address encoding =>
    "Address " ++ hexText address ++ " is out of range for " ++ encoding.text ++ " encoding"
  | trailingBits address => "Address " ++ hexText address ++ " has stray bits beyond its fields"
  | laneKindMismatch address found expected =>
    "Address " ++ hexText address ++ " encodes a " ++ found.text ++ " lane, expected a " ++
      expected.text ++ " lane"

namespace Encoding

def infer (id : Nat) : Except EncodingError Encoding :=
  if id ≤ bits32.maxId then .ok bits32
  else if id ≤ bits64.maxId then .ok bits64
  else .error (.idTooLarge id bits64.maxId)

/-- Packs the fields of a list, each given by its value and its width, the first one lowest. -/
def pack : List (Field × Nat × Nat) → Except EncodingError Nat
  | [] => .ok 0
  | (field, value, bits) :: rest =>
    if value < Nat.pow 2 bits then
      (pack rest).map fun high => value + Nat.pow 2 bits * high
    else .error (.fieldOverflow field value bits)

/-- Cuts an address into fields of the given widths. Nothing may remain above them. -/
def unpack (e : Encoding) (widths : List Nat) (address : Nat) : Except EncodingError (List Nat) :=
  if e.maxAddress < address then .error (.addressOutOfRange address e)
  else if address / Nat.pow 2 (widths.foldl (· + ·) 0) ≠ 0 then .error (.trailingBits address)
  else .ok (cut widths address)
where
  cut : List Nat → Nat → List Nat
    | [], _ => []
    | w :: ws, a => a % Nat.pow 2 w :: cut ws (a / Nat.pow 2 w)

end Encoding

/-- The address of a location: the site below the word. -/
def Location.encode (e : Encoding) (l : Location) : Except EncodingError Nat :=
  Encoding.pack [(.site, l.site, e.fieldBits), (.word, l.word, e.fieldBits)]

def Location.decode (e : Encoding) (address : Nat) : Except EncodingError Location :=
  (e.unpack [e.fieldBits, e.fieldBits] address).map fun fields =>
    ⟨fields.getD 1 0, fields.getD 0 0⟩

/-- The address of a lane: direction, tag, bus, site and word from the lowest bit upwards. -/
def Lane.encode (e : Encoding) (l : Lane) : Except EncodingError Nat :=
  Encoding.pack [(.direction, l.direction.bit, 1), (.tag, l.kind.bit, 1),
    (.bus, l.bus, e.fieldBits), (.site, l.site, e.fieldBits), (.word, l.word, e.fieldBits)]

def Lane.decode (e : Encoding) (address : Nat) : Except EncodingError Lane :=
  (e.unpack [1, 1, e.fieldBits, e.fieldBits, e.fieldBits] address).map fun fields =>
    { kind := LaneKind.ofBit (fields.getD 1 0)
      word := fields.getD 4 0
      site := fields.getD 3 0
      bus := fields.getD 2 0
      direction := Direction.ofBit (fields.getD 0 0) }

def Lane.decodeAs (kind : LaneKind) (e : Encoding) (address : Nat) : Except EncodingError Lane :=
  match Lane.decode e address with
  | .error err => .error err
  | .ok lane =>
    if lane.kind = kind then .ok lane
    else .error (.laneKindMismatch address lane.kind kind)

def Zone.encode (e : Encoding) (z : Zone) : Except EncodingError Nat :=
  Encoding.pack [(.zone, z.id, e.fieldBits)]

def Zone.decode (e : Encoding) (address : Nat) : Except EncodingError Zone :=
  (e.unpack [e.fieldBits] address).map fun fields => ⟨fields.getD 0 0⟩

end AtomTransport
