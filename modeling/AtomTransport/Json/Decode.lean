import AtomTransport.Ascending
import AtomTransport.Json

/-!
# Decoding JSON values

A decoder turns a JSON value into a value of another type or rejects it. A record is written as an
object, in which unknown members are ignored, or as a list of its members in a fixed order. Of
several alternatives the member that holds the tag decides. A tagged record is read as a whole before
it is decoded, so nothing in it may be unread; in return, names and tags inside of it may take more
forms.
-/

namespace AtomTransport.Json

abbrev Decoder (α : Type) := Json → Option α

namespace Decode

variable {α β : Type}

def bool : Decoder Bool
  | .bool b => some b
  | _ => none

def str : Decoder String
  | .str s => some s
  | _ => none

def natBelow (bound : Nat) : Decoder Nat
  | .int n => if 0 ≤ n ∧ n < bound then some n.toNat else none
  | _ => none

def id : Decoder Nat := natBelow (Nat.pow 2 32)

def size : Decoder Nat := natBelow (Nat.pow 2 64)

def int : Decoder Int
  | .int n => if n < Int.pow 2 63 then some n else none
  | _ => none

def number : Decoder Binary64
  | .int n => some (Binary64.ofInt n)
  | .float x => some x
  | _ => none

def each (f : Decoder α) : List Json → Option (List α)
  | [] => some []
  | v :: vs => do
    let a ← f v
    let as ← each f vs
    some (a :: as)

def list (f : Decoder α) : Decoder (List α)
  | .arr items => each f items
  | _ => none

def couple (f : Decoder α) (g : Decoder β) : Decoder (α × β)
  | .arr [a, b] => do
    let a ← f a
    let b ← g b
    some (a, b)
  | _ => none

def set [LT α] [DecidableLT α] [DecidableEq α] (f : Decoder α) : Decoder (List α) :=
  fun v => (list f v).map Ascending.ofList

/-- The decimal digits of an identifier as a member name, without leading zeros. -/
def idKey (name : String) : Option Nat :=
  let digits := name.toList
  if digits.isEmpty || !digits.all Char.isDigit || (digits.head? = some '0' && digits.length ≠ 1) then
    none
  else
    let n := digits.foldl (fun n c => n * 10 + (c.toNat - '0'.toNat)) 0
    if n < Nat.pow 2 32 then some n else none

def idMap (f : Decoder α) : Decoder (List (Nat × α))
  | .obj members => do
    let bindings ← members.mapM fun m => do
      let k ← idKey m.1
      let a ← f m.2
      some (k, a)
    some (Ascending.ofPairs bindings)
  | _ => none

def nullable (f : Decoder α) : Decoder (Option α)
  | .null => some none
  | v => (f v).map some

/-- A name that stands for one of finitely many values: a string, or an object whose only member has
that name and no content. -/
def oneOf (table : List (String × α)) : Decoder α
  | .str s => table.lookup s
  | .obj [(s, .null)] => table.lookup s
  | _ => none

/-- The form of `oneOf` inside a tagged record, where an empty object is no content either. -/
def oneOfInside (table : List (String × α)) : Decoder α
  | .obj [(s, .obj [])] => table.lookup s
  | v => oneOf table v

/-- A tag inside a tagged record: its text, or its position among the tags. -/
def tagInside (tags : List String) : Decoder String
  | .int n => if 0 ≤ n then tags[n.toNat]? else none
  | v => str v

end Decode

abbrev Members := List (String × Json)

namespace Members

/-- The members of a record with the given names. A name may not occur twice, and a list may not be
longer than the names. -/
def ofJson (names : List String) : Json → Option Members
  | .obj members =>
    let known := members.filter fun m => names.contains m.1
    if (known.map (·.1)).eraseDups.length = known.length then some known else none
  | .arr items => if items.length ≤ names.length then some (names.zip items) else none
  | _ => none

variable {α : Type} (m : Members)

def required (name : String) (f : Decoder α) : Option α := (m.lookup name).bind f

def withDefault (name : String) (f : Decoder α) (default : α) : Option α :=
  match m.lookup name with
  | some v => f v
  | none => some default

def optional (name : String) (f : Decoder α) : Option (Option α) :=
  match m.lookup name with
  | some v => Decode.nullable f v
  | none => some none

end Members

def tagged (name : String) (tag : Decoder String) (v : Json) : Option (String × Json) :=
  if !v.isRead then none
  else
    match v with
    | .obj members =>
      match members.filter fun m => m.1 = name with
      | [(_, t)] => (tag t).map (·, .obj (members.filter fun m => m.1 ≠ name))
      | _ => none
    | .arr (t :: rest) => (tag t).map (·, .arr rest)
    | _ => none

end AtomTransport.Json
