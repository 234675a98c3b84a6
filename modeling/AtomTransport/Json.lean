import AtomTransport.Binary64

/-!
# JSON values

Devices, programs and results are stored as JSON documents. Integers that fit into 64 bits stay
integers; all other numbers are floating-point. An object keeps its members in the order of the
text, also when a name occurs twice. A part of a text that is well-formed but has no value may stay
unread.
-/

namespace AtomTransport

inductive Json where
  | null
  | bool (b : Bool)
  | int (n : Int)
  | float (x : Binary64)
  | str (s : String)
  | arr (items : List Json)
  | obj (members : List (String × Json))
  /-- A part that has no value: a number out of range, a string or a name with half of a surrogate
  pair, or a container that is nested too deep. -/
  | unread (text : String)

namespace Json

def ofNat (n : Nat) : Json := int n

def ofOption {α : Type} (f : α → Json) : Option α → Json
  | some a => f a
  | none => null

def ofList {α : Type} (f : α → Json) (xs : List α) : Json := arr (xs.map f)

def lastMembers : List (String × Json) → List (String × Json)
  | [] => []
  | m :: rest => if rest.any (·.1 = m.1) then lastMembers rest else m :: lastMembers rest

mutual

def lastWins : Json → Json
  | arr items => arr (lastWinsAll items)
  | obj members => obj (lastMembers (lastWinsMembers members))
  | v => v

def lastWinsAll : List Json → List Json
  | [] => []
  | v :: vs => v.lastWins :: lastWinsAll vs

def lastWinsMembers : List (String × Json) → List (String × Json)
  | [] => []
  | (k, v) :: ms => (k, v.lastWins) :: lastWinsMembers ms

end

mutual

def isRead : Json → Bool
  | unread _ => false
  | arr items => allRead items
  | obj members => membersRead members
  | _ => true

def allRead : List Json → Bool
  | [] => true
  | v :: vs => v.isRead && allRead vs

def membersRead : List (String × Json) → Bool
  | [] => true
  | (_, v) :: ms => v.isRead && membersRead ms

end

end Json

end AtomTransport
