/-!
# Addresses

A device is divided into words, and a word into sites. A location is one site of one word, a zone is
a group of words, and a lane is one transport step along a bus: a site lane stays inside a word, a
word lane keeps the site index and changes the word.
-/

namespace AtomTransport

inductive Direction where
  | forward
  | backward
  deriving DecidableEq

namespace Direction

def reverse : Direction → Direction
  | forward => backward
  | backward => forward

def bit : Direction → Nat
  | forward => 0
  | backward => 1

def ofBit (b : Nat) : Direction := if b = 0 then forward else backward

def text : Direction → String
  | forward => "fwd"
  | backward => "bwd"

end Direction

inductive LaneKind where
  | site
  | word
  deriving DecidableEq

namespace LaneKind

def bit : LaneKind → Nat
  | site => 0
  | word => 1

def ofBit (b : Nat) : LaneKind := if b = 0 then site else word

def text : LaneKind → String
  | site => "site"
  | word => "word"

end LaneKind

structure Location where
  word : Nat
  site : Nat
  deriving DecidableEq

namespace Location

instance : LT Location where
  lt a b := a.word < b.word ∨ a.word = b.word ∧ a.site < b.site

instance : DecidableLT Location := fun a b =>
  inferInstanceAs (Decidable (a.word < b.word ∨ a.word = b.word ∧ a.site < b.site))

def text (l : Location) : String := "(" ++ toString l.word ++ ", " ++ toString l.site ++ ")"

end Location

/-- What lanes that run in one step have in common: kind, bus and direction. -/
structure Signature where
  kind : LaneKind
  bus : Nat
  direction : Direction
  deriving DecidableEq

namespace Signature

def Before (a b : Signature) : Prop :=
  a.kind.bit < b.kind.bit ∨
    a.kind = b.kind ∧ (a.bus < b.bus ∨ a.bus = b.bus ∧ a.direction.bit < b.direction.bit)

instance : LT Signature where
  lt := Before

instance : DecidableLT Signature := fun a b =>
  inferInstanceAs (Decidable (a.kind.bit < b.kind.bit ∨
    a.kind = b.kind ∧ (a.bus < b.bus ∨ a.bus = b.bus ∧ a.direction.bit < b.direction.bit)))

end Signature

/-- One transport step. A site lane names its word and the site on the source side of its bus; a word
lane names the word on the source side of its bus and the site that it carries. -/
structure Lane where
  kind : LaneKind
  word : Nat
  site : Nat
  bus : Nat
  direction : Direction
  deriving DecidableEq

namespace Lane

def reverse (l : Lane) : Lane := { l with direction := l.direction.reverse }

def signature (l : Lane) : Signature := ⟨l.kind, l.bus, l.direction⟩

def text (l : Lane) : String :=
  l.kind.text ++ "[w" ++ toString l.word ++ " s" ++ toString l.site ++ " bus" ++ toString l.bus ++
    " " ++ l.direction.text ++ "]"

end Lane

structure Zone where
  id : Nat
  deriving DecidableEq

namespace Zone

instance : LT Zone where
  lt a b := a.id < b.id

instance : DecidableLT Zone := fun a b => inferInstanceAs (Decidable (a.id < b.id))

def text (z : Zone) : String := "zone" ++ toString z.id

end Zone

abbrev Qubit := Nat

def Qubit.text (q : Qubit) : String := "q" ++ toString q

end AtomTransport
