import AtomTransport.Atoms

/-!
# Abstract values

What an analysis knows about a value of a program. `unknown` is the greatest and `bottom` the least
element; lists of one length are compared item by item, two atom states are equal in the order when
they place every qubit alike, and any other two different values have only `unknown` above both.
-/

namespace AtomTransport

inductive Value where
  /-- Could be anything. -/
  | unknown
  /-- Unreachable, or no value at all. -/
  | bottom
  | scalar (s : Scalar)
  | atoms (a : Atoms)
  | measured (a : Atoms)
  | result (q : Qubit)
  | list (items : List Value)

namespace Value

def atoms? : Value → Option Atoms
  | atoms a => some a
  | measured a => some a
  | _ => none

mutual

/-- Equality in every detail, the ways of the atoms included; numbers compare numerically. -/
def same : Value → Value → Bool
  | unknown, unknown => true
  | bottom, bottom => true
  | scalar a, scalar b => a.same b
  | atoms a, atoms b => a = b
  | measured a, measured b => a = b
  | result a, result b => a = b
  | list a, list b => sameAll a b
  | _, _ => false

def sameAll : List Value → List Value → Bool
  | [], [] => true
  | a :: as, b :: bs => a.same b && sameAll as bs
  | _, _ => false

end

mutual

def containsUnknown : Value → Bool
  | unknown => true
  | list items => anyUnknown items
  | _ => false

def anyUnknown : List Value → Bool
  | [] => false
  | v :: vs => v.containsUnknown || anyUnknown vs

end

mutual

def le : Value → Value → Bool
  | bottom, _ => true
  | _, unknown => true
  | scalar a, scalar b => a.same b
  | atoms a, atoms b => a.sameLayout b
  | measured a, measured b => a.sameLayout b
  | result a, result b => a = b
  | list a, list b => leAll a b
  | _, _ => false

def leAll : List Value → List Value → Bool
  | [], [] => true
  | a :: as, b :: bs => a.le b && leAll as bs
  | _, _ => false

end

mutual

/-- The least upper bound. Of two states with the same layout the first one stays. -/
def join : Value → Value → Value
  | bottom, x => x
  | x, bottom => x
  | scalar a, scalar b => if a.same b then scalar a else unknown
  | atoms a, atoms b => if a.sameLayout b then atoms a else unknown
  | measured a, measured b => if a.sameLayout b then measured a else unknown
  | result a, result b => if a = b then result a else unknown
  | list a, list b => if a.length = b.length then list (joinAll a b) else unknown
  | _, _ => unknown

def joinAll : List Value → List Value → List Value
  | a :: as, b :: bs => a.join b :: joinAll as bs
  | _, _ => []

end

mutual

def meet : Value → Value → Value
  | unknown, x => x
  | x, unknown => x
  | scalar a, scalar b => if a.same b then scalar a else bottom
  | atoms a, atoms b => if a.sameLayout b then atoms a else bottom
  | measured a, measured b => if a.sameLayout b then measured a else bottom
  | result a, result b => if a = b then result a else bottom
  | list a, list b => if a.length = b.length then list (meetAll a b) else bottom
  | _, _ => bottom

def meetAll : List Value → List Value → List Value
  | a :: as, b :: bs => a.meet b :: meetAll as bs
  | _, _ => []

end

def equiv (a b : Value) : Bool := a.le b && b.le a

def isUnknown : Value → Bool
  | unknown => true
  | _ => false

def isBottom : Value → Bool
  | bottom => true
  | _ => false

end Value

end AtomTransport
