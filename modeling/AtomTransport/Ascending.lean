/-!
# Ascending lists

A finite set is a list in strictly ascending order, and a finite map is a list of pairs in strictly
ascending order of the keys. Two sets with the same members are then the same list, and reading a
set or a map from left to right visits the keys in order.
-/

namespace AtomTransport.Ascending

variable {α β : Type} [LT α] [DecidableLT α] [DecidableEq α]

def insert (a : α) : List α → List α
  | [] => [a]
  | b :: rest =>
    if a < b then a :: b :: rest
    else if a = b then b :: rest
    else b :: insert a rest

def ofList (xs : List α) : List α := xs.foldr insert []

def union (xs ys : List α) : List α := xs.foldr insert ys

/-- Binds a key; an earlier binding of the same key is replaced. -/
def put (k : α) (v : β) : List (α × β) → List (α × β)
  | [] => [(k, v)]
  | (k', v') :: rest =>
    if k < k' then (k, v) :: (k', v') :: rest
    else if k = k' then (k, v) :: rest
    else (k', v') :: put k v rest

def get? (k : α) : List (α × β) → Option β
  | [] => none
  | (k', v) :: rest => if k = k' then some v else get? k rest

def erase (k : α) (m : List (α × β)) : List (α × β) := m.filter fun e => e.1 ≠ k

/-- A map from a list of bindings in which the last binding of a key counts. -/
def ofPairs (bindings : List (α × β)) : List (α × β) :=
  bindings.foldl (fun m b => put b.1 b.2 m) []

end AtomTransport.Ascending
