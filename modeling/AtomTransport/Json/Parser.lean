import AtomTransport.Json.Literal

/-!
# Reading JSON

A reader takes characters from the front of a text and returns what is left. Containers may be
nested at most 127 deep. A part that is well-formed but has no value makes a strict reading fail; a
tolerant reading leaves it unread, so that whoever does not need the part can go on.
-/

namespace AtomTransport.Json

inductive Reading where
  | strict
  | tolerant
  deriving DecidableEq

def isBlank (c : Char) : Bool := c = ' ' || c = '\n' || c = '\t' || c = '\r'

def skipBlanks (cs : List Char) : List Char := cs.dropWhile isBlank

def after : List Char → List Char → Option (List Char)
  | [], cs => some cs
  | w :: ws, c :: cs => if w = c then after ws cs else none
  | _ :: _, [] => none

namespace Reading

def finish (r : Reading) (value? : Option Json) (cs rest : List Char) :
    Option (Json × List Char) :=
  match value?, r with
  | some v, _ => some (v, rest)
  | none, strict => none
  | none, tolerant => some (.unread (String.ofList (cs.take (cs.length - rest.length))), rest)

/-- The name of a member. Digits that are written with escapes make no number, so a tolerant reading
keeps the spelling of such a name. -/
def name? (r : Reading) (pieces : List Piece) : Option String := do
  let name ← Piece.text? pieces
  if r = tolerant && name.toList.all Char.isDigit && !pieces.all Piece.isPlain then
    some (String.ofList (pieces.flatMap Piece.spelling))
  else some name

def readScalar (r : Reading) (cs : List Char) : Option (Json × List Char) :=
  match cs with
  | '"' :: rest => do
    let (pieces, rest) ← readPieces [] rest
    r.finish ((Piece.text? pieces).map .str) cs rest
  | 'n' :: rest => (after ['u', 'l', 'l'] rest).map (.null, ·)
  | 't' :: rest => (after ['r', 'u', 'e'] rest).map (.bool true, ·)
  | 'f' :: rest => (after ['a', 'l', 's', 'e'] rest).map (.bool false, ·)
  | _ => do
    let (x, rest) ← readNumeral cs
    r.finish x.value? cs rest

end Reading

inductive Container where
  | list
  | object

namespace Container

def closing : Container → Char
  | list => ']'
  | object => '}'

def skipName : Container → List Char → Option (List Char)
  | list, cs => some cs
  | object, cs =>
    match skipBlanks cs with
    | '"' :: rest => do
      let (_, rest) ← readPieces [] rest
      after [':'] (skipBlanks rest)
    | _ => none

inductive Next where
  | first
  | item
  | more

/-- Skips the rest of containers, the innermost first. They may be nested without a limit, since
nothing that they hold is kept. -/
def skip : Nat → Next → List Container → List Char → Option (List Char)
  | _, _, [], cs => some cs
  | 0, _, _ :: _, _ => none
  | fuel + 1, .first, c :: outer, cs =>
    match skipBlanks cs with
    | [] => none
    | x :: rest =>
      if x = c.closing then skip fuel .more outer rest else skip fuel .item (c :: outer) (x :: rest)
  | fuel + 1, .item, c :: outer, cs => do
    match skipBlanks (← c.skipName cs) with
    | '[' :: rest => skip fuel .first (list :: c :: outer) rest
    | '{' :: rest => skip fuel .first (object :: c :: outer) rest
    | cs => do
      let (_, rest) ← Reading.tolerant.readScalar cs
      skip fuel .more (c :: outer) rest
  | fuel + 1, .more, c :: outer, cs =>
    match skipBlanks cs with
    | [] => none
    | x :: rest =>
      if x = c.closing then skip fuel .more outer rest
      else if x = ',' then skip fuel .item (c :: outer) rest
      else none

end Container

def ofMembers? (members : List (Option String × Json)) : Option Json := do
  let named ← members.mapM fun m => m.1.map (·, m.2)
  some (.obj named)

namespace Reading

variable (r : Reading)

def skipDeep (fuel : Nat) (c : Container) (cs rest : List Char) : Option (Json × List Char) := do
  match r with
  | strict => none
  | tolerant =>
    let rest ← Container.skip fuel .first [c] rest
    r.finish none cs rest

mutual

/-- Any value. `depth` is the number of containers that may still be opened. -/
def readValue : Nat → Nat → List Char → Option (Json × List Char)
  | 0, _, _ => none
  | fuel + 1, depth, cs =>
    let cs := skipBlanks cs
    match cs with
    | '[' :: rest =>
      if depth = 0 then r.skipDeep fuel .list cs rest
      else
        match skipBlanks rest with
        | ']' :: rest => some (.arr [], rest)
        | rest => do
          let (items, rest) ← readItems fuel (depth - 1) rest
          some (.arr items, rest)
    | '{' :: rest =>
      if depth = 0 then r.skipDeep fuel .object cs rest
      else
        match skipBlanks rest with
        | '}' :: rest => some (.obj [], rest)
        | rest => do
          let (members, rest) ← readMembers fuel (depth - 1) rest
          r.finish (ofMembers? members) cs rest
    | cs => r.readScalar cs

def readItems : Nat → Nat → List Char → Option (List Json × List Char)
  | 0, _, _ => none
  | fuel + 1, depth, cs => do
    let (v, rest) ← readValue fuel depth cs
    match skipBlanks rest with
    | ']' :: rest => some ([v], rest)
    | ',' :: rest => do
      let (vs, rest) ← readItems fuel depth rest
      some (v :: vs, rest)
    | _ => none

def readMembers : Nat → Nat → List Char → Option (List (Option String × Json) × List Char)
  | 0, _, _ => none
  | fuel + 1, depth, cs =>
    match skipBlanks cs with
    | '"' :: rest => do
      let (pieces, rest) ← readPieces [] rest
      let rest ← after [':'] (skipBlanks rest)
      let (v, rest) ← readValue fuel depth rest
      match skipBlanks rest with
      | '}' :: rest => some ([(r.name? pieces, v)], rest)
      | ',' :: rest => do
        let (ms, rest) ← readMembers fuel depth rest
        some ((r.name? pieces, v) :: ms, rest)
      | _ => none
    | _ => none

end

end Reading

def maxDepth : Nat := 127

/-- Reads a value at the beginning of a text. Every two steps consume a character, so twice the
length of the text bounds the number of nested steps. -/
def readFront (r : Reading) (text : String) : Option (Json × List Char) :=
  let cs := text.toList
  r.readValue (2 * cs.length + 2) maxDepth cs

def parse? (text : String) : Option Json :=
  match readFront .strict text with
  | some (v, rest) => if (skipBlanks rest).isEmpty then some v else none
  | none => none

end AtomTransport.Json
