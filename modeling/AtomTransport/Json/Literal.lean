import AtomTransport.Json

/-!
# Literals

The strings and the numbers of a JSON text, first as they are spelled and then as values. A literal
can be well-formed and still have no value: a string with half of a surrogate pair, or a number
beyond the finite range.
-/

namespace AtomTransport.Json

abbrev Reader (α : Type) := List Char → Option (α × List Char)

def hexValue? (c : Char) : Option Nat :=
  if c.isDigit then some (c.toNat - '0'.toNat)
  else if 'a' ≤ c && c ≤ 'f' then some (c.toNat - 'a'.toNat + 10)
  else if 'A' ≤ c && c ≤ 'F' then some (c.toNat - 'A'.toNat + 10)
  else none

def escape? : Char → Option Char
  | '"' => some '"'
  | '\\' => some '\\'
  | '/' => some '/'
  | 'b' => some '\x08'
  | 'f' => some '\x0c'
  | 'n' => some '\n'
  | 'r' => some '\r'
  | 't' => some '\t'
  | _ => none

inductive Piece where
  | char (c : Char)
  | escape (letter : Char)
  | unit (digits : List Char)

namespace Piece

def isPlain : Piece → Bool
  | char _ => true
  | _ => false

def spelling : Piece → List Char
  | char c => [c]
  | escape letter => ['\\', letter]
  | unit digits => '\\' :: 'u' :: digits

def code (digits : List Char) : Nat := digits.foldl (fun n c => n * 16 + (hexValue? c).getD 0) 0

def isHigh (n : Nat) : Bool := 0xD800 ≤ n && n < 0xDC00

def isLow (n : Nat) : Bool := 0xDC00 ≤ n && n < 0xE000

/-- Appends the characters of pieces to those that are done, which come last first. A high surrogate
has to be followed by a low one, and the two stand for one character. -/
def appendChars (done : List Char) : List Piece → Option (List Char)
  | [] => some done.reverse
  | char c :: rest => appendChars (c :: done) rest
  | escape letter :: rest => appendChars ((escape? letter).getD letter :: done) rest
  | unit digits :: rest =>
    let n := code digits
    if isHigh n then
      match rest with
      | unit digits :: rest =>
        let m := code digits
        if isLow m then
          appendChars (Char.ofNat (0x10000 + (n - 0xD800) * 0x400 + (m - 0xDC00)) :: done) rest
        else none
      | _ => none
    else if isLow n then none
    else appendChars (Char.ofNat n :: done) rest

def text? (pieces : List Piece) : Option String := (appendChars [] pieces).map String.ofList

end Piece

def readPieces (done : List Piece) : Reader (List Piece)
  | [] => none
  | '"' :: rest => some (done.reverse, rest)
  | '\\' :: 'u' :: a :: b :: c :: d :: rest =>
    if [a, b, c, d].all fun x => (hexValue? x).isSome then
      readPieces (.unit [a, b, c, d] :: done) rest
    else none
  | '\\' :: letter :: rest =>
    if (escape? letter).isSome then readPieces (.escape letter :: done) rest else none
  | c :: rest =>
    if c = '\\' || c.toNat < 0x20 then none else readPieces (.char c :: done) rest

structure Numeral where
  negative : Bool
  whole : List Char
  fraction : List Char
  exponent : Option Int

namespace Numeral

def digitValue (c : Char) : Nat := c.toNat - '0'.toNat

/-- Appends digits to a significand as long as it stays below `2 ^ 64`, and returns the digits that
are left. -/
def absorb : Nat → List Char → Nat × List Char
  | n, [] => (n, [])
  | n, c :: cs =>
    let m := n * 10 + digitValue c
    if m < Nat.pow 2 64 then absorb m cs else (n, c :: cs)

/-- The floating-point value. Digits of the whole part that do not fit into the significand count as
zeros, and those of the fraction are dropped. -/
def float? (x : Numeral) : Option Json :=
  let (significand, beyond) := absorb 0 x.whole
  let (significand, dropped) := absorb significand x.fraction
  let scale : Int := beyond.length - (x.fraction.length - dropped.length : Nat) + x.exponent.getD 0
  (Binary64.ofDecimal x.negative significand scale).map .float

/-- The value. Digits alone give an integer if they fit into 64 bits, and everything else, `-0`
included, gives a floating-point number. -/
def value? (x : Numeral) : Option Json :=
  let (n, beyond) := absorb 0 x.whole
  let digitsAlone := x.fraction.isEmpty && x.exponent.isNone && beyond.isEmpty
  if digitsAlone && !x.negative then some (.int n)
  else if digitsAlone && n ≠ 0 && n ≤ Nat.pow 2 63 then some (.int (-(n : Int)))
  else x.float?

end Numeral

def readDigits (cs : List Char) : Option (List Char × List Char) :=
  match cs.takeWhile Char.isDigit with
  | [] => none
  | digits => some (digits, cs.dropWhile Char.isDigit)

def readFraction : Reader (List Char)
  | '.' :: rest => readDigits rest
  | cs => some ([], cs)

def readScale (negative : Bool) (cs : List Char) : Option (Option Int × List Char) := do
  let (digits, rest) ← readDigits cs
  let n : Nat := digits.foldl (fun n c => n * 10 + Numeral.digitValue c) 0
  some (some (if negative then -(n : Int) else n), rest)

def readExponent : Reader (Option Int)
  | c :: cs =>
    if c = 'e' || c = 'E' then
      match cs with
      | '-' :: rest => readScale true rest
      | '+' :: rest => readScale false rest
      | _ => readScale false cs
    else some (none, c :: cs)
  | [] => some (none, [])

def readMagnitude (negative : Bool) (cs : List Char) : Option (Numeral × List Char) := do
  let (whole, rest) ← readDigits cs
  if whole.head? = some '0' && whole.length ≠ 1 then none
  else
    let (fraction, rest) ← readFraction rest
    let (exponent, rest) ← readExponent rest
    some (⟨negative, whole, fraction, exponent⟩, rest)

def readNumeral : Reader Numeral
  | '-' :: rest => readMagnitude true rest
  | cs => readMagnitude false cs

end AtomTransport.Json
