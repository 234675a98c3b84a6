import AtomTransport.Binary64

/-!
# Shortest decimal texts of binary numbers

A finite number is written with the fewest decimal digits that still round to it. All reals that
round to a number form an interval around it; the coarsest decimal grid with a point in that
interval gives the digits, and of two points on that grid the nearer one is taken.
-/

namespace AtomTransport.Binary64

inductive Tie where
  | up
  | even
  deriving DecidableEq

structure Decimal where
  digits : Nat
  exponent : Int
  deriving DecidableEq

/-- Four times the numerators of the interval that rounds to a magnitude, in units of
`1 / denominator`: low end, middle and high end. Below a power of two the neighbours are closer. -/
def interval (x : Binary64) : Nat × Nat × Nat :=
  let unit := Nat.pow 2 x.exponent
  let below := if x.significand = Nat.pow 2 52 ∧ x.exponent ≠ 0 then unit else 2 * unit
  (4 * x.numerator - below, 4 * x.numerator, 4 * x.numerator + 2 * unit)

/-- Whether the grid point `d * 10 ^ e` rounds to the number: the ends of the interval count exactly
when the significand is even. -/
def roundsTo (x : Binary64) (d : Nat) (e : Int) : Bool :=
  let (low, _, high) := x.interval
  let point := d * 4 * denominator * Nat.pow 10 e.toNat
  let unit := Nat.pow 10 (-e).toNat
  if x.significand % 2 = 0 then low * unit ≤ point && point ≤ high * unit
  else low * unit < point && point < high * unit

/-- The point nearest to the number on the grid of multiples of `10 ^ e`, if it rounds back. -/
def onGrid (tie : Tie) (x : Binary64) (e : Int) : Option Decimal :=
  let num := x.numerator * Nat.pow 10 (-e).toNat
  let den := denominator * Nat.pow 10 e.toNat
  let d := num / den
  let r := num % den
  let upper := den < 2 * r || (den = 2 * r && (tie = .up || d % 2 = 1))
  let lowerHit := 0 < d && x.roundsTo d e
  let upperHit := x.roundsTo (d + 1) e
  if lowerHit && (!upper || !upperHit) then some ⟨d, e⟩
  else if upperHit then some ⟨d + 1, e⟩
  else none

def searchGrid (tie : Tie) (x : Binary64) : Nat → Int → Decimal
  | 0, e => ⟨0, e⟩
  | fuel + 1, e => (x.onGrid tie e).getD (searchGrid tie x fuel (e - 1))

/-- The shortest decimal of a finite, non-zero magnitude. The first grid is coarser than the number
itself, and at most seventeen digits are ever needed. -/
def shortest (tie : Tie) (x : Binary64) : Decimal :=
  let top : Int :=
    if denominator ≤ x.numerator then ((x.numerator / denominator).log2 : Int) * 1234 / 4096 + 1
    else -((denominator / x.numerator).log2 : Int) * 1233 / 4096 + 1
  searchGrid tie x 30 top

def Decimal.trim : Nat → Decimal → Decimal
  | 0, d => d
  | fuel + 1, d =>
    if d.digits ≠ 0 ∧ d.digits % 10 = 0 then Decimal.trim fuel ⟨d.digits / 10, d.exponent + 1⟩
    else d

def Decimal.positional (d : Decimal) : String :=
  let digits := Nat.toDigits 10 d.digits
  let places := (-d.exponent).toNat
  if places = 0 then String.ofList (digits ++ List.replicate d.exponent.toNat '0')
  else
    let padded := List.replicate (places + 1 - digits.length) '0' ++ digits
    let whole := padded.take (padded.length - places)
    let fraction := padded.drop (padded.length - places)
    String.ofList (whole ++ '.' :: fraction)

def signText (x : Binary64) : String := if x.isNegative then "-" else ""

def text (x : Binary64) : String :=
  if x.isNaN then "NaN"
  else if x.isInfinite then x.signText ++ "inf"
  else if x.magnitude = 0 then x.signText ++ "0"
  else x.signText ++ ((x.shortest .up).trim 20).positional

def Decimal.scientific (d : Decimal) : String :=
  let digits := Nat.toDigits 10 d.digits
  let e := d.exponent + ((digits.length : Int) - 1)
  let mantissa := match digits with
    | [] => []
    | [c] => [c]
    | c :: rest => c :: '.' :: rest
  String.ofList mantissa ++ "e" ++ toString e

/-- The text of a number in documents: a fraction part is always present in positional notation,
which is used for numbers from `1e-5` to below `1e16`. Documents have no word for other values. -/
def documentText (x : Binary64) : String :=
  if x.isNaN || x.isInfinite then "null"
  else if x.magnitude = 0 then x.signText ++ "0.0"
  else
    let d := (x.shortest .even).trim 20
    let point := d.exponent + ((Nat.toDigits 10 d.digits).length : Int)
    if 0 ≤ d.exponent ∧ point ≤ 16 then x.signText ++ d.positional ++ ".0"
    else if -5 < point ∧ point ≤ 16 then x.signText ++ d.positional
    else x.signText ++ d.scientific

end AtomTransport.Binary64
