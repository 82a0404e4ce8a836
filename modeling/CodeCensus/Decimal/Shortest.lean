import CodeCensus.Decimal.Double
import CodeCensus.Decimal.Spelled

/-!
# Shortest decimals

The text of a number of double precision is the decimal with the fewest digits among those that
round back to the number, of several the nearest, and of two equally near the greater. It is written
without an exponent and without a point where no digit follows one.

The decimals that round back form an interval, which reaches halfway to the next numbers and holds
its ends if the whole number of the double is even. Grids of powers of ten are tried from the
leading digit on; on each, only the two neighbours of the number can lie in the interval nearest.
-/

namespace CodeCensus.Double

/-- How `digits * 10 ^ place` compares with a number of quarters of the last binary place. -/
def compareQuarters (x : Double) (digits : Nat) (place : Int) (quarters : Nat) : Ordering :=
  let left := Fraction.shift ⟨digits, 1⟩ 10 (-place)
  let right := Fraction.shift ⟨quarters, 1⟩ 2 (2 - x.exponent)
  compare (left.top * right.bottom) (right.top * left.bottom)

/-- Whether `digits * 10 ^ place` rounds to a number of double precision. -/
def readsBack (x : Double) (digits : Nat) (place : Int) : Bool :=
  let closed := x.size % 2 == 0
  let low := x.compareQuarters digits place (4 * x.size - if x.isNarrowBelow then 1 else 2)
  let high := x.compareQuarters digits place (4 * x.size + 2)
  (low == .gt || (closed && low == .eq)) && (high == .lt || (closed && high == .eq))

/-- The place before the leading digit: the number is below ten to this power and at least a tenth
of that. -/
def leadingPlace (x : Double) : Int :=
  let fraction := x.fraction
  if fraction.bottom ≤ fraction.top then Decimal.digitCount fraction.floor
  else 1 - Decimal.digitCount ((fraction.bottom - 1) / fraction.top)

/-- The digits, down to a place, of the nearest decimal that rounds back, if one of the two
neighbours does. -/
def digitsAt? (x : Double) (place : Int) : Option Nat :=
  let scaled := x.fraction.shift 10 place
  let below := scaled.floor
  let isNearerBelow := decide (2 * (scaled.top % scaled.bottom) < scaled.bottom)
  match x.readsBack below place, x.readsBack (below + 1) place with
  | true, true => some (if isNearerBelow then below else below + 1)
  | true, false => some below
  | false, true => some (below + 1)
  | false, false => none

/-- The digits and the last place of the shortest decimal, tried on so many more places downward.
Seventeen places suffice for every number. -/
def shortestFrom (x : Double) : Nat → Int → Nat × Int
  | 0, place => ((x.fraction.shift 10 place).floor, place)
  | more + 1, place =>
    match x.digitsAt? place with
    | some digits => (digits, place)
    | none => x.shortestFrom more (place - 1)

/-- The digits and the last place of the shortest decimal. -/
def shortest (x : Double) : Nat × Int :=
  x.shortestFrom 17 (x.leadingPlace - 1)

end CodeCensus.Double

namespace CodeCensus.Decimal

/-- The text of `digits * 10 ^ place` without an exponent. -/
def positional (digits : Nat) (place : Int) : List Char :=
  let written := Nat.toDigits 10 digits
  if place ≥ 0 then written ++ List.replicate place.toNat '0'
  else
    let places := (-place).toNat
    let padded := List.replicate (places + 1 - written.length) '0' ++ written
    let whole := padded.take (padded.length - places)
    let fraction := padded.drop (padded.length - places)
    let kept := (fraction.reverse.dropWhile (· == '0')).reverse
    if kept.isEmpty then whole else whole ++ '.' :: kept

/-- The text of the double-precision number that a decimal rounds to. -/
def text (d : Decimal) : String :=
  let size :=
    if d.roundsToZero then ['0']
    else if d.roundsToInfinity then ['i', 'n', 'f']
    else
      let (digits, place) := (Double.nearest d.fraction).shortest
      positional digits place
  String.ofList (if d.negative then '-' :: size else size)

/-- The text of the double-precision number that is spelled. -/
def Spelled.text : Spelled → String
  | .finite value => value.text
  | .infinite negative => if negative then "-inf" else "inf"
  | .notANumber => "NaN"

end CodeCensus.Decimal
