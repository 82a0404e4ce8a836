import CodeCensus.Decimal

/-!
# Double precision

A positive number of double precision is a whole number below `2 ^ 53` times a power of two that is
at least `2 ^ -1074`. A fraction is rounded to the nearest of them, and a fraction halfway between
two to the one with the even whole number. All arithmetic is exact. What rounds to zero or to
infinity is sorted out before, by the bounds on decimals.
-/

namespace CodeCensus

/-- The number `size * 2 ^ exponent`. -/
structure Double where
  size : Nat
  exponent : Int
deriving DecidableEq, Repr

/-- A positive fraction. -/
structure Fraction where
  top : Nat
  bottom : Nat
deriving DecidableEq, Repr

/-- A fraction divided by a power of a base. -/
def Fraction.shift (fraction : Fraction) (base : Nat) (power : Int) : Fraction :=
  if power ≥ 0 then ⟨fraction.top, fraction.bottom * Nat.pow base power.toNat⟩
  else ⟨fraction.top * Nat.pow base (-power).toNat, fraction.bottom⟩

/-- The whole part of a fraction. -/
def Fraction.floor (fraction : Fraction) : Nat :=
  fraction.top / fraction.bottom

/-- The nearest whole number, the even one of two. -/
def Fraction.round (fraction : Fraction) : Nat :=
  let whole := fraction.floor
  let rest := 2 * (fraction.top % fraction.bottom)
  if fraction.bottom < rest ∨ (rest = fraction.bottom ∧ whole % 2 = 1) then whole + 1 else whole

/-- The absolute value of a decimal as a fraction. -/
def Decimal.fraction (d : Decimal) : Fraction :=
  Fraction.shift ⟨d.digits, 1⟩ 10 (-d.exponent)

namespace Double

/-- The first whole number that needs more than 53 binary digits. -/
def sizeLimit : Nat := Nat.pow 2 53

/-- The least exponent. -/
def leastExponent : Int := -1074

/-- The exponent of the number of double precision nearest to a fraction: the whole number gets 53
binary digits, or fewer at the least exponent. -/
def exponentFor (fraction : Fraction) : Int :=
  let guess : Int := (Nat.log2 fraction.top : Int) - Nat.log2 fraction.bottom - 53
  let fitted := if (fraction.shift 2 guess).floor < sizeLimit then guess else guess + 1
  max fitted leastExponent

/-- The number of double precision nearest to a fraction. -/
def nearest (fraction : Fraction) : Double :=
  let exponent := exponentFor fraction
  let size := (fraction.shift 2 exponent).round
  if size = sizeLimit then ⟨size / 2, exponent + 1⟩ else ⟨size, exponent⟩

/-- A number of double precision as a fraction. -/
def fraction (x : Double) : Fraction :=
  Fraction.shift ⟨x.size, 1⟩ 2 (-x.exponent)

/-- Whether the next number below is half as far away as the next one above: so it is from a power
of two downward, except at the least exponent. -/
def isNarrowBelow (x : Double) : Bool :=
  x.size == sizeLimit / 2 && decide (leastExponent < x.exponent)

end Double

end CodeCensus
