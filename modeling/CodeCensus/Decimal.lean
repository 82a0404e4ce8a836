/-!
# Decimals against the range of double precision

A decimal is a whole number times a power of ten. Rounded to the nearest double-precision number,
ties to even, it becomes infinite from the middle between the largest such number and the next power
of two on, and zero up to half the smallest positive one. Both bounds are compared exactly; decimals
far from a bound are settled by their number of digits.
-/

namespace CodeCensus

/-- The number `digits * 10 ^ exponent`, with a sign. -/
structure Decimal where
  negative : Bool
  digits : Nat
  exponent : Int
deriving DecidableEq, Repr

namespace Decimal

/-- The number named by decimal digits. -/
def ofDigits (digits : List Char) : Nat :=
  digits.foldl (fun value c => 10 * value + (c.toNat - '0'.toNat)) 0

/-- The exponent named by decimal digits. Once it has reached 65536, further digits say nothing; so
only a number with as many digits as that can tell. -/
def exponentOf (digits : List Char) : Nat :=
  digits.foldl
    (fun value c => if value < 65536 then 10 * value + (c.toNat - '0'.toNat) else value) 0

/-- How many digits a number has, none for zero. -/
def digitCount (n : Nat) : Nat :=
  if n = 0 then 0 else (Nat.toDigits 10 n).length

/-- The place of the leading digit: the absolute value of a number other than zero is below ten to
this power and at least a tenth of that. -/
def magnitude (d : Decimal) : Int :=
  d.exponent + digitCount d.digits

/-- The least value that rounds to infinity. -/
def infinityBound : Nat := Nat.pow 2 1024 - Nat.pow 2 970

/-- Whether the absolute value rounds to infinity. -/
def roundsToInfinity (d : Decimal) : Bool :=
  if d.digits = 0 then false
  else if d.magnitude > 310 then true
  else if d.magnitude < 300 then false
  else if d.exponent ≥ 0 then
    decide (infinityBound ≤ d.digits * Nat.pow 10 d.exponent.toNat)
  else
    decide (infinityBound * Nat.pow 10 (-d.exponent).toNat ≤ d.digits)

/-- Whether the absolute value rounds to zero. -/
def roundsToZero (d : Decimal) : Bool :=
  if d.digits = 0 then true
  else if d.magnitude > -320 then false
  else if d.magnitude < -330 then true
  else decide (d.digits * Nat.pow 2 1075 ≤ Nat.pow 10 (-d.exponent).toNat)

end Decimal

end CodeCensus
