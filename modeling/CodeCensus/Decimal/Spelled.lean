import CodeCensus.Decimal
import CodeCensus.Text.Character

/-!
# Spelled numbers

Which texts spell a whole number of a signed 64-bit word, and which spell a floating number: digits
with at most one point and an exponent, or one of the words for infinity and for no number.
-/

namespace CodeCensus.Decimal

open CodeCensus.Text

/-- Whether a text has a minus sign, and the text after its sign. -/
def splitSign : List Char → Bool × List Char
  | '-' :: rest => (true, rest)
  | '+' :: rest => (false, rest)
  | text => (false, text)

/-- The number that digits with or without a sign spell, where the digits name a size. -/
def signed? (size : List Char → Nat) (text : List Char) : Option Int :=
  let (negative, unsigned) := splitSign text
  if unsigned.isEmpty || !unsigned.all isAsciiDigit then none
  else some (if negative then -(size unsigned : Int) else size unsigned)

/-- The whole number of a signed 64-bit word that a text spells. -/
def word? (text : List Char) : Option Int :=
  (signed? ofDigits text).filter fun number =>
    decide (-9223372036854775808 ≤ number) && decide (number ≤ 9223372036854775807)

/-- A floating number as spelled. -/
inductive Spelled
  | finite (value : Decimal)
  | infinite (negative : Bool)
  | notANumber
deriving DecidableEq, Repr

/-- The exponent after the digits of a number, zero if nothing follows them. -/
def exponent? : List Char → Option Int
  | [] => some 0
  | c :: rest => if c = 'e' ∨ c = 'E' then signed? exponentOf rest else none

/-- The floating number that a text without a sign spells. -/
def unsigned? (negative : Bool) (text : List Char) : Option Spelled :=
  let folded := text.map Char.toLower
  if folded = "inf".toList ∨ folded = "infinity".toList then some (.infinite negative)
  else if folded = "nan".toList then some .notANumber
  else
    let whole := text.takeWhile isAsciiDigit
    let afterWhole := text.dropWhile isAsciiDigit
    let pointed := afterWhole.head? = some '.'
    let fraction := if pointed then afterWhole.tail.takeWhile isAsciiDigit else []
    let rest := if pointed then afterWhole.tail.dropWhile isAsciiDigit else afterWhole
    if whole.isEmpty && fraction.isEmpty then none
    else (exponent? rest).map fun exponent =>
      .finite ⟨negative, ofDigits (whole ++ fraction), exponent - fraction.length⟩

/-- The floating number that a text spells. -/
def spelled? (text : List Char) : Option Spelled :=
  let (negative, unsigned) := splitSign text
  unsigned? negative unsigned

/-- Whether a floating number is zero in double precision. -/
def Spelled.isZero : Spelled → Bool
  | .finite value => value.roundsToZero
  | .infinite _ => false
  | .notANumber => false

end CodeCensus.Decimal
