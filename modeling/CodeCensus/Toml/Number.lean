import CodeCensus.Toml.Quoted
import CodeCensus.Toml.Value

/-!
# Numbers, dates and times

The plain spellings of integers, floats, dates and times. Every reader returns the text after what
it took; whatever follows must end the value, which the readers of values check.
-/

namespace CodeCensus.Toml

open CodeCensus.Text

/-- Further digits, single underscores between them left out. An underscore that no digit follows
is no end of a number. -/
def readDigits? (isDigit : Char → Bool) : List Char → Option (List Char × List Char)
  | '_' :: c :: rest =>
    if isDigit c then do
      let (more, after) ← readDigits? isDigit rest
      return (c :: more, after)
    else
      none
  | ['_'] => none
  | c :: rest =>
    if isDigit c then do
      let (more, after) ← readDigits? isDigit rest
      return (c :: more, after)
    else
      some ([], c :: rest)
  | [] => some ([], [])

/-- One digit and further digits. -/
def readNumeral? (isDigit : Char → Bool) (text : List Char) : Option (List Char × List Char) :=
  if text.head?.any isDigit then readDigits? isDigit text else none

/-- Whether a number has a minus sign, and the text after the sign. -/
def readSign : List Char → Bool × List Char
  | '-' :: rest => (true, rest)
  | '+' :: rest => (false, rest)
  | text => (false, text)

/-- Decimal digits without a zero in front of others. -/
def readWhole? : List Char → Option (List Char × List Char)
  | '0' :: rest => some (['0'], rest)
  | text => readNumeral? isAsciiDigit text

/-- An integer that fits a signed 64-bit word. -/
def fitted? (number : Int) : Option Int :=
  if -9223372036854775808 ≤ number ∧ number ≤ 9223372036854775807 then some number else none

/-- The value of digits in a base up to sixteen. -/
def numberIn (base : Nat) (digits : List Char) : Nat :=
  digits.foldl (fun value c => base * value + (hexDigit? c).getD 0) 0

/-- An integer in another base, after the mark of the base. -/
def readBased? (base : Nat) (text : List Char) : Option (Value × List Char) := do
  let (digits, rest) ← readNumeral? (fun c => (hexDigit? c).any (· < base)) text
  let number ← fitted? (numberIn base digits)
  return (.integer number, rest)

/-- An integer: decimal with or without a sign, or in base sixteen, eight or two. -/
def readInteger? (text : List Char) : Option (Value × List Char) :=
  match text with
  | '0' :: 'x' :: rest => readBased? 16 rest
  | '0' :: 'o' :: rest => readBased? 8 rest
  | '0' :: 'b' :: rest => readBased? 2 rest
  | _ => do
    let (negative, unsigned) := readSign text
    let (digits, rest) ← readWhole? unsigned
    let size : Int := Decimal.ofDigits digits
    let number ← fitted? (if negative then -size else size)
    return (.integer number, rest)

/-- The digits of a fraction after its point, none without a point. -/
def readFraction? : List Char → Option (List Char × List Char)
  | '.' :: rest => readNumeral? isAsciiDigit rest
  | text => some ([], text)

/-- An exponent, zero without its letter. -/
def readExponent? (text : List Char) : Option (Int × List Char) :=
  match text with
  | c :: rest =>
    if c = 'e' ∨ c = 'E' then do
      let (negative, unsigned) := readSign rest
      let (digits, after) ← readNumeral? isAsciiDigit unsigned
      let size : Int := Decimal.exponentOf digits
      return (if negative then -size else size, after)
    else
      some (0, text)
  | [] => some (0, [])

/-- The part of a text that a reader took. -/
def spelling (text rest : List Char) : String :=
  String.ofList (text.take (text.length - rest.length))

/-- The characters that open the fraction or the exponent of a float. -/
def opensFloat (c : Char) : Bool :=
  c == '.' || c == 'e' || c == 'E'

/-- A float: infinity, no number, or digits with a fraction, an exponent or both. Digits that name a
positive number beyond all finite ones are refused. -/
def readFloat? (text : List Char) : Option (Value × List Char) :=
  let (negative, unsigned) := readSign text
  match unsigned with
  | 'i' :: 'n' :: 'f' :: rest => some (.float (.infinite negative), rest)
  | 'n' :: 'a' :: 'n' :: rest => some (.float .notANumber, rest)
  | _ => do
    let (whole, afterWhole) ← readWhole? unsigned
    if afterWhole.head?.any opensFloat then
      let (fraction, afterFraction) ← readFraction? afterWhole
      let (exponent, rest) ← readExponent? afterFraction
      let decimal : Decimal :=
        ⟨negative, Decimal.ofDigits (whole ++ fraction), exponent - fraction.length⟩
      if decimal.roundsToInfinity && !negative then none
      else some (.float (.finite decimal), rest)
    else
      none

/-- A number of exactly so many digits. -/
def readFixed? (width : Nat) (text : List Char) : Option (Nat × List Char) :=
  let digits := text.take width
  if digits.length = width ∧ digits.all isAsciiDigit then
    some (Decimal.ofDigits digits, text.drop width)
  else
    none

/-- The text after a character that must come first. -/
def expect? (c : Char) : List Char → Option (List Char)
  | head :: rest => if head = c then some rest else none
  | [] => none

/-- How many days a month has. -/
def daysIn (year month : Nat) : Nat :=
  if month = 2 then
    if year % 4 = 0 ∧ (year % 100 ≠ 0 ∨ year % 400 = 0) then 29 else 28
  else if month = 4 ∨ month = 6 ∨ month = 9 ∨ month = 11 then 30
  else 31

/-- A date: year, month and day with dashes between. -/
def readDate? (text : List Char) : Option (List Char) := do
  let (year, afterYear) ← readFixed? 4 text
  let (month, afterMonth) ← readFixed? 2 (← expect? '-' afterYear)
  let (day, rest) ← readFixed? 2 (← expect? '-' afterMonth)
  if 1 ≤ month ∧ month ≤ 12 ∧ 1 ≤ day ∧ day ≤ daysIn year month then some rest else none

/-- A time of day to the second or finer. -/
def readTime? (text : List Char) : Option (List Char) := do
  let (hour, afterHour) ← readFixed? 2 text
  let (minute, afterMinute) ← readFixed? 2 (← expect? ':' afterHour)
  let (second, rest) ← readFixed? 2 (← expect? ':' afterMinute)
  if hour ≤ 23 ∧ minute ≤ 59 ∧ second ≤ 60 then
    match rest with
    | '.' :: c :: more =>
      if isAsciiDigit c then some (more.dropWhile isAsciiDigit) else some rest
    | _ => some rest
  else
    none

/-- The text after an offset from universal time, if one is there. -/
def skipOffset (text : List Char) : List Char :=
  match text with
  | c :: rest =>
    if c = 'Z' ∨ c = 'z' then rest
    else if c = '+' ∨ c = '-' then
      let offset : Option (List Char) := do
        let (hour, afterHour) ← readFixed? 2 rest
        let (minute, after) ← readFixed? 2 (← expect? ':' afterHour)
        if hour ≤ 23 ∧ minute ≤ 59 then some after else none
      offset.getD text
    else
      text
  | [] => []

/-- A date, a time, or a date with a time and perhaps an offset. -/
def readMoment? (text : List Char) : Option (Value × List Char) :=
  match readDate? text with
  | some afterDate =>
    let rest :=
      match afterDate with
      | c :: more =>
        if c = 'T' ∨ c = 't' ∨ c = ' ' then
          match readTime? more with
          | some afterTime => skipOffset afterTime
          | none => afterDate
        else
          afterDate
      | [] => []
    some (.moment (spelling text rest), rest)
  | none => (readTime? text).map fun rest => (.moment (spelling text rest), rest)

/-- A date, a time or a number. -/
def readNumber? (text : List Char) : Option (Value × List Char) :=
  readMoment? text <|> readFloat? text <|> readInteger? text

end CodeCensus.Toml
