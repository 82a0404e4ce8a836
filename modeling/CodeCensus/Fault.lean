/-!
# Faults

A fault stops the whole program: no answer and no later step follows it. Failures that a caller
may see and survive are values of other types.
-/

namespace CodeCensus

/-- What stops the program. -/
inductive Fault
  /-- A counter left the range of a signed 64-bit word. -/
  | counterOverflow
  /-- A text was cut between the bytes of one character. -/
  | splitCharacter
  /-- A variable spoke of an item before the first of a list, or beyond the longest list. -/
  | noSuchItem
  /-- A text to be quoted had more quotes in a row than one byte counts. -/
  | quoteOverflow
deriving DecidableEq, Repr

end CodeCensus
