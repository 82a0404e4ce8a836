import CodeCensus.Decimal.Spelled

/-!
# TOML values

The values of a TOML document. A table remembers how it came to be, because that decides what may
still be added to it, and an array whether further headers may append to it.
-/

namespace CodeCensus.Toml

/-- How a table came to be. -/
inductive Origin
  /-- Written in braces; complete. -/
  | inline
  /-- Named by a header of its own, or the element that a header appended. -/
  | header
  /-- On the way to a table that a header names. -/
  | implied
  /-- On the way of a dotted key. -/
  | dotted
deriving DecidableEq, Repr

/-- A value of a TOML document. -/
inductive Value
  | text (contents : String)
  | integer (number : Int)
  | float (number : Decimal.Spelled)
  | boolean (value : Bool)
  | moment (spelling : String)
  | array (appendable : Bool) (items : List Value)
  | table (origin : Origin) (entries : List (String × Value))
deriving Repr

/-- The entries of a table, in order of first mention. -/
abbrev Entries := List (String × Value)

namespace Value

/-- The contents of a text value. -/
def text? : Value → Option String
  | .text contents => some contents
  | _ => none

/-- A truth value. -/
def boolean? : Value → Option Bool
  | .boolean value => some value
  | _ => none

/-- The contents of an array of texts. -/
def texts? : Value → Option (List String)
  | .array _ items => items.mapM text?
  | _ => none

end Value

/-- Gives a key a value, at its place if it has one and else at the end. -/
def Entries.put (entries : Entries) (key : String) (value : Value) : Entries :=
  if (entries.lookup key).isSome then
    entries.map fun entry => if entry.1 == key then (key, value) else entry
  else
    entries ++ [(key, value)]

end CodeCensus.Toml
