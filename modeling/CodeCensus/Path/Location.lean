import CodeCensus.Path

/-!
# Locations

The location of a path is the list of its components after dots are worked out: single dots vanish,
two dots take back the component before them, and an absolute path starts with the component `/`.
-/

namespace CodeCensus

/-- Where a path leads: its components after dots are worked out. -/
abbrev Location := List String

/-- The components that remain of a path, from right to left, after one more component. -/
def Location.extend (reversed : Location) : Path.Component → Location
  | .root => ["/"]
  | .here => reversed
  | .up => if reversed.head? = some "/" then reversed else reversed.tail
  | .name text => text :: reversed

/-- Where a path leads. -/
def Path.location (path : Path) : Location :=
  (path.components.foldl Location.extend []).reverse

/-- A location and all locations above it, from the outermost on. -/
def Location.levels (location : Location) : List Location :=
  (List.range (location.length + 1)).map location.take

end CodeCensus
