/-!
# Rose trees

A tree of labels in which every node has its children in order.
-/

namespace CodeCensus

/-- A label and the trees below it, from left to right. -/
structure Rose (α : Type) where
  label : α
  children : List (Rose α)
deriving Repr, Inhabited

end CodeCensus
