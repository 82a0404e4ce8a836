/-!
# Places of nodes

A handle names a node in one forest only. Across forests a node is known by its place: the cell it
was put into, and how many nodes had left the forest by then. A node takes the cell that was left
last, or else the first cell never taken. A cell is taken again only after a node has left, so no
two nodes of a forest ever have the same place.
-/

namespace CodeCensus

/-- The name of a node in its forest: its number in order of insertion. -/
abbrev Handle := Nat

/-- Where and when a node was put into a forest. -/
structure Place where
  cell : Nat
  /-- How many nodes had left by then. -/
  departures : Nat
deriving DecidableEq, Repr

/-- The places of all nodes that were ever in a forest, and the cells that are free. -/
structure Places where
  /-- In order of handles. -/
  taken : Array Place
  /-- The cell left last comes first. -/
  left : List Nat
  /-- How many cells were ever taken; the next is the first that never was. -/
  cells : Nat
  departures : Nat
deriving Repr

namespace Places

/-- No node was ever there. -/
def none : Places := ⟨#[], [], 0, 0⟩

/-- Gives the next node a place. -/
def take (places : Places) : Places :=
  match places.left with
  | cell :: left =>
    { places with taken := places.taken.push ⟨cell, places.departures⟩, left }
  | [] =>
    { places with
      taken := places.taken.push ⟨places.cells, places.departures⟩
      cells := places.cells + 1 }

/-- The place of a node, also after it left. -/
def place? (places : Places) (handle : Handle) : Option Place :=
  places.taken[handle]?

/-- Frees the cell of a node. -/
def leave (places : Places) (handle : Handle) : Places :=
  match places.place? handle with
  | some place =>
    { places with left := place.cell :: places.left, departures := places.departures + 1 }
  | .none => places

/-- The node of another forest that has, or had, the same place as a node. -/
def counterpart? (places other : Places) (handle : Handle) : Option Handle :=
  (places.place? handle).bind fun place => other.taken.idxOf? place

end Places

end CodeCensus
