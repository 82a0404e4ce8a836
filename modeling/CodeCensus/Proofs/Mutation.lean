import CodeCensus.Proofs.Propagation

/-!
# Mutations of outlines

What the four mutations mean on a plain outline: find a scope and a target by name, exchange the
children of one unit, and add one difference to that unit and everything above it. No handle, no
parent link and no order of steps appears here.
-/

namespace CodeCensus

/-- The mutations of a tree with their arguments. -/
inductive Mutation
  | create (scope : String) (entry : Entry)
  | update (scope : String) (entry : Entry)
  | rename (scope previous name : String)
  | delete (scope name : String)

/-- Mutates a tree. -/
def Tree.mutate (tree : Tree) : Mutation → Except Fault Outcome
  | .create scope entry => tree.create scope entry
  | .update scope entry => tree.update scope entry
  | .rename scope previous name => .ok (tree.rename scope previous name)
  | .delete scope name => tree.delete scope name

/-- Two differences added one after the other are their sum. -/
theorem Facts.raise_raise (first second : Count) :
    Facts.raise second ∘ Facts.raise first = Facts.raise (first + second) := by
  funext facts
  simp [Facts.raise, add_assoc]

namespace Outline

/-- The first unit in pre-order with the given name, and its position. -/
def find? (outline : Outline) (name : String) : Option (Position × Outline) :=
  outline.locate? fun facts => facts.name == name

/-- The first unit with the given name inside the first unit with the name of the scope, and its
position in the whole. -/
def findWithin? (outline : Outline) (scope name : String) : Option (Position × Outline) :=
  (outline.find? scope).bind fun upper =>
    (upper.2.find? name).map fun lower => (upper.1 ++ lower.1, lower.2)

/-- The outline with other children at a position, and a difference added to the unit there and to
everything above it. -/
def exchange (delta : Count) (change : List Outline → List Outline) :
    Position → Outline → Outline :=
  Rose.amend (Facts.raise delta) fun unit => ⟨unit.label.raise delta, change unit.children⟩

@[simp] theorem label_exchange (delta : Count) (change : List Outline → List Outline)
    (position : Position) (outline : Outline) :
    (outline.exchange delta change position).label = outline.label.raise delta := by
  cases outline
  cases position <;> rfl

/-- Two exchanges at one position are one. -/
theorem exchange_exchange (first second : Count) (change later : List Outline → List Outline)
    (position : Position) (outline : Outline) :
    (outline.exchange first change position).exchange second later position =
      outline.exchange (first + second) (fun units => later (change units)) position := by
  unfold exchange
  rw [Rose.amend_amend, Facts.raise_raise, ← Facts.raise_raise]
  rfl

/-- To graft units and raise the counters above is to exchange the children for more. -/
theorem exchange_graft (delta : Count) (grown : List Outline) (position : Position)
    (outline : Outline) : exchange delta id position (outline.graft grown position) =
      outline.exchange delta (· ++ grown) position := by
  unfold exchange Rose.graft
  rw [Rose.amend_amend]
  rfl

/-- To exchange children and cut one off is one exchange. -/
theorem prune_exchange (delta : Count) (change : List Outline → List Outline) (index : Nat)
    (position : Position) (outline : Outline) :
    (outline.exchange delta change position).prune index position =
      outline.exchange delta (fun units => (change units).eraseIdx index) position := by
  unfold exchange Rose.prune
  rw [Rose.amend_amend]
  rfl

/-- The outline with an entry as the last child of the scope. -/
def create (outline : Outline) (scope : String) (entry : Entry) : Except TreeError Outline :=
  match outline.find? scope with
  | none => .ok outline
  | some (position, parent) =>
    if parent.label.kind.isLeaf then .error (.notABranch parent.label.name)
    else .ok (outline.exchange entry.counts (· ++ [ofEntry entry]) position)

/-- The outline with an entry instead of the unit of its name, as the last of its siblings. -/
def update (outline : Outline) (scope : String) (entry : Entry) : Except TreeError Outline :=
  match outline.findWithin? scope entry.name with
  | none => .ok outline
  | some (position, old) =>
    match position.getLast? with
    | none => .error (.rootDetach old.label.name)
    | some index =>
      .ok (outline.exchange (entry.counts - old.label.counts)
        (fun siblings => (siblings ++ [ofEntry entry]).eraseIdx index) position.dropLast)

/-- The outline with a new name for one unit. -/
def rename (outline : Outline) (scope previous name : String) : Outline :=
  match outline.findWithin? scope previous with
  | none => outline
  | some (position, _) =>
    outline.amend id (fun unit => ⟨{ unit.label with name }, unit.children⟩) position

/-- The outline without one unit. -/
def delete (outline : Outline) (scope name : String) : Except TreeError Outline :=
  match outline.findWithin? scope name with
  | none => .ok outline
  | some (position, target) =>
    match position.getLast? with
    | none => .error (.rootDetach target.label.name)
    | some index =>
      .ok (outline.exchange (-target.label.counts) (·.eraseIdx index) position.dropLast)

/-- A new name changes neither the kind nor the counters at the top. -/
theorem label_renamed (outline : Outline) (position : Position) (name : String) :
    let renamed := outline.amend id (fun unit => ⟨{ unit.label with name }, unit.children⟩) position
    renamed.label.kind = outline.label.kind ∧ renamed.label.counts = outline.label.counts := by
  cases outline
  cases position <;> exact ⟨rfl, rfl⟩

/-- What a mutation makes of an outline, or why it refuses. -/
def mutate (outline : Outline) : Mutation → Except TreeError Outline
  | .create scope entry => outline.create scope entry
  | .update scope entry => outline.update scope entry
  | .rename scope previous name => .ok (outline.rename scope previous name)
  | .delete scope name => outline.delete scope name

/-- Where a mutation changes counters, there and everywhere above, and by how much. -/
def ripple (outline : Outline) : Mutation → Option (Position × Count)
  | .create scope entry => (outline.find? scope).map fun found => (found.1, entry.counts)
  | .update scope entry =>
    (outline.findWithin? scope entry.name).map fun found =>
      (found.1.dropLast, entry.counts - found.2.label.counts)
  | .rename _ _ _ => none
  | .delete scope name =>
    (outline.findWithin? scope name).map fun found => (found.1.dropLast, -found.2.label.counts)

/-- No counter leaves its word in a mutation. -/
def Fits (outline : Outline) (mutation : Mutation) : Prop :=
  ∀ position delta, outline.ripple mutation = some (position, delta) →
    delta.inRange ∧ (-delta).inRange ∧
      ∀ facts ∈ outline.spine position, (facts.counts + delta).inRange

end Outline

end CodeCensus
