import CodeCensus.Proofs.Continuity

/-!
# Histories of forests

A call to a forest is an insertion or a detachment; a refused call leaves the forest as it
was. Calls may name any handle, live or not. Every forest that calls can make is `Formed`,
and what was true of it in the past restricts its future through `Continues`.
-/

namespace CodeCensus.Forest

variable {forest : Forest}

/-- A call to a forest with its arguments. -/
inductive Call
  | insert (entry : Entry) (parent : Option Handle)
  | detach (handle : Handle)

/-- The forest after a call. -/
def perform (forest : Forest) : Call → Forest
  | .insert entry parent =>
    match forest.insert entry parent with
    | .ok (grown, _) => grown
    | .error _ => forest
  | .detach handle =>
    match forest.detach handle with
    | .ok (pruned, _, _) => pruned
    | .error _ => forest

/-- The forest after some calls, one after the other. -/
def replay (forest : Forest) (calls : List Call) : Forest :=
  calls.foldl perform forest

/-- The forests that nothing was asked of yet. -/
def Initial (forest : Forest) : Prop :=
  forest = .empty ∨ ∃ entry, forest = .ofRoot entry

/-- A forest of one root is in shape. -/
theorem formed_ofRoot (entry : Entry) : (ofRoot entry).Formed [⟨0, []⟩] := by
  have lookup : ∀ handle, (ofRoot entry).node? handle = if handle = empty.fresh then
      some (.ofEntry entry none) else empty.node? handle := fun handle => node?_append _
  exact formed_empty.planted rfl lookup

/-- A forest is in shape when it begins. -/
theorem Initial.formed (initial : forest.Initial) : ∃ shapes, forest.Formed shapes := by
  rcases initial with rfl | ⟨entry, rfl⟩
  · exact ⟨[], formed_empty⟩
  · exact ⟨[⟨0, []⟩], formed_ofRoot entry⟩

/-- The handle of a new node is the next one that was never given out. -/
theorem insert_fresh {entry : Entry} {parent : Option Handle} {grown : Forest} {handle : Handle}
    (inserted : forest.insert entry parent = .ok (grown, handle)) : handle = forest.fresh := by
  cases parent with
  | none =>
    simp only [insert, Except.ok.injEq, Prod.mk.injEq] at inserted
    exact inserted.2.symm
  | some parent =>
    cases live : forest.node? parent with
    | none => simp [insert, live] at inserted
    | some node =>
      cases leaf : node.isLeaf with
      | true => simp [insert, live, leaf] at inserted
      | false =>
        obtain ⟨_, done, -⟩ := insert_grafted live leaf entry
        rw [done] at inserted
        simp only [Except.ok.injEq, Prod.mk.injEq] at inserted
        exact inserted.2.symm

/-- A node at the top of a formed forest is the whole of its shape's way up. -/
theorem Formed.detach {shapes : List (Rose Handle)} (formed : forest.Formed shapes)
    (handle : Handle) :
    (∃ cause, forest.detach handle = .error cause) ∨
      ∃ before shape after position subshape index child pruned,
        shapes = before ++ shape :: after ∧ shape.at? position = some subshape ∧
        subshape.children[index]? = some child ∧ child.label = handle ∧
        forest.detach handle = .ok (pruned, subshape.label, index) ∧
        Pruned forest pruned subshape.label index child := by
  cases live : forest.node? handle with
  | none => exact .inl ⟨.staleNode, by simp [Forest.detach, live]⟩
  | some node =>
    obtain ⟨shape, member, position, found, here, rfl⟩ := formed.position live
    have shaped := formed.shaped shape member
    rcases shaped.parent_at? here live with ⟨-, top⟩ | ⟨upper, index, above, -, there, below, -, -⟩
    · exact .inl ⟨.rootDetach node.name, by simp [Forest.detach, live, top]⟩
    · obtain ⟨before, after, rfl⟩ := List.append_of_mem member
      obtain ⟨pruned, detached, cut⟩ :=
        detach_pruned shaped (formed.distinct_of_mem member) there below
      exact .inr ⟨before, shape, after, upper, above, index, found, pruned, rfl, there, below, rfl,
        detached, cut⟩

/-- One call keeps a forest formed and continues it. -/
theorem Formed.perform {shapes : List (Rose Handle)} (formed : forest.Formed shapes)
    (call : Call) :
    (∃ later, (forest.perform call).Formed later) ∧
      Continues forest (forest.perform call) := by
  cases call with
  | insert entry parent =>
    cases parent with
    | none =>
      obtain ⟨planted, done, root, slots, lookup⟩ := insert_root forest entry
      simp only [Forest.perform, done]
      exact ⟨⟨_, formed.planted root lookup⟩, planted_continues root slots lookup⟩
    | some parent =>
      cases live : forest.node? parent with
      | none =>
        simp only [Forest.perform, insert, live]
        exact ⟨⟨shapes, formed⟩, .refl⟩
      | some node =>
        cases leaf : node.isLeaf with
        | true =>
          simp only [Forest.perform, insert, live, leaf, if_true]
          exact ⟨⟨shapes, formed⟩, .refl⟩
        | false =>
          obtain ⟨grown, done, grafted, -⟩ := insert_grafted live leaf entry
          obtain ⟨shape, member, position, found, here, rfl⟩ := formed.position live
          obtain ⟨before, after, rfl⟩ := List.append_of_mem member
          simp only [Forest.perform, done]
          exact ⟨⟨_, formed.grafted here live leaf grafted⟩, grafted.continues⟩
  | detach handle =>
    rcases formed.detach handle with ⟨cause, refused⟩ |
      ⟨before, shape, after, position, above, index, child, pruned, rfl, here, found, -, done, cut⟩
    · simp only [Forest.perform, refused]
      exact ⟨⟨shapes, formed⟩, .refl⟩
    · simp only [Forest.perform, done]
      obtain ⟨_, aboveShaped⟩ := (formed.shaped shape (by simp)).at? here
      exact ⟨⟨_, formed.pruned here found cut⟩,
        cut.continues (aboveShaped.child (List.mem_of_getElem? found))⟩

/-- Any number of calls keep a forest formed and continue it. -/
theorem Formed.replay {shapes : List (Rose Handle)} (formed : forest.Formed shapes)
    (calls : List Call) :
    (∃ later, (forest.replay calls).Formed later) ∧
      Continues forest (forest.replay calls) := by
  induction calls generalizing forest shapes with
  | nil => exact ⟨⟨shapes, formed⟩, .refl⟩
  | cons call calls inductionHypothesis =>
    obtain ⟨⟨next, nextFormed⟩, firstly⟩ := formed.perform call
    obtain ⟨later, secondly⟩ := inductionHypothesis nextFormed
    exact ⟨later, firstly.trans secondly⟩

/-- The root that a forest names is live and has no parent. -/
theorem Formed.root_top {shapes : List (Rose Handle)} (formed : forest.Formed shapes)
    {top : Handle} (isRoot : forest.root = some top) :
    ∃ node, forest.node? top = some node ∧ node.parent = none := by
  obtain ⟨shape, member, rfl⟩ := formed.rooted top isRoot
  obtain ⟨node, live, parentLink, -⟩ := (formed.shaped shape member).top
  exact ⟨node, live, parentLink⟩

end CodeCensus.Forest
