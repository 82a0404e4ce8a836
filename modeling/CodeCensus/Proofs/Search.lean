import CodeCensus.Proofs.Amendment

/-!
# What a search finds

`Rose.locate?` runs through all subtrees in pre-order. `Rose.Foremost` says of a tree, by the way
down to a position, that nothing before the position has the property: neither a label on the way
nor one in a tree that the way passes on its left. The two agree, and the second is the one that
changes to the tree keep.
-/

namespace CodeCensus.Rose

variable {α : Type} {property : α → Bool} {tree subtree : Rose α} {position : Position}

/-- The subtree at a position is the first one whose label has a property. -/
inductive Foremost (property : α → Bool) : Rose α → Position → Rose α → Prop
  | top {tree : Rose α} (holds : property tree.label = true) : Foremost property tree [] tree
  | inside {label : α} {before after : List (Rose α)} {child subtree : Rose α} {rest : Position}
      (notTop : property label = false)
      (notBefore : ∀ sibling ∈ before, ∀ other ∈ sibling.labels, property other = false)
      (further : Foremost property child rest subtree) :
      Foremost property ⟨label, before ++ child :: after⟩ (before.length :: rest) subtree

/-- A search fails exactly if nothing has the property. -/
theorem locate?_eq_none :
    tree.locate? property = none ↔ ∀ label ∈ tree.labels, property label = false := by
  rw [locate?, List.find?_eq_none, labels, List.forall_mem_map]
  simp

/-- Among some trees, a search finds the first tree where it succeeds. -/
theorem find?_nodesFrom {index : Nat} {trees : List (Rose α)} :
    (nodesFrom index trees).find? (fun node => property node.2.label) = some (position, subtree) ↔
      ∃ before child after rest, trees = before ++ child :: after ∧
        position = (index + before.length) :: rest ∧
        (∀ sibling ∈ before, sibling.locate? property = none) ∧
        child.locate? property = some (rest, subtree) := by
  induction trees generalizing index with
  | nil => simp [nodesFrom]
  | cons tree trees inductionHypothesis =>
    have inTree : (tree.nodes.map fun node => (index :: node.1, node.2)).find?
        (fun node => property node.2.label) =
          (tree.locate? property).map fun node => (index :: node.1, node.2) :=
      List.find?_map
    rw [nodesFrom, List.find?_append, inTree]
    cases found : tree.locate? property with
    | some node =>
      simp only [Option.map_some, Option.some_or, Option.some.injEq, Prod.mk.injEq]
      constructor
      · rintro ⟨rfl, rfl⟩
        exact ⟨[], tree, trees, node.1, rfl, rfl, by simp, found⟩
      · rintro ⟨_ | ⟨first, before⟩, child, after, rest, same, rfl, missed, here⟩
        · obtain ⟨rfl, rfl⟩ := List.cons.inj same
          obtain rfl := Option.some.inj (found.symm.trans here)
          exact ⟨rfl, rfl⟩
        · obtain ⟨rfl, -⟩ := List.cons.inj same
          simp [missed tree List.mem_cons_self] at found
    | none =>
      rw [Option.map_none, Option.none_or, inductionHypothesis]
      constructor
      · rintro ⟨before, child, after, rest, rfl, rfl, missed, here⟩
        refine ⟨tree :: before, child, after, rest, rfl, ?_, ?_, here⟩
        · rw [List.length_cons, Nat.add_assoc, Nat.add_comm 1]
        · exact List.forall_mem_cons.mpr ⟨found, missed⟩
      · rintro ⟨_ | ⟨first, before⟩, child, after, rest, same, rfl, missed, here⟩
        · obtain ⟨rfl, rfl⟩ := List.cons.inj same
          rw [found] at here
          cases here
        · obtain ⟨rfl, rfl⟩ := List.cons.inj same
          refine ⟨before, child, after, rest, rfl, ?_, ?_, here⟩
          · rw [List.length_cons, Nat.add_assoc, Nat.add_comm 1]
          · exact (List.forall_mem_cons.mp missed).2

/-- A search finds the foremost subtree. -/
theorem locate?_eq_some :
    tree.locate? property = some (position, subtree) ↔ Foremost property tree position subtree := by
  induction tree using induct generalizing position with
  | node label children inductionHypothesis =>
    rw [locate?, nodes, List.find?_cons]
    cases holds : property label with
    | true =>
      constructor
      · intro found
        obtain ⟨rfl, rfl⟩ := Prod.mk.inj (Option.some.inj found)
        exact .top holds
      · intro foremost
        cases foremost with
        | top => rfl
        | inside notTop => simp [holds] at notTop
    | false =>
      rw [find?_nodesFrom]
      constructor
      · rintro ⟨before, child, after, rest, rfl, rfl, missed, here⟩
        rw [Nat.zero_add]
        refine .inside holds (fun sibling member => locate?_eq_none.mp (missed sibling member)) ?_
        exact (inductionHypothesis child (by simp)).mp here
      · intro foremost
        cases foremost with
        | top claimed => simp [holds] at claimed
        | @inside _ before after child _ rest notTop notBefore further =>
          refine ⟨before, child, after, rest, rfl, by simp, ?_, ?_⟩
          · exact fun sibling member => locate?_eq_none.mpr (notBefore sibling member)
          · exact (inductionHypothesis child (by simp)).mpr further

/-- What is found keeps being found when it changes and keeps the property, as long as the labels on
the way do neither gain nor lose it. -/
theorem locate?_amend {way : α → α} {change : Rose α → Rose α}
    (ways : ∀ label, property (way label) = property label)
    (found : tree.locate? property = some (position, subtree))
    (kept : property (change subtree).label = true) :
    (tree.amend way change position).locate? property = some (position, change subtree) := by
  rw [locate?_eq_some] at found ⊢
  induction found with
  | top holds => exact .top kept
  | inside notTop notBefore further inductionHypothesis =>
    rw [amend, modify_split]
    exact .inside ((ways _).trans notTop) notBefore (inductionHypothesis kept)

end CodeCensus.Rose
