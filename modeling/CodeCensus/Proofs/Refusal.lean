import CodeCensus.Proofs.Course

/-!
# Refusals

A tree refuses to put anything below a function leaf and to let its root go, and it refuses nothing
else. A refusal comes before the first change: it leaves the tree as it was, with every handle and
everything its observers have. So does a mutation that finds nothing.
-/

namespace CodeCensus.Tree

variable {tree : Tree} {shape : Rose Handle} {outline : Outline} {mutation : Mutation}
  {outcome : Outcome} {cause : TreeError} {scope name : String}

/-- A mutation ends with an error. -/
def Refuses (tree : Tree) (mutation : Mutation) (cause : TreeError) : Prop :=
  ∃ outcome, tree.mutate mutation = .ok outcome ∧ outcome.result = .error cause

/-- A mutation that finds nothing does nothing. -/
theorem mutate_of_misses (absent : tree.misses mutation = true) :
    tree.mutate mutation = .ok ⟨tree, .ok ()⟩ := by
  cases mutation with
  | create scope entry =>
    have nothing : tree.find? scope = none := by simpa [misses] using absent
    simp [mutate, create, nothing]
  | update scope entry =>
    have nothing : tree.findWithin? scope entry.name = none := by simpa [misses] using absent
    simp [mutate, update, nothing]
  | rename scope previous name =>
    have nothing : tree.findWithin? scope previous = none := by simpa [misses] using absent
    simp [mutate, rename, nothing]
  | delete scope name =>
    have nothing : tree.findWithin? scope name = none := by simpa [misses] using absent
    simp [mutate, delete, nothing]

private theorem refusal?_create_eq_some {entry : Entry} :
    tree.refusal? (.create scope entry) = some cause ↔ cause = .notABranch scope ∧
      ∃ handle node, tree.find? scope = some handle ∧ tree.node? handle = some node ∧
        node.isLeaf = true := by
  simp only [refusal?, Option.ite_none_right_eq_some, Option.any_eq_true, Option.bind_eq_some_iff,
    Option.some.injEq]
  constructor
  · rintro ⟨⟨node, ⟨handle, found, live⟩, leaf⟩, rfl⟩
    exact ⟨rfl, handle, node, found, live, leaf⟩
  · rintro ⟨rfl, handle, node, found, live, leaf⟩
    exact ⟨⟨node, ⟨handle, found, live⟩, leaf⟩, rfl⟩

/-- A deletion is refused exactly if both its names are the name of the root. -/
theorem refusal?_delete_eq_some : tree.refusal? (.delete scope name) = some cause ↔
    cause = .rootDetach name ∧ tree.rootName? = some scope ∧ tree.rootName? = some name := by
  simp only [refusal?, Option.ite_none_right_eq_some, Option.some.injEq]
  constructor
  · rintro ⟨⟨scopeNamed, named⟩, rfl⟩
    obtain rfl : scope = name := Option.some.inj (scopeNamed.symm.trans named)
    exact ⟨rfl, scopeNamed, named⟩
  · rintro ⟨rfl, scopeNamed, named⟩
    obtain rfl : scope = name := Option.some.inj (scopeNamed.symm.trans named)
    exact ⟨⟨scopeNamed, named⟩, rfl⟩

/-- An update is refused exactly if both its names are the name of the root. -/
theorem refusal?_update_eq_some {entry : Entry} :
    tree.refusal? (.update scope entry) = some cause ↔ cause = .rootDetach entry.name ∧
      tree.rootName? = some scope ∧ tree.rootName? = some entry.name :=
  refusal?_delete_eq_some

/-- Whatever a tree refuses, it refuses at once. -/
theorem Shows.mutate_of_refusal (shows : tree.Shows shape outline)
    (refusal : tree.refusal? mutation = some cause) :
    tree.mutate mutation = .ok ⟨tree, .error cause⟩ := by
  obtain ⟨top, rootLive, noParent⟩ := shows.root_live
  have rootNamed : ∀ {name : String}, tree.rootName? = some name → top.name = name := by
    intro name named
    simpa [rootName?, node?, rootLive] using named
  cases mutation with
  | create scope entry =>
    obtain ⟨rfl, handle, node, found, live, leaf⟩ := refusal?_create_eq_some.mp refusal
    obtain ⟨other, otherLive, sameName⟩ := name_of_locate found
    obtain rfl : other = node := Option.some.inj (otherLive.symm.trans live)
    simp [Tree.mutate, Tree.create, found, materialize_leaf otherLive leaf, sameName]
  | update scope entry =>
    obtain ⟨rfl, scopeNamed, named⟩ := refusal?_update_eq_some.mp refusal
    have found := shows.findWithin?_rootName scopeNamed named
    simp [Tree.mutate, Tree.update, found, node?, rootLive, noParent, rootNamed named]
  | rename scope previous name => cases refusal
  | delete scope name =>
    obtain ⟨rfl, scopeNamed, named⟩ := refusal?_delete_eq_some.mp refusal
    have found := shows.findWithin?_rootName scopeNamed named
    simp [Tree.mutate, Tree.delete, found, node?, rootLive, noParent, rootNamed named]

/-- An error at the end of a course is a refusal, and nothing has happened by then. -/
theorem Course.refusal_of_error (course : tree.Course shape mutation outcome)
    (failed : outcome.result = .error cause) :
    tree.refusal? mutation = some cause ∧ outcome.tree = tree := by
  cases course with
  | refused refusal =>
    obtain rfl := Except.error.inj failed
    exact ⟨refusal, rfl⟩
  | missed absent => cases failed
  | renamed found here live => cases failed
  | created found here live branch materializes grows raises => cases failed
  | deleted => cases failed
  | updated => cases failed

/-- A tree refuses a mutation exactly when names and kinds speak against it. -/
theorem Shows.refuses_iff (shows : tree.Shows shape outline) :
    tree.Refuses mutation cause ↔ tree.refusal? mutation = some cause := by
  constructor
  · rintro ⟨outcome, done, failed⟩
    exact ((shows.course done).refusal_of_error failed).1
  · intro refusal
    exact ⟨_, shows.mutate_of_refusal refusal, rfl⟩

/-- Appending an entry fails before the first node or not at all. -/
theorem materialize_of_error {parent : Handle} {entry : Entry} {grown : Tree}
    (failed : tree.materialize parent entry = (grown, .error cause)) :
    grown = tree ∧ ∀ node, tree.node? parent = some node → node.isLeaf = true := by
  cases live : tree.forest.node? parent with
  | none =>
    refine ⟨?_, fun node found => by simp [node?, live] at found⟩
    cases entry
    simp only [materialize, Forest.insert, live, Prod.mk.injEq] at failed
    exact failed.1.symm
  | some node =>
    cases leaf : node.isLeaf with
    | true =>
      rw [materialize_leaf live leaf, Prod.mk.injEq] at failed
      refine ⟨failed.1.symm, fun other found => ?_⟩
      obtain rfl : node = other := Option.some.inj (live.symm.trans found)
      exact leaf
    | false =>
      obtain ⟨_, _, done, -⟩ := materialize_grown entry tree live leaf
      rw [done] at failed
      cases failed

/-- A creation fails exactly when its scope is a function leaf, a removal or a replacement exactly
when the root is both scope and target, and a renaming never. After a failure, or when nothing is
found, the tree is what it was, with all its handles and all that its observers have. An entry is
appended whole or not at all, and only a counter that leaves its word keeps a mutation from
ending. -/
theorem refusals_leave_no_trace (tree : Tree) (reachable : tree.Reachable) :
    (∀ scope entry cause, tree.Refuses (.create scope entry) cause ↔ cause = .notABranch scope ∧
      ∃ handle node, tree.find? scope = some handle ∧ tree.node? handle = some node ∧
        node.isLeaf = true) ∧
    (∀ scope name cause, tree.Refuses (.delete scope name) cause ↔ cause = .rootDetach name ∧
      tree.rootName? = some scope ∧ tree.rootName? = some name) ∧
    (∀ scope entry cause, tree.Refuses (.update scope entry) cause ↔
      cause = .rootDetach entry.name ∧
      tree.rootName? = some scope ∧ tree.rootName? = some entry.name) ∧
    (∀ scope previous name cause, ¬tree.Refuses (.rename scope previous name) cause) ∧
    (∀ mutation outcome, tree.mutate mutation = .ok outcome →
      outcome.result ≠ .ok () ∨ tree.misses mutation = true → outcome.tree = tree) ∧
    (∀ parent entry,
      (∃ grown handle, tree.materialize parent entry = (grown, .ok handle)) ∨
      ∃ cause, tree.materialize parent entry = (tree, .error cause) ∧
        ∀ node, tree.node? parent = some node → node.isLeaf = true) ∧
    ∃ outline, tree.outline? = some outline ∧ ∀ mutation, outline.Fits mutation →
      ∃ outcome, tree.mutate mutation = .ok outcome := by
  obtain ⟨shape, outline, shows⟩ := reachable.shows
  refine ⟨fun scope entry cause => shows.refuses_iff.trans refusal?_create_eq_some,
    fun scope name cause => shows.refuses_iff.trans refusal?_delete_eq_some,
    fun scope entry cause => shows.refuses_iff.trans refusal?_update_eq_some, ?_, ?_, ?_,
    outline, shows.outline?, fun mutation => (shows.mutate mutation).2⟩
  · intro scope previous name cause refuses
    cases shows.refuses_iff.mp refuses
  · rintro mutation outcome done (failed | absent)
    · cases result : outcome.result with
      | ok _ => exact absurd result failed
      | error cause => exact ((shows.course done).refusal_of_error result).2
    · rw [mutate_of_misses absent] at done
      obtain rfl := Except.ok.inj done
      rfl
  · intro parent entry
    cases appended : tree.materialize parent entry with
    | mk grown result =>
      cases result with
      | ok handle => exact .inl ⟨grown, handle, rfl⟩
      | error cause =>
        obtain ⟨rfl, leaf⟩ := materialize_of_error appended
        exact .inr ⟨cause, rfl, leaf⟩

/-- A project with a function at its top refuses to put a class into the function, and refuses to
remove itself. -/
theorem function_refuses_class :
    let tree := (ofEntry ⟨.module, "p", ⟨0, 0⟩, [.function "f"]⟩).tree
    tree.Reachable ∧
      tree.Refuses (.create "f" (.ofClass "A" [])) (.notABranch "f") ∧
      tree.Refuses (.delete "p" "p") (.rootDetach "p") ∧
      ¬tree.Refuses (.delete "p" "f") (.rootDetach "f") := by
  intro tree
  have reachable : tree.Reachable := ⟨_, .refl⟩
  obtain ⟨creation, removal, -⟩ := refusals_leave_no_trace tree reachable
  refine ⟨reachable, ?_, ?_, ?_⟩
  · exact (creation "f" _ _).mpr ⟨rfl, 1, _, rfl, rfl, rfl⟩
  · exact (removal "p" "p" _).mpr ⟨rfl, rfl, rfl⟩
  · rw [removal]
    rintro ⟨-, -, named⟩
    exact absurd (Option.some.inj named) (by decide)

end CodeCensus.Tree
