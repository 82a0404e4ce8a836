import CodeCensus.Proofs.FailedEvent
import CodeCensus.Proofs.Population

/-!
# What a mutation strikes

A removal, a replacement and a renaming first find a scope by name, then their target by name inside
that scope. The second search begins at the scope itself, so a target that is looked up under the
name of its scope is the scope, and only such a target is: under any other name it stands strictly
below. A mutation strikes its target and nothing else, so what an event about something inside a
directory does to the node of that directory is decided by the two names.
-/

namespace CodeCensus

open Relation (ReflTransGen TransGen)

/-- Under which names a mutation looks for its target: that of the scope and its own. A creation has
no target. -/
def Mutation.aim? : Mutation → Option (String × String)
  | .create _ _ => none
  | .update scope entry => some (scope, entry.name)
  | .rename scope previous _ => some (scope, previous)
  | .delete scope name => some (scope, name)

/-- The name that the target of a mutation goes on with, if the mutation does not take it away. -/
def Mutation.newName? : Mutation → Option String
  | .rename _ _ name => some name
  | .create _ _ | .update _ _ | .delete _ _ => none

namespace Tree

variable {tree : Tree} {shape : Rose Handle} {outline : Outline} {within target : Handle}
  {scope name : String}

/-- The name of a node, if it is live. -/
def name? (tree : Tree) (handle : Handle) : Option String :=
  (tree.node? handle).map Node.name

/-- A handle has a name if it is live and its node has it. -/
theorem name?_eq_some : tree.name? target = some name ↔
    ∃ node, tree.forest.node? target = some node ∧ node.name = name :=
  Option.map_eq_some_iff

/-! ### Where the target stands -/

/-- What is found inside a scope stands at or below the scope. -/
theorem Shows.findWithin_descends (shows : tree.Shows shape outline)
    (found : tree.findWithin? scope name = some target) :
    ∃ within, tree.find? scope = some within ∧ tree.name? within = some scope ∧
      tree.name? target = some name ∧ ReflTransGen tree.forest.IsChild within target := by
  obtain ⟨within, scopeFound, located⟩ := Option.bind_eq_some_iff.mp found
  refine ⟨within, scopeFound, name?_eq_some.mpr (name_of_locate scopeFound),
    name?_eq_some.mpr (name_of_locate located), ?_⟩
  rcases shows.find_cases scope with ⟨absent, -⟩ | ⟨position, scopeShape, here, scopeIs, -⟩
  · cases absent.symm.trans scopeFound
  · obtain rfl : scopeShape.label = within := Option.some.inj (scopeIs.symm.trans scopeFound)
    rcases shows.locate_cases here name with ⟨absent, -⟩ | ⟨lower, targetShape, below, at_, -⟩
    · cases absent.symm.trans located
    · obtain rfl : targetShape.label = target := Option.some.inj (at_.symm.trans located)
      obtain ⟨_, scopeShaped⟩ := shows.shaped.at? here
      exact scopeShaped.descends below

/-- A scope that is looked for inside itself is found. -/
theorem Shows.findWithin?_scope (shows : tree.Shows shape outline)
    (found : tree.find? scope = some within) : tree.findWithin? scope scope = some within := by
  rcases shows.find_cases scope with ⟨absent, -⟩ | ⟨position, scopeShape, here, scopeIs, -⟩
  · cases absent.symm.trans found
  · obtain rfl : scopeShape.label = within := Option.some.inj (scopeIs.symm.trans found)
    obtain ⟨_, scopeShaped⟩ := shows.shaped.at? here
    obtain ⟨node, live, rfl⟩ := name_of_locate found
    rw [findWithin?, found, Option.bind_some]
    exact scopeShaped.locate_own (Rose.distinct_of_at? shows.distinct here) live

/-- Nothing stands strictly below itself. -/
theorem Shows.not_below_self (shows : tree.Shows shape outline) :
    ¬TransGen tree.forest.IsChild target target := by
  intro cycle
  obtain ⟨_, ⟨node, live, -⟩, -⟩ := TransGen.head'_iff.mp cycle
  obtain ⟨subshape, _, rfl, shaped, distinct, -⟩ := shows.subshape live
  have below := ((shows.mem_below live).2 subshape.label).mpr cycle
  obtain ⟨label, children⟩ := subshape
  rw [below_of_shaped shaped distinct] at below
  rw [Rose.labels_mk, List.nodup_cons] at distinct
  exact distinct.1 below

/-- The target of a mutation stands at its scope or strictly below, and the two names tell which. -/
theorem Shows.target_of_findWithin? (shows : tree.Shows shape outline)
    (found : tree.findWithin? scope name = some target) :
    ∃ within, tree.find? scope = some within ∧ tree.name? within = some scope ∧
      tree.name? target = some name ∧
      (target = within ↔ name = scope) ∧
      (TransGen tree.forest.IsChild within target ↔ name ≠ scope) := by
  obtain ⟨within, scopeFound, scopeNamed, named, descends⟩ := shows.findWithin_descends found
  have atScope : target = within ↔ name = scope := by
    constructor
    · rintro rfl
      exact Option.some.inj (named.symm.trans scopeNamed)
    · rintro rfl
      exact Option.some.inj (found.symm.trans (shows.findWithin?_scope scopeFound))
  refine ⟨within, scopeFound, scopeNamed, named, atScope, fun strictly same => ?_, fun apart => ?_⟩
  · obtain rfl := atScope.mpr same
    exact shows.not_below_self strictly
  · rcases Relation.reflTransGen_iff_eq_or_transGen.mp descends with same | strictly
    · exact absurd (atScope.mp same) apart
    · exact strictly

/-! ### What happens to the target -/

/-- Of the nodes of a tree one goes on under a new name, or goes with everything below it. All the
others keep their names. -/
structure Strikes (before after : Tree) (target : Handle) (newName? : Option String) : Prop where
  struck : after.name? target = newName?
  below : newName? = none → ∀ lower, ReflTransGen before.forest.IsChild target lower →
    after.node? lower = none
  others : ∀ other name, before.name? other = some name → other ≠ target →
    (newName? = none → ¬ReflTransGen before.forest.IsChild target other) →
    after.name? other = some name

/-- A node that shows the same as before has the name it had. -/
theorem name?_of_facts {before after : Tree} {later : Node}
    (named : before.name? target = some name) (live : after.forest.node? target = some later)
    (same : (after.forest.facts target).name = (before.forest.facts target).name) :
    after.name? target = some name := by
  obtain ⟨node, was, rfl⟩ := name?_eq_some.mp named
  rw [Forest.facts_of_node? live, Forest.facts_of_node? was] at same
  exact name?_eq_some.mpr ⟨later, live, same⟩

/-- A subtree that grows leaves all names as they were. -/
theorem Grown.name? {grown : Tree} {parent : Handle} {shapes : List (Rose Handle)}
    {outlines : List Outline} (grows : Grown tree grown parent shapes outlines)
    (named : tree.name? target = some name) : grown.name? target = some name := by
  obtain ⟨node, live, -⟩ := name?_eq_some.mp named
  obtain ⟨later, laterLive⟩ := grows.grafted.stays live
  exact name?_of_facts named laterLive (congrArg Facts.name (grows.grafted.facts live))

/-- Counters that change leave all names as they were. -/
theorem Raised.name? {raised : Tree} {delta : Count} {handles : List Handle}
    (raises : Raised tree raised delta handles) (named : tree.name? target = some name) :
    raised.name? target = some name := by
  obtain ⟨node, live, -⟩ := name?_eq_some.mp named
  obtain ⟨later, laterLive, -⟩ := raises.relabelled.node? live
  refine name?_of_facts named laterLive ?_
  rw [raises.facts]
  split <;> rfl

/-- A subtree that is cut off leaves the names of all other nodes as they were. -/
theorem name?_pruned {pruned : Tree} {parent : Handle} {index : Nat} {cut : Rose Handle}
    (prunes : Forest.Pruned tree.forest pruned.forest parent index cut)
    (survives : target ∉ cut.labels) (named : tree.name? target = some name) :
    pruned.name? target = some name := by
  obtain ⟨node, live, -⟩ := name?_eq_some.mp named
  have later : ∃ later, pruned.forest.node? target = some later := by
    by_cases isParent : target = parent
    · subst isParent
      exact ⟨_, by rw [prunes.parentNode, live, Option.map_some]⟩
    · exact ⟨node, (prunes.others target survives isParent).trans live⟩
  obtain ⟨later, laterLive⟩ := later
  exact name?_of_facts named laterLive (congrArg Facts.name (prunes.facts laterLive))

/-- A subtree that is cut off is struck at its top. -/
theorem Shows.strikes_pruned {middle pruned : Tree} {parent : Handle} {index : Nat}
    {position : Position} {cut : Rose Handle} (shows : tree.Shows shape outline)
    (here : shape.at? position = some cut)
    (kept : ∀ other name, tree.name? other = some name → middle.name? other = some name)
    (prunes : Forest.Pruned middle.forest pruned.forest parent index cut) :
    Strikes tree pruned cut.label none where
  struck := by
    rw [Tree.name?, node?, prunes.removed _ (Rose.label_mem_labels cut), Option.map_none]
  below _ lower reached := by
    obtain ⟨_, shaped⟩ := shows.shaped.at? here
    exact prunes.removed lower (shaped.mem_labels_iff.mpr reached)
  others other name named _ apart := by
    refine name?_pruned prunes (fun inCut => apart rfl ?_) (kept other name named)
    obtain ⟨_, shaped⟩ := shows.shaped.at? here
    obtain ⟨lower, _, there, rfl⟩ := Rose.mem_labels.mp inCut
    exact shaped.descends there

/-- A node that is set to a new name is struck alone. -/
theorem strikes_renamed {node : Node} (live : tree.forest.node? target = some node)
    (name : String) (observers : Observers) :
    Strikes tree ⟨tree.forest.set target { node with name }, tree.root, observers⟩ target
      (some name) := by
  have lookup : ∀ other, (tree.forest.set target { node with name }).node? other =
      if other = target then some { node with name } else tree.forest.node? other :=
    fun other => Forest.node?_set _ (Forest.lt_fresh_of_node? live)
  refine ⟨?_, nofun, fun other kept named apart _ => ?_⟩
  · rw [Tree.name?, node?, lookup, if_pos rfl, Option.map_some]
  · rw [Tree.name?, node?, lookup, if_neg apart]
    exact named

/-- A mutation that finds a target strikes it, unless it would take the root away: then it is
refused. -/
theorem Course.strikes {mutation : Mutation} {outcome : Outcome}
    (course : tree.Course shape mutation outcome) (shows : tree.Shows shape outline)
    (aims : mutation.aim? = some (scope, name))
    (found : tree.findWithin? scope name = some target) :
    (outcome.result = .ok () ∧ Strikes tree outcome.tree target mutation.newName?) ∨
      (target = tree.root ∧ mutation.newName? = none ∧
        outcome = ⟨tree, .error (.rootDetach name)⟩) := by
  have child_at : ∀ {upper : Position} {index : Nat} {parent child : Rose Handle},
      shape.at? upper = some parent → parent.children[index]? = some child →
      shape.at? (upper ++ [index]) = some child := by
    intro upper index parent child here below
    simp [Rose.at?_append, here, below]
  cases course with
  | missed absent => cases mutation <;> cases aims <;> simp [misses, found] at absent
  | @refused _ cause refusal =>
    have atRoot : mutation.newName? = none ∧ cause = .rootDetach name ∧
        tree.rootName? = some scope ∧ tree.rootName? = some name := by
      cases mutation <;> cases aims
      · exact ⟨rfl, refusal?_update_eq_some.mp refusal⟩
      · cases refusal
      · exact ⟨rfl, refusal?_delete_eq_some.mp refusal⟩
    obtain ⟨takes, rfl, scopeNamed, named⟩ := atRoot
    have isRoot := shows.findWithin?_rootName scopeNamed named
    exact .inr ⟨Option.some.inj (found.symm.trans isRoot), takes, rfl⟩
  | renamed there here live =>
    cases aims
    obtain rfl := Option.some.inj (there.symm.trans found)
    exact .inl ⟨rfl, strikes_renamed live _ _⟩
  | created => cases aims
  | deleted there here below aboveLive branch live link increases raises removes =>
    cases aims
    obtain rfl := Option.some.inj (there.symm.trans found)
    obtain ⟨raised, loweredShows⟩ := shows.raised_branch here aboveLive branch raises
    obtain ⟨prunes, -⟩ := loweredShows.pruned_branch here below removes
    exact .inl ⟨rfl, shows.strikes_pruned (child_at here below) (fun _ _ => raised.name?) prunes⟩
  | updated there here below aboveLive branch live link decreases increases materializes grows raises
      removes =>
    cases aims
    obtain rfl := Option.some.inj (there.symm.trans found)
    obtain ⟨grownShows, stillHere, later, laterLive, stillBranch⟩ :=
      shows.grown_branch here aboveLive branch grows
    obtain ⟨raised, raisedShows⟩ := grownShows.raised_branch stillHere laterLive stillBranch raises
    obtain ⟨prunes, -⟩ := raisedShows.pruned_branch stillHere (getElem?_grown _ below) removes
    exact .inl ⟨rfl, shows.strikes_pruned (child_at here below)
      (fun _ _ named => raised.name? (grows.name? named)) prunes⟩

/-- A mutation that does not find its target does nothing. -/
theorem mutate_of_no_target {mutation : Mutation} (aims : mutation.aim? = some (scope, name))
    (absent : tree.findWithin? scope name = none) :
    tree.mutate mutation = .ok ⟨tree, .ok ()⟩ := by
  apply mutate_of_misses
  cases mutation <;> cases aims <;> simp [misses, absent]

/-- What a mutation does to the node of its scope: nothing that takes it away or gives it another
name, unless the target has the name of the scope. Then the target is the scope. -/
theorem Shows.scope_kept {mutation : Mutation} {outcome : Outcome} (shows : tree.Shows shape outline)
    (aims : mutation.aim? = some (scope, name)) (scopeFound : tree.find? scope = some within)
    (done : tree.mutate mutation = .ok outcome) :
    (name ≠ scope → outcome.tree.name? within = some scope) ∧
    (name = scope → (outcome.result = .ok () ∧ outcome.tree.name? within = mutation.newName?) ∨
      (within = tree.root ∧ mutation.newName? = none ∧
        outcome = ⟨tree, .error (.rootDetach scope)⟩)) := by
  have scopeNamed : tree.name? within = some scope := name?_eq_some.mpr (name_of_locate scopeFound)
  constructor
  · intro apart
    cases found : tree.findWithin? scope name with
    | none =>
      obtain rfl := Except.ok.inj (done.symm.trans (mutate_of_no_target aims found))
      exact scopeNamed
    | some target =>
      obtain ⟨other, otherFound, -, -, -, strictly⟩ := shows.target_of_findWithin? found
      obtain rfl := Option.some.inj (otherFound.symm.trans scopeFound)
      have below := strictly.mpr apart
      rcases (shows.course done).strikes shows aims found with ⟨-, strikes⟩ | ⟨-, -, rfl⟩
      · refine strikes.others _ _ scopeNamed ?_ fun _ above => ?_
        · rintro rfl
          exact shows.not_below_self below
        · exact shows.not_below_self (below.trans_left above)
      · exact scopeNamed
  · rintro rfl
    rcases (shows.course done).strikes shows aims (shows.findWithin?_scope scopeFound) with
      ⟨ended, strikes⟩ | refused
    · exact .inl ⟨ended, strikes.struck⟩
    · exact .inr refused

end Tree

namespace Session

variable {session : Session} {files : Files} {path : Path} {step : Step Unit} {scope : String}
  {within : Handle}

/-- A deletion makes one removal. -/
theorem dispatch_deleted (directory : path.parentName? = some scope)
    (done : session.dispatch files (.deleted path) = .ok step) :
    ∃ outcome, session.tree.mutate (.delete scope path.fileName) = .ok outcome ∧
      step = ⟨{ session with tree := outcome.tree }, outcome.result.mapError Failure.tree⟩ := by
  obtain ⟨outcome, applied, same⟩ := Fault.bind_eq_ok.mp done
  simp only [apply, removePath, directory] at applied
  exact ⟨outcome, applied, (Except.ok.inj same).symm⟩

/-- A new name is one renaming. -/
theorem dispatch_renamed {previous name : String} (directory : path.parentName? = some scope)
    (done : session.dispatch files (.renamed path previous name) = .ok step) :
    ∃ outcome, session.tree.mutate (.rename scope previous name) = .ok outcome ∧
      step = ⟨{ session with tree := outcome.tree }, outcome.result.mapError Failure.tree⟩ := by
  obtain ⟨outcome, applied, same⟩ := Fault.bind_eq_ok.mp done
  simp only [apply, directory] at applied
  exact ⟨outcome, applied, (Except.ok.inj same).symm⟩

/-- The target of a mutation is in the subtree of its scope. It is the scope itself exactly when it
is looked up under the name of the scope, and the root exactly when both names are that of the root.
A mutation strikes the target it found and no other node, unless that would take the root away. So a
deletion inside a directory leaves the node of the directory, and a new name inside it leaves the
name of that node, exactly when the names differ: under its own name the directory is the target. -/
theorem targets_stay_inside_their_scope :
    (∀ tree : Tree, tree.Reachable →
      (∀ scope name target, tree.findWithin? scope name = some target →
        ∃ within, tree.find? scope = some within ∧
          ReflTransGen tree.forest.IsChild within target ∧
          (target = within ↔ name = scope) ∧
          (TransGen tree.forest.IsChild within target ↔ name ≠ scope) ∧
          (target = tree.root ↔ tree.rootName? = some scope ∧ tree.rootName? = some name)) ∧
      ∀ (mutation : Mutation) (scope name : String) (outcome : Outcome),
        mutation.aim? = some (scope, name) → tree.mutate mutation = .ok outcome →
        (tree.findWithin? scope name = none → outcome = ⟨tree, .ok ()⟩) ∧
        ∀ target, tree.findWithin? scope name = some target →
          (outcome.result = .ok () ∧ tree.Strikes outcome.tree target mutation.newName?) ∨
          (target = tree.root ∧ mutation.newName? = none ∧
            outcome = ⟨tree, .error (.rootDetach name)⟩)) ∧
    ∀ session : Session, session.Reachable → ∀ (files : Files) (path : Path) (scope : String)
      (within : Handle), path.parentName? = some scope → session.tree.find? scope = some within →
      (∀ step, session.dispatch files (.deleted path) = .ok step →
        (path.fileName ≠ scope → step.session.tree.name? within = some scope) ∧
        (path.fileName = scope → within ≠ session.tree.root →
          step.session.tree.name? within = none) ∧
        (path.fileName = scope → within = session.tree.root →
          step = ⟨session, .error (.tree (.rootDetach scope))⟩)) ∧
      ∀ previous name step, session.dispatch files (.renamed path previous name) = .ok step →
        step.session.tree.name? within = some (if previous = scope then name else scope) := by
  refine ⟨fun tree reachable => ?_, fun session reachable files path scope within directory found => ?_⟩
  · obtain ⟨shape, outline, shows⟩ := reachable.shows
    refine ⟨fun scope name target found => ?_, fun mutation scope name outcome aims done => ?_⟩
    · obtain ⟨within, scopeFound, -, -, atScope, strictly⟩ := shows.target_of_findWithin? found
      obtain ⟨_, sameScope, -, -, descends⟩ := shows.findWithin_descends found
      obtain rfl := Option.some.inj (sameScope.symm.trans scopeFound)
      refine ⟨_, scopeFound, descends, atScope, strictly, ?_, fun ⟨scopeNamed, named⟩ => ?_⟩
      · rintro rfl
        exact shows.rootName_of_findWithin? found
      · exact Option.some.inj (found.symm.trans (shows.findWithin?_rootName scopeNamed named))
    · refine ⟨fun absent => ?_, fun target => (shows.course done).strikes shows aims⟩
      exact Except.ok.inj (done.symm.trans (Tree.mutate_of_no_target aims absent))
  · obtain ⟨shape, outline, shows⟩ := reachable.tree_reachable.shows
    refine ⟨fun step done => ?_, fun previous name step done => ?_⟩
    · obtain ⟨outcome, mutated, rfl⟩ := dispatch_deleted directory done
      obtain ⟨kept, struck⟩ := shows.scope_kept rfl found mutated
      refine ⟨kept, fun same inside => ?_, fun same atRoot => ?_⟩
      · rcases struck same with ⟨-, gone⟩ | ⟨isRoot, -⟩
        · exact gone
        · exact absurd isRoot inside
      · subst atRoot same
        have named : session.tree.rootName? = some path.fileName :=
          Tree.name?_eq_some.mpr (Tree.name_of_locate found)
        have refusal := Tree.refusal?_delete_eq_some.mpr ⟨rfl, named, named⟩
        obtain rfl := Except.ok.inj (mutated.symm.trans (shows.mutate_of_refusal refusal))
        rfl
    · obtain ⟨outcome, mutated, rfl⟩ := dispatch_renamed directory done
      obtain ⟨kept, struck⟩ := shows.scope_kept rfl found mutated
      split
      · next same =>
        rcases struck same with ⟨-, named⟩ | ⟨-, takes, -⟩
        · exact named
        · cases takes
      · next apart => exact kept apart

/-- A directory with a class, and in it a directory of the same name with another. -/
def directoryInNamesake : MemoryFiles :=
  (MemoryFiles.empty.addFile ["/", "p", "a", "A.java"] "class A {}".toUTF8).addFile
    ["/", "p", "a", "a", "B.java"] "class B {}".toUTF8

/-- The deletion of a directory whose parent has the same name takes the parent away, although the
node of the directory itself stands right below. -/
theorem deletion_takes_the_parent : ∃ session,
    start .standard directoryInNamesake.view ⟨"/p"⟩ = .ok (.ok session) ∧ session.Reachable ∧
    session.tree.find? "a" = some 1 ∧ session.tree.findWithin? "a" "a" = some 1 ∧
    ¬TransGen session.tree.forest.IsChild 1 1 ∧
    session.tree.children 1 = [2, 4] ∧ session.tree.name? 4 = some "a" ∧
    (Path.mk "/p/a/a").parentName? = some "a" ∧ (Path.mk "/p/a/a").fileName = "a" ∧
    ∃ step, session.dispatch directoryInNamesake.view (.deleted ⟨"/p/a/a"⟩) = .ok step ∧
      step.result = .ok () ∧ step.session.tree.name? 1 = none := by
  have computed : (start .standard directoryInNamesake.view ⟨"/p"⟩).toOption.any (fun opened =>
      opened.toOption.any fun session =>
        decide (session.tree.find? "a" = some 1 ∧ session.tree.findWithin? "a" "a" = some 1 ∧
          session.tree.children 1 = [2, 4] ∧ session.tree.name? 4 = some "a") &&
        (session.dispatch directoryInNamesake.view (.deleted ⟨"/p/a/a"⟩)).toOption.any fun step =>
          decide (step.result = .ok () ∧ step.session.tree.name? 1 = none)) = true := by
    decide +kernel
  obtain ⟨opened, started, ready⟩ := Fault.ok_of_any computed
  obtain ⟨session, rfl, facts⟩ := Fault.ok_of_any ready
  obtain ⟨found, deletes⟩ := (Bool.and_eq_true _ _).mp facts
  obtain ⟨step, dispatched, gone⟩ := Fault.ok_of_any deletes
  obtain ⟨scopeFound, targetFound, children, named⟩ := of_decide_eq_true found
  have reachable : session.Reachable := .started started
  obtain ⟨shape, outline, shows⟩ := reachable.tree_reachable.shows
  exact ⟨session, started, reachable, scopeFound, targetFound, shows.not_below_self, children, named,
    by decide +kernel, by decide +kernel, step, dispatched, of_decide_eq_true gone⟩

/-- The deletion of a file leaves the node of its directory, although another directory with the
same name is inside. -/
theorem deletion_leaves_the_parent : ∃ session,
    start .standard directoryInNamesake.view ⟨"/p"⟩ = .ok (.ok session) ∧ ∃ step,
      session.dispatch directoryInNamesake.view (.deleted ⟨"/p/a/A.java"⟩) = .ok step ∧
      session.tree.find? "a" = some 1 ∧ step.session.tree.name? 1 = some "a" := by
  have computed : (start .standard directoryInNamesake.view ⟨"/p"⟩).toOption.any (fun opened =>
      opened.toOption.any fun session =>
        decide (session.tree.find? "a" = some 1) &&
        (session.dispatch directoryInNamesake.view (.deleted ⟨"/p/a/A.java"⟩)).toOption.any
          fun _ => true) = true := by
    decide +kernel
  obtain ⟨opened, started, ready⟩ := Fault.ok_of_any computed
  obtain ⟨session, rfl, facts⟩ := Fault.ok_of_any ready
  obtain ⟨found, deletes⟩ := (Bool.and_eq_true _ _).mp facts
  obtain ⟨step, dispatched, -⟩ := Fault.ok_of_any deletes
  have scopeFound := of_decide_eq_true found
  have directory : (Path.mk "/p/a/A.java").parentName? = some "a" := by decide +kernel
  refine ⟨session, started, step, dispatched, scopeFound, ?_⟩
  refine ((targets_stay_inside_their_scope.2 session (.started started) _ _ _ _ directory
    scopeFound).1 step dispatched).1 ?_
  decide +kernel

end Session

end CodeCensus
