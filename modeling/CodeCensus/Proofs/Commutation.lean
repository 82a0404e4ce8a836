import CodeCensus.Proofs.Alteration
import CodeCensus.Proofs.Target

/-!
# Independent mutations commute

Two mutations get in the way of each other when one makes a name that the other looks for, or takes a
node away that the other resolves to. Otherwise each of them resolves to the same nodes before and
after the other and plans the same alteration, and alterations commute.
-/

namespace CodeCensus

namespace Tree

/-- The scope and the target of a search in a scope, and the parent of the target. -/
def sight (tree : Tree) (scope name : String) : List Handle :=
  (tree.find? scope).toList ++ (tree.findWithin? scope name).toList ++
    ((tree.findWithin? scope name).bind tree.parent?).toList

/-- The nodes that a mutation resolves to. -/
def resolved (tree : Tree) : Mutation → List Handle
  | .create scope _ => (tree.find? scope).toList
  | .update scope entry => tree.sight scope entry.name
  | .rename scope previous _ => tree.sight scope previous
  | .delete scope name => tree.sight scope name

/-- The nodes that a mutation takes away: its target, unless that is the root or gets a new name, and
everything below it. -/
def uprooted (tree : Tree) (mutation : Mutation) : List Handle :=
  match mutation.aim?, mutation.newName? with
  | some (scope, name), none =>
    (tree.findWithin? scope name).toList.flatMap fun target =>
      if (tree.parent? target).isSome then tree.forest.preorder target else []
  | _, _ => []

/-- The first mutation makes no name that the second looks for, and takes no node away that the second
resolves to. -/
structure Spares (tree : Tree) (first second : Mutation) : Prop where
  names : ∀ name ∈ first.made, name ∉ second.sought
  nodes : ∀ handle ∈ tree.uprooted first, handle ∉ tree.resolved second

variable {tree : Tree} {shape within : Rose Handle} {outline : Outline} {position : Position}
  {mutation first second : Mutation}

/-- A name finds the first handle of the shape that shows it. -/
theorem Shows.find?_eq (shows : tree.Shows shape outline) (name : String) :
    tree.find? name =
      (shape.named? tree.forest.facts name).map fun found => found.2.label := by
  rw [find?, ← shows.top, shows.shaped.locate shows.distinct, Rose.named?]

private theorem Shows.locate_eq (shows : tree.Shows shape outline)
    (here : shape.at? position = some within)
    (name : String) : tree.forest.locate within.label name =
      (within.named? tree.forest.facts name).map fun found => found.2.label := by
  obtain ⟨_, subshaped⟩ := shows.shaped.at? here
  rw [subshaped.locate (Rose.distinct_of_at? shows.distinct here), Rose.named?]

/-- A mutation resolves to the nodes that its names find, and takes away what it plans to cut off. -/
structure Plans (tree : Tree) (shape : Rose Handle) (mutation : Mutation)
    (planned : Except TreeError (Option Alteration)) : Prop where
  resolution : Resolution shape tree.forest.facts mutation (tree.resolved mutation) planned
  takes : ∀ alteration, planned = .ok (some alteration) → ∀ position cut,
    shape.at? position = some cut → alteration.cut = some cut.label →
      tree.uprooted mutation = cut.labels

/-- A plan that alters nothing takes nothing away. -/
theorem Plans.of_idle {handles : List Handle} {planned : Except TreeError (Option Alteration)}
    (seen : tree.resolved mutation = handles)
    (resolution : Resolution shape tree.forest.facts mutation handles planned)
    (idle : ∀ alteration, planned ≠ .ok (some alteration)) : tree.Plans shape mutation planned :=
  ⟨seen ▸ resolution, fun alteration planned => absurd planned (idle alteration)⟩

/-- A plan that alters something takes away what the alteration cuts off. -/
theorem Plans.of_altered {handles : List Handle} {alteration : Alteration}
    (seen : tree.resolved mutation = handles)
    (resolution : Resolution shape tree.forest.facts mutation handles (.ok (some alteration)))
    (takes : ∀ position cut, shape.at? position = some cut → alteration.cut = some cut.label →
      tree.uprooted mutation = cut.labels) : tree.Plans shape mutation (.ok (some alteration)) where
  resolution := seen ▸ resolution
  takes other same := by
    obtain rfl := Option.some.inj (Except.ok.inj same)
    exact takes

private theorem Shows.plans_create (shows : tree.Shows shape outline) (scope : String)
    (entry : Entry) :
    ∃ planned, tree.Plans shape (.create scope entry) planned := by
  have find := shows.find?_eq scope
  cases found : shape.named? tree.forest.facts scope with
  | none =>
    have seen : tree.resolved (.create scope entry) = [] := by simp [resolved, find, found]
    exact ⟨_, .of_idle seen (.nowhere found) (by simp)⟩
  | some node =>
    obtain ⟨position, within⟩ := node
    have seen : tree.resolved (.create scope entry) = [within.label] := by
      simp [resolved, find, found]
    cases leaf : (tree.forest.facts within.label).kind.isLeaf with
    | true => exact ⟨_, .of_idle seen (.inLeaf found leaf) (by simp)⟩
    | false => exact ⟨_, .of_altered seen (.created found leaf) (by simp)⟩

private theorem Shows.plans_delete (shows : tree.Shows shape outline) (scope name : String) :
    ∃ planned, tree.Plans shape (.delete scope name) planned := by
  have find := shows.find?_eq scope
  cases found : shape.named? tree.forest.facts scope with
  | none =>
    have seen : tree.resolved (.delete scope name) = [] := by
      simp [resolved, sight, findWithin?, find, found]
    exact ⟨_, .of_idle seen (.noScope found) (by simp)⟩
  | some node =>
    obtain ⟨upper, within⟩ := node
    have withinHere := Rose.at?_of_locate? found
    have locate := shows.locate_eq withinHere name
    cases targetFound : within.named? tree.forest.facts name with
    | none =>
      have seen : tree.resolved (.delete scope name) = [within.label] := by
        simp [resolved, sight, findWithin?, find, found, locate, targetFound]
      exact ⟨_, .of_idle seen (.noTarget found targetFound) (by simp)⟩
    | some node =>
      obtain ⟨lower, target⟩ := node
      have here : shape.at? (upper ++ lower) = some target := by
        rw [Rose.at?_append, withinHere, Option.bind_some, Rose.at?_of_locate? targetFound]
      have finds : tree.findWithin? scope name = some target.label := by
        simp [findWithin?, find, found, locate, targetFound]
      obtain ⟨_, shaped⟩ := shows.shaped.at? here
      obtain ⟨node, live, -⟩ := shaped.top
      have parent : tree.parent? target.label = node.parent := by
        simp [parent?, node?, live]
      rcases shows.target_cases here live with
        ⟨steps, top⟩ | ⟨above, index, parentShape, _, steps, parentHere, below, link, -, -⟩
      · obtain ⟨rfl, rfl⟩ := List.append_eq_nil_iff.mp steps
        have seen : tree.resolved (.delete scope name) = [within.label, target.label] := by
          simp [resolved, sight, finds, find, found, parent, top]
        exact ⟨_, .of_idle seen (.atRoot found targetFound) (by simp)⟩
      · have seen : tree.resolved (.delete scope name) =
            [within.label, target.label, parentShape.label] := by
          simp [resolved, sight, finds, find, found, parent, link]
        refine ⟨_, .of_altered seen (.deleted found targetFound steps parentHere below) ?_⟩
        intro position cut there isCut
        have sameLabel : cut.label = target.label := (Option.some.inj isCut).symm
        obtain rfl := (Rose.position_eq_iff shows.distinct there here).mpr sameLabel
        obtain rfl := Option.some.inj (there.symm.trans here)
        have order := shaped.preorder (Rose.distinct_of_at? shows.distinct there)
        simp [Tree.uprooted, Mutation.aim?, Mutation.newName?, finds, parent, link, order]

/-- Every creation and every deletion has a plan. -/
theorem Shows.plans (shows : tree.Shows shape outline) (plain : mutation.AddsOrRemoves) :
    ∃ planned, tree.Plans shape mutation planned := by
  cases plain with
  | create scope entry => exact shows.plans_create scope entry
  | delete scope name => exact shows.plans_delete scope name

private theorem Plans.spares_nodes {firstPlanned : Except TreeError (Option Alteration)}
    (plans : tree.Plans shape first firstPlanned) (spares : tree.Spares first second)
    (alteration : Alteration) (planned : firstPlanned = .ok (some alteration)) (position : Position)
    (cut : Rose Handle) (here : shape.at? position = some cut)
    (isCut : alteration.cut = some cut.label) :
    ∀ handle ∈ cut.labels, handle ∉ tree.resolved second := by
  rw [← plans.takes alteration planned position cut here isCut]
  exact spares.nodes

/-- A mutation of a tree whose outline is a revision to which it is suited makes what it plans of the
revision. -/
theorem Shows.realizes_plan {after : Tree} {later : Rose Handle} {facts : Handle → Facts}
    {seen : List Handle} {revision : Revision Handle Facts}
    {planned : Except TreeError (Option Alteration)} {outcome : Outcome}
    (shows : after.Shows later (shape.revise revision)) (distinct : shape.labels.Nodup)
    (resolution : Resolution shape facts mutation seen planned)
    (suits : revision.Suits shape facts mutation.sought seen)
    (target : ∀ alteration, planned = .ok (some alteration) →
      ∀ handle, alteration.cut = some handle → revision.image handle = facts handle)
    (done : after.mutate mutation = .ok outcome) :
    outcome.result = planned.map (fun _ => ()) ∧
      ∃ last, outcome.tree.Shows last (shape.revise (revision.meet planned)) := by
  have mutated := resolution.mutate distinct suits target
  obtain ⟨result, ⟨last, lastShows⟩, -⟩ := (shows.mutate mutation).1 outcome done
  rw [mutated] at result lastShows
  match planned with
  | .error _ => exact ⟨result, last, lastShows⟩
  | .ok _ => exact ⟨result, last, lastShows⟩

/-- What one mutation plans, and then the other, if neither gets in the way of the other. -/
theorem Shows.mutate_twice {firstPlanned secondPlanned : Except TreeError (Option Alteration)}
    {middle last : Outcome} (shows : tree.Shows shape outline)
    (firstPlans : tree.Plans shape first firstPlanned)
    (secondPlans : tree.Plans shape second secondPlanned) (spares : tree.Spares first second)
    (spared : tree.Spares second first) (done : tree.mutate first = .ok middle)
    (again : middle.tree.mutate second = .ok last) :
    middle.result = firstPlanned.map (fun _ => ()) ∧
      last.result = secondPlanned.map (fun _ => ()) ∧
      last.tree.outline? = some (shape.revise
        ((Revision.meet (.plain tree.forest.facts) firstPlanned).meet secondPlanned)) := by
  have start : tree.Shows shape (shape.revise (Revision.plain tree.forest.facts)) := by
    rwa [Revision.plain, Rose.revise_eq_map, shows.facts]
  obtain ⟨result, _, middleShows⟩ := start.realizes_plan shows.distinct firstPlans.resolution
    Revision.plain_suits (fun _ _ _ _ => rfl) done
  obtain ⟨lastResult, _, lastShows⟩ := middleShows.realizes_plan shows.distinct
    secondPlans.resolution
    (firstPlans.resolution.suits shows.distinct spares.names (firstPlans.spares_nodes spares))
    (firstPlans.resolution.target_kept secondPlans.resolution shows.distinct
      (secondPlans.spares_nodes spared)) again
  exact ⟨result, lastResult, lastShows.outline?⟩

/-- Two creations in one scope, one after the other. -/
theorem Shows.create_twice {scope : String} {entry other : Entry} {parent : Outline}
    {middle last : Outcome} (shows : tree.Shows shape outline)
    (found : outline.find? scope = some (position, parent))
    (branch : parent.label.kind.isLeaf = false)
    (done : tree.mutate (.create scope entry) = .ok middle)
    (again : middle.tree.mutate (.create scope other) = .ok last) :
    last.tree.outline? = some (outline.exchange (entry.counts + other.counts)
      (· ++ [Outline.ofEntry entry, Outline.ofEntry other]) position) := by
  obtain ⟨planned, first, second⟩ := Outline.create_create found branch
  obtain ⟨-, ⟨_, middleShows⟩, -⟩ := (shows.create scope entry).1 middle done
  rw [Outline.mutate, first] at middleShows
  obtain ⟨-, ⟨_, lastShows⟩, -⟩ := (middleShows.create scope other).1 last again
  rw [Outline.mutate, Except.toOption, Option.getD_some, second] at lastShows
  exact lastShows.outline?

/-- Both mutations create an entry under one node of the outline, which stands at the position and may
have children. -/
def CreateTogether (outline : Outline) (position : Position) (entry other : Entry)
    (first second : Mutation) : Prop :=
  ∃ scope parent, first = .create scope entry ∧ second = .create scope other ∧
    outline.find? scope = some (position, parent) ∧ parent.label.kind.isLeaf = false

/-- Two mutations, each a creation or a deletion, of which neither makes a name that the other looks
for nor takes a node away that the other resolves to, end the same in both orders. Where both create
under one node, the new units stand there in the order of creation. In all other cases both orders
leave the same outline. -/
theorem independent_mutations_commute (tree : Tree) (reachable : tree.Reachable)
    (first second : Mutation) (firstPlain : first.AddsOrRemoves)
    (secondPlain : second.AddsOrRemoves) (spares : tree.Spares first second)
    (spared : tree.Spares second first) (afterFirst afterBoth afterSecond afterBothSwapped : Outcome)
    (one : tree.mutate first = .ok afterFirst)
    (two : afterFirst.tree.mutate second = .ok afterBoth)
    (oneSwapped : tree.mutate second = .ok afterSecond)
    (twoSwapped : afterSecond.tree.mutate first = .ok afterBothSwapped) :
    afterFirst.result = afterBothSwapped.result ∧ afterBoth.result = afterSecond.result ∧
    ∃ outline, tree.outline? = some outline ∧
      (∀ position entry other, CreateTogether outline position entry other first second →
        afterBoth.tree.outline? = some (outline.exchange (entry.counts + other.counts)
          (· ++ [Outline.ofEntry entry, Outline.ofEntry other]) position) ∧
        afterBothSwapped.tree.outline? = some (outline.exchange (entry.counts + other.counts)
          (· ++ [Outline.ofEntry other, Outline.ofEntry entry]) position)) ∧
      ((∀ position entry other, ¬CreateTogether outline position entry other first second) →
        ∃ settled, afterBoth.tree.outline? = some settled ∧
          afterBothSwapped.tree.outline? = some settled) := by
  obtain ⟨shape, outline, shows⟩ := reachable.shows
  obtain ⟨firstPlanned, firstPlans⟩ := shows.plans firstPlain
  obtain ⟨secondPlanned, secondPlans⟩ := shows.plans secondPlain
  obtain ⟨firstResult, secondResult, both⟩ :=
    shows.mutate_twice firstPlans secondPlans spares spared one two
  obtain ⟨secondAlone, firstAfter, swapped⟩ :=
    shows.mutate_twice secondPlans firstPlans spared spares oneSwapped twoSwapped
  refine ⟨firstResult.trans firstAfter.symm, secondResult.trans secondAlone.symm, outline,
    shows.outline?, ?together, ?apart⟩
  case together =>
    rintro position entry other ⟨scope, parent, rfl, rfl, found, branch⟩
    refine ⟨shows.create_twice found branch one two, ?_⟩
    rw [add_comm]
    exact shows.create_twice found branch oneSwapped twoSwapped
  case apart =>
    intro apart
    refine ⟨_, both, swapped.trans ?_⟩
    rw [Revision.meet_comm]
    -- Two alterations that both let one node grow are two creations under that node.
    intro later earlier isSecond isFirst sameNode
    by_contra grows
    rw [not_or] at grows
    obtain ⟨secondGrows, firstGrows⟩ := grows
    obtain ⟨scope, entry, position, within, rfl, found, branch, under⟩ :=
      (isFirst ▸ firstPlans.resolution).grows firstGrows
    obtain ⟨otherScope, other, _, otherWithin, rfl, otherFound, -, otherUnder⟩ :=
      (isSecond ▸ secondPlans.resolution).grows secondGrows
    have sameScope : otherScope = scope := by
      rw [← Rose.name_of_named? otherFound, ← otherUnder, sameNode, under,
        Rose.name_of_named? found]
    subst sameScope
    have scopeFound : outline.find? otherScope =
        some (position, within.map tree.forest.facts) := by
      rw [Outline.find?, ← shows.facts, Rose.locate?_map]
      exact congrArg _ found
    have parentBranch : (within.map tree.forest.facts).label.kind.isLeaf = false := by
      rw [Rose.label_map, branch]
    exact apart position entry other ⟨otherScope, _, rfl, rfl, scopeFound, parentBranch⟩

/-- A class leaves a package with a file of the same name as one in the package beside it, and another
class comes into that one, in either order. The name of the file is looked for inside the packages. -/
theorem neighbours_commute :
    let file : Entry := ⟨.sourceFile, "A.java", ⟨1, 0⟩, [.ofClass "A" []]⟩
    let tree := (ofEntry ⟨.module, "p", ⟨2, 0⟩,
      [⟨.package, "a", ⟨1, 0⟩, [file]⟩, ⟨.package, "b", ⟨1, 0⟩, [file]⟩]⟩).tree
    let first : Mutation := .delete "a" "A.java"
    let second : Mutation := .create "b" (.ofClass "B" [.function "f"])
    tree.Reachable ∧ tree.Spares first second ∧ tree.Spares second first ∧
      ∃ afterFirst afterBoth afterSecond afterBothSwapped, tree.mutate first = .ok afterFirst ∧
        afterFirst.tree.mutate second = .ok afterBoth ∧ tree.mutate second = .ok afterSecond ∧
        afterSecond.tree.mutate first = .ok afterBothSwapped ∧
        afterBoth.tree.outline? = afterBothSwapped.tree.outline? := by
  intro file tree first second
  have reachable : tree.Reachable := ⟨_, .refl⟩
  have spares : tree.Spares first second := ⟨by decide +kernel, by decide +kernel⟩
  have spared : tree.Spares second first := ⟨by decide +kernel, by decide +kernel⟩
  have runs : (tree.mutate first).toOption.any (fun after =>
      (after.tree.mutate second).toOption.any fun _ => true) = true := by decide +kernel
  have runsSwapped : (tree.mutate second).toOption.any (fun after =>
      (after.tree.mutate first).toOption.any fun _ => true) = true := by decide +kernel
  obtain ⟨afterFirst, one, follows⟩ := Fault.ok_of_any runs
  obtain ⟨afterBoth, two, -⟩ := Fault.ok_of_any follows
  obtain ⟨afterSecond, oneSwapped, followsSwapped⟩ := Fault.ok_of_any runsSwapped
  obtain ⟨afterBothSwapped, twoSwapped, -⟩ := Fault.ok_of_any followsSwapped
  obtain ⟨-, -, outline, -, -, apart⟩ :=
    independent_mutations_commute tree reachable first second (.delete _ _) (.create _ _) spares
      spared afterFirst afterBoth afterSecond afterBothSwapped one two oneSwapped twoSwapped
  obtain ⟨settled, both, swapped⟩ := apart (by
    rintro position entry other ⟨scope, parent, impossible, -⟩
    exact Mutation.noConfusion (show Mutation.delete "a" "A.java" = .create _ _ from impossible))
  exact ⟨reachable, spares, spared, afterFirst, afterBoth, afterSecond, afterBothSwapped, one, two,
    oneSwapped, twoSwapped, both.trans swapped.symm⟩

end Tree

end CodeCensus
