import CodeCensus.Proofs.Announcement
import CodeCensus.Proofs.Undoing

/-!
# Updating again with the same entry

An update moves the unit that it replaces to the end of its siblings, and brings along whatever is
nested in the entry, under whatever names. When the unit was the only one of its name in the scope,
the search for the name inside the scope passes everything else as it did before, and ends at the
replacement: what has the same name in there stands below it. So the second update replaces the last
child of the same parent by the same outline, with no difference to send upward.
-/

namespace CodeCensus

open Relation (ReflTransGen)

namespace Rose

variable {α : Type} {way : α → α} {change : Rose α → Rose α} {property : α → Bool}
  {tree subtree new : Rose α} {position upper : Position} {label : α} {inside : List (Rose α)}

/-- A change further down is a change at every unit on the way. -/
theorem amend_append (upper lower : Position) (tree : Rose α) :
    tree.amend way change (upper ++ lower) = tree.amend way (amend way change lower) upper := by
  induction upper generalizing tree with
  | nil => rfl
  | cons index rest inductionHypothesis =>
    cases tree
    simp only [List.cons_append, amend, Rose.mk.injEq, true_and]
    congr 1
    funext child
    exact inductionHypothesis child

/-- A change that leaves a new tree as the last child of a unit lets a search find it, if nothing
before it has the property. -/
theorem locate?_amend_last (here : tree.at? position = some subtree)
    (ways : ∀ label, property (way label) = property label)
    (elsewhere : ∀ place other, tree.at? place = some other → ¬position <+: place →
      property other.label = false)
    (changed : change subtree = ⟨label, inside ++ [new]⟩) (notTop : property label = false)
    (notInside : ∀ sibling ∈ inside, ∀ other ∈ sibling.labels, property other = false)
    (holds : property new.label = true) :
    (tree.amend way change position).locate? property =
      some (position ++ [inside.length], new) := by
  rw [locate?_eq_some]
  induction position generalizing tree with
  | nil =>
    obtain rfl : tree = subtree := Option.some.inj here
    rw [amend, changed]
    exact .inside notTop notInside (.top holds)
  | cons index rest inductionHypothesis =>
    obtain ⟨child, found, below⟩ := Option.bind_eq_some_iff.mp here
    obtain ⟨top, children⟩ := tree
    obtain ⟨before, after, rfl, rfl⟩ := children_split found
    rw [amend, modify_split, List.cons_append]
    refine .inside ?_ (fun sibling member other inSibling => ?_) (inductionHypothesis below ?_)
    · rw [ways]
      exact elsewhere [] _ rfl (by simp)
    · obtain ⟨earlier, there⟩ := List.mem_iff_getElem?.mp member
      obtain ⟨lower, target, atLower, rfl⟩ := mem_labels.mp inSibling
      have bound := (List.getElem?_eq_some_iff.mp there).1
      refine elsewhere (earlier :: lower) target ?_ ?_
      · rw [at?_cons, List.getElem?_append_left bound, there, Option.bind_some, atLower]
      · rw [List.cons_prefix_cons]
        rintro ⟨rfl, -⟩
        exact Nat.lt_irrefl _ bound
    · intro place other there notBelow
      refine elsewhere (before.length :: place) other (by simpa using there) ?_
      rw [List.cons_prefix_cons]
      exact fun both => notBelow both.2

end Rose

namespace Outline

variable {outline within old : Outline} {scope : String} {entry : Entry} {upper lower : Position}

/-- An exchange further down in a scope does not hide the scope. -/
theorem find?_exchange_below (delta : Count) (change : List Outline → List Outline)
    (found : outline.find? scope = some (upper, within)) (lower : Position) :
    (outline.exchange delta change (upper ++ lower)).find? scope =
      some (upper, within.exchange delta change lower) := by
  rw [exchange, Rose.amend_append]
  refine Rose.locate?_amend (fun facts => rfl) found ?_
  change ((within.exchange delta change lower).label.name == scope) = true
  rw [label_exchange, Facts.raise_name, (find?_eq_some found).2, beq_self_eq_true]

/-- What takes the place of the only unit of its name is found as the last child of the same
parent. -/
theorem find?_replaced {index : Nat} {parent : Outline} (delta : Count)
    (here : within.at? upper = some parent) (below : parent.children[index]? = some old)
    (alone : ∀ place unit, within.at? place = some unit → unit.label.name = entry.name →
      place = upper ++ [index]) :
    (within.exchange delta (fun units => (units ++ [ofEntry entry]).eraseIdx index) upper).find?
        entry.name =
      some (upper ++ [(parent.children.eraseIdx index).length], ofEntry entry) := by
  have bound := (List.getElem?_eq_some_iff.mp below).1
  have others : ∀ place unit, within.at? place = some unit → place ≠ upper ++ [index] →
      (unit.label.name == entry.name) = false :=
    fun place unit there elsewhere => beq_false_of_ne fun named =>
      elsewhere (alone place unit there named)
  have changed : (⟨parent.label.raise delta, (parent.children ++ [ofEntry entry]).eraseIdx index⟩ :
      Outline) = ⟨parent.label.raise delta, parent.children.eraseIdx index ++ [ofEntry entry]⟩ :=
    congrArg (Rose.mk _) (List.eraseIdx_append_of_lt_length bound _)
  refine Rose.locate?_amend_last here (fun facts => rfl) ?_ changed ?_ ?_ ?_
  · intro place unit there notBelow
    refine others place unit there ?_
    rintro rfl
    exact notBelow (List.prefix_append _ _)
  · exact others upper parent here (by simp)
  · intro sibling member facts inSibling
    obtain ⟨place, apart, there⟩ := List.mem_eraseIdx_iff_getElem?.mp member
    obtain ⟨lower, unit, atLower, rfl⟩ := Rose.mem_labels.mp inSibling
    refine others (upper ++ place :: lower) unit ?_ ?_
    · rw [Rose.at?_append, here, Option.bind_some, Rose.at?_cons, there, Option.bind_some, atLower]
    · intro same
      have atIndex := List.append_cancel_left same
      exact apart (List.cons.inj atIndex).1
  · exact beq_iff_eq.mpr (ofEntry_name entry)

/-- When one unit alone in a scope has the name of an entry, an update replaces it, and the next
update finds the replacement and leaves everything as it is. -/
theorem update_update (scopeFound : outline.find? scope = some (upper, within))
    (apart : entry.name ≠ scope) (bare : entry.kind = .function → entry.counts = 0)
    (here : within.at? lower = some old) (named : old.label.name = entry.name)
    (alone : ∀ place unit, within.at? place = some unit → unit.label.name = entry.name →
      place = lower) :
    ∃ replaced, outline.update scope entry = .ok replaced ∧
      replaced.update scope entry = .ok replaced ∧
      ∃ place, replaced.findWithin? scope entry.name = some (place, ofEntry entry) := by
  obtain ⟨withinHere, scopeNamed⟩ := find?_eq_some scopeFound
  have found : within.find? entry.name = some (lower, old) := by
    obtain ⟨⟨place, unit⟩, foundSome⟩ := Option.ne_none_iff_exists'.mp (find?_ne_none here named)
    obtain ⟨there, sameName⟩ := find?_eq_some foundSome
    obtain rfl := alone place unit there sameName
    obtain rfl : unit = old := Option.some.inj (there.symm.trans here)
    exact foundSome
  obtain rfl | ⟨middle, index, rfl⟩ := List.eq_nil_or_concat' lower
  · obtain rfl : within = old := Option.some.inj here
    exact absurd (named.symm.trans scopeNamed) apart
  rw [Rose.at?_append] at here
  obtain ⟨parent, parentHere, child⟩ := Option.bind_eq_some_iff.mp here
  have below : parent.children[index]? = some old := by
    simpa [Option.bind_eq_some_iff] using child
  have bound := (List.getElem?_eq_some_iff.mp below).1
  let change : List Outline → List Outline := fun units => (units ++ [ofEntry entry]).eraseIdx index
  let replaced := outline.exchange (entry.counts - old.label.counts) change (upper ++ middle)
  let last := (parent.children.eraseIdx index).length
  have targetFound : outline.findWithin? scope entry.name =
      some ((upper ++ middle) ++ [index], old) := by
    rw [findWithin?, scopeFound, Option.bind_some, found, Option.map_some, List.append_assoc]
  have again : replaced.findWithin? scope entry.name =
      some ((upper ++ middle) ++ [last], ofEntry entry) := by
    rw [findWithin?, find?_exchange_below _ change scopeFound middle, Option.bind_some,
      find?_replaced _ parentHere below alone, Option.map_some, List.append_assoc]
  refine ⟨replaced, ?_, ?_, _, again⟩
  · simp only [update, targetFound, List.getLast?_concat, List.dropLast_concat]
    rfl
  · have there : outline.at? (upper ++ middle) = some parent := by
      rw [Rose.at?_append, withinHere, Option.bind_some, parentHere]
    have settled : (change parent.children ++ [ofEntry entry]).eraseIdx last =
        change parent.children := by
      simp only [change, last]
      rw [List.eraseIdx_append_of_lt_length bound, List.append_assoc,
        List.eraseIdx_append_of_length_le (Nat.le_refl _), Nat.sub_self]
      rfl
    simp only [update, again, List.getLast?_concat, List.dropLast_concat, ofEntry_counts bare,
      sub_self]
    rw [exchange_exchange, add_zero]
    exact congrArg Except.ok (Rose.amend_congr there (congrArg (Rose.mk _) settled))

end Outline

namespace Tree

variable {tree middle after first : Tree} {shape : Rose Handle} {outline unit : Outline}
  {position : Position} {scope : String} {entry : Entry} {within : Handle} {outcome : Outcome}

/-! ### What a level update announces -/

/-- From one tree to a later one, observers were told of no node that only changed. -/
def Quiet (before after : Tree) : Prop :=
  ∃ changes, after.observers = before.observers.notifyAll changes ∧
    ∀ handle, .changed handle ∉ changes

private theorem Quiet.of_observers (same : after.observers = tree.observers) : tree.Quiet after :=
  ⟨[], same, nofun⟩

private theorem Quiet.trans (firstly : tree.Quiet middle) (secondly : middle.Quiet after) :
    tree.Quiet after := by
  obtain ⟨early, earlyTold, earlyQuiet⟩ := firstly
  obtain ⟨late, lateTold, lateQuiet⟩ := secondly
  refine ⟨early ++ late, ?_, fun handle member => ?_⟩
  · rw [lateTold, earlyTold, Observers.notifyAll_append]
  · exact (List.mem_append.mp member).elim (earlyQuiet handle) (lateQuiet handle)

/-- A change that is sent leaves it quiet, unless it is one of a node that only changed. -/
theorem Quiet.notify {change : Change Handle} (quiet : tree.Quiet middle)
    (told : after.observers = middle.observers.notify change)
    (moves : ∀ handle, change ≠ .changed handle) : tree.Quiet after := by
  refine quiet.trans ⟨[change], told, fun handle member => ?_⟩
  exact moves handle (List.mem_singleton.mp member).symm

private theorem quiet_materializeAll {entries : List Entry}
    (each : ∀ entry ∈ entries, ∀ (tree : Tree) (parent : Handle),
      tree.Quiet (tree.materialize parent entry).1) (tree : Tree) (parent : Handle) :
    tree.Quiet (tree.materializeAll parent entries).1 := by
  induction entries generalizing tree with
  | nil =>
    rw [materializeAll]
    exact .of_observers rfl
  | cons entry entries inductionHypothesis =>
    have firstly := each entry (by simp) tree parent
    rw [materializeAll]
    split
    · next appended => rwa [appended] at firstly
    · next grown _ appended =>
      rw [appended] at firstly
      have later : ∀ other ∈ entries, ∀ (tree : Tree) (parent : Handle),
          tree.Quiet (tree.materialize parent other).1 :=
        fun other member => each other (by simp [member])
      exact firstly.trans (inductionHypothesis later grown)

/-- Appending an entry tells of insertions only, also when it fails on the way. -/
theorem quiet_materialize (entry : Entry) (tree : Tree) (parent : Handle) :
    tree.Quiet (tree.materialize parent entry).1 := by
  induction entry using Entry.induct generalizing tree parent with
  | entry kind name counts nested inductionHypothesis =>
    rw [materialize]
    split
    · exact .of_observers rfl
    · next forest handle _ =>
      let inserted : Tree := { tree with forest }
      let announced := inserted.notify
        (.inserted parent ((inserted.children parent).length - 1) handle)
      have firstly : tree.Quiet announced := .notify (.of_observers rfl) rfl (by simp)
      have further := firstly.trans (quiet_materializeAll inductionHypothesis announced handle)
      dsimp only
      split
      · exact firstly
      · split
        · next done => rwa [done] at further
        · next done => rwa [done] at further

/-- Removing a node tells of the removal. -/
theorem quiet_uproot (tree : Tree) (handle : Handle) : tree.Quiet (tree.uproot handle).tree := by
  rw [uproot]
  split
  · exact .of_observers rfl
  · exact .notify (.of_observers rfl) rfl (by simp)

/-- An update that replaces a unit by one that counts the same sends nothing upward. -/
theorem Shows.update_level (shows : tree.Shows shape outline)
    (sees : outline.findWithin? scope entry.name = some (position, unit)) (below : position ≠ [])
    (level : unit.label.counts = entry.counts) :
    ∃ outcome, tree.update scope entry = .ok outcome ∧ tree.Quiet outcome.tree := by
  obtain ⟨target, here, found, rfl⟩ := shows.findWithin?_eq_some sees
  obtain ⟨_, targetShaped⟩ := shows.shaped.at? here
  obtain ⟨node, live, -⟩ := targetShaped.top
  rcases shows.target_cases here live with
    ⟨top, -⟩ | ⟨upper, index, above, parent, rfl, aboveHere, child, link, parentLive, branch⟩
  · exact absurd top below
  · obtain ⟨grown, new, materializes, grows⟩ := materialize_grown entry tree parentLive branch
    have quiet := quiet_materialize entry tree above.label
    rw [materializes] at quiet
    have sameCounts : node.counts = entry.counts := by
      rw [Rose.label_map, Forest.facts_of_node? live] at level
      exact level
    have noDifference : node.counts.minus entry.counts = .ok 0 := by
      rw [sameCounts, Count.minus, sub_self]
      rfl
    refine ⟨grown.uproot target.label, ?_, quiet.trans (grown.quiet_uproot target.label)⟩
    simp only [Tree.update, found, node?, live, link, materializes, noDifference]
    rfl

/-! ### Twice the same update -/

/-- The only node of its name below a scope is the only unit of its name in the outline there. -/
theorem Shows.sole_unit (shows : tree.Shows shape outline) (found : tree.find? scope = some within)
    (alone : ∃! target, ReflTransGen tree.forest.IsChild within target ∧
      tree.name? target = some entry.name) :
    ∃ upper scopeUnit lower old, outline.find? scope = some (upper, scopeUnit) ∧
      scopeUnit.at? lower = some old ∧ old.label.name = entry.name ∧
      ∀ place unit, scopeUnit.at? place = some unit → unit.label.name = entry.name →
        place = lower := by
  obtain ⟨target, ⟨reached, named⟩, only⟩ := alone
  rcases shows.find_cases scope with ⟨absent, -⟩ | ⟨upper, top, here, topFound, sees⟩
  · cases absent.symm.trans found
  obtain rfl : top.label = within := Option.some.inj (topFound.symm.trans found)
  obtain ⟨_, topShaped⟩ := shows.shaped.at? here
  obtain ⟨lower, targetShape, below, rfl⟩ :=
    Rose.mem_labels.mp (topShaped.mem_labels_iff.mpr reached)
  have there : (top.map tree.forest.facts).at? lower =
      some (targetShape.map tree.forest.facts) := by
    rw [Rose.at?_map, below, Option.map_some]
  refine ⟨upper, _, lower, _, sees, there, ?_, fun place unit atPlace sameName => ?_⟩
  · obtain ⟨other, otherBelow, -, isNamed⟩ := shows.reaches_named here there
    obtain rfl : targetShape = other := Option.some.inj (below.symm.trans otherBelow)
    exact Option.some.inj (isNamed.symm.trans named)
  · obtain ⟨other, otherBelow, otherReached, isNamed⟩ := shows.reaches_named here atPlace
    rw [sameName] at isNamed
    exact (Rose.position_eq_iff (Rose.distinct_of_at? shows.distinct here) otherBelow below).mpr
      (only other.label ⟨otherReached, isNamed⟩)

/-- Repeated updates settle. When one node alone at or below a scope has the name of an entry, which
is not the name of the scope, then an update with the entry succeeds, and another one right after it
succeeds as well: it leaves the same kinds, names and counters in the same order, and tells of no
node that only changed. The first update ends as long as no counter leaves its word. -/
theorem updates_settle (reachable : tree.Reachable) (found : tree.find? scope = some within)
    (apart : entry.name ≠ scope) (bare : entry.kind = .function → entry.counts = 0)
    (alone : ∃! target, ReflTransGen tree.forest.IsChild within target ∧
      tree.name? target = some entry.name) :
    (∀ first, tree.update scope entry = .ok first → first.result = .ok () ∧
      ∃ second, first.tree.update scope entry = .ok second ∧ second.result = .ok () ∧
        (∃ outline, first.tree.outline? = some outline ∧ second.tree.outline? = some outline) ∧
        ∃ changes, second.tree.observers = first.tree.observers.notifyAll changes ∧
          ∀ handle, .changed handle ∉ changes) ∧
    ∀ outline, tree.outline? = some outline → outline.Fits (.update scope entry) →
      ∃ first, tree.update scope entry = .ok first := by
  obtain ⟨shape, outline, shows⟩ := reachable.shows
  obtain ⟨upper, scopeUnit, lower, old, sees, here, named, only⟩ := shows.sole_unit found alone
  obtain ⟨replaced, replaces, settles, place, seesAgain⟩ :=
    Outline.update_update sees apart bare here named only
  have planned : outline.mutate (.update scope entry) = .ok replaced := replaces
  have plannedAgain : replaced.mutate (.update scope entry) = .ok replaced := settles
  constructor
  · intro first updates
    obtain ⟨result, ⟨_, firstShows⟩, -⟩ := (shows.update scope entry).1 first updates
    rw [planned] at result firstShows
    have below : place ≠ [] := by
      rintro rfl
      simp [Outline.update, seesAgain] at settles
    obtain ⟨second, updatesAgain, quiet⟩ :=
      firstShows.update_level seesAgain below (Outline.ofEntry_counts bare)
    obtain ⟨resultAgain, ⟨_, secondShows⟩, -⟩ :=
      (firstShows.update scope entry).1 second updatesAgain
    rw [Except.toOption, Option.getD_some, plannedAgain] at resultAgain secondShows
    exact ⟨result, second, updatesAgain, resultAgain,
      ⟨replaced, firstShows.outline?, secondShows.outline?⟩, quiet⟩
  · intro other shown fits
    obtain rfl : outline = other := Option.some.inj (shows.outline?.symm.trans shown)
    exact (shows.update scope entry).2 fits

/-- A file gets another class, and a method of its own name inside a class of the name of its
directory. It comes last of its siblings, and the second update finds it there. -/
theorem file_settles_behind_its_siblings :
    let old : Entry := ⟨.sourceFile, "B.java", ⟨1, 0⟩, [.ofClass "B" []]⟩
    let tree := (ofEntry ⟨.module, "p", ⟨1, 0⟩,
      [⟨.package, "a", ⟨1, 0⟩, [old, ⟨.sourceFile, "D.java", 0, []⟩]⟩]⟩).tree
    let entry : Entry := ⟨.sourceFile, "B.java", ⟨2, 1⟩,
      [.ofClass "a" [.function "B.java"], .ofClass "C" []]⟩
    tree.Reachable ∧ tree.findWithin? "a" "B.java" = some 2 ∧ ∃ first second,
      tree.update "a" entry = .ok first ∧ first.tree.findWithin? "a" "B.java" = some 5 ∧
      first.tree.children 1 = [4, 5] ∧ first.tree.update "a" entry = .ok second ∧
      first.tree.outline? = second.tree.outline? := by
  intro old tree entry
  have reachable : tree.Reachable := ⟨_, .refl⟩
  have found : tree.find? "a" = some 1 := by decide +kernel
  have apart : entry.name ≠ "a" := by decide
  have bare : entry.kind = .function → entry.counts = 0 := nofun
  have alone : ∃! target, ReflTransGen tree.forest.IsChild 1 target ∧
      tree.name? target = some entry.name := by
    have isChild : (tree.forest.node? 1).any (fun node => decide (2 ∈ node.children)) = true := by
      decide +kernel
    obtain ⟨node, live, member⟩ := (Option.any_eq_true _ _).mp isChild
    refine ⟨2, ⟨.single ⟨node, live, of_decide_eq_true member⟩, by decide +kernel⟩, ?_⟩
    rintro other ⟨-, named⟩
    obtain ⟨node, live, -⟩ := name?_eq_some.mp named
    have bound : other < 5 := Forest.lt_fresh_of_node? live
    have only : ∀ handle < 5, tree.name? handle = some entry.name → handle = 2 := by decide +kernel
    exact only other bound named
  have computed : (tree.update "a" entry).toOption.any (fun first =>
      decide (first.tree.findWithin? "a" "B.java" = some 5 ∧ first.tree.children 1 = [4, 5])) =
        true := by decide +kernel
  obtain ⟨first, updates, places⟩ := Fault.ok_of_any computed
  obtain ⟨foundAgain, order⟩ := of_decide_eq_true places
  obtain ⟨settle, -⟩ := updates_settle reachable found apart bare alone
  obtain ⟨-, second, updatesAgain, -, ⟨outline, shown, shownAgain⟩, -⟩ := settle first updates
  exact ⟨reachable, by decide +kernel, first, second, updates, foundAgain, order, updatesAgain,
    shown.trans shownAgain.symm⟩

end Tree

end CodeCensus
