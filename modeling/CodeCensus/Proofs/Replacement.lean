import CodeCensus.Files.Memory
import CodeCensus.Proofs.Excess
import CodeCensus.Proofs.FailedEvent
import CodeCensus.Proofs.Lookup
import CodeCensus.Proofs.Reading

/-!
# Replacing in place

An update appends the new unit before the old one leaves and moves the counters by the difference of
the two at once. A deletion and a creation move them twice, and the creation looks for its scope
again in a tree without the old unit. When the old unit is a child of the scope itself, the creation
finds the scope where it was, since a unit keeps its name when its children and counters change, and
both ways are one exchange at the position of the scope.
-/

namespace CodeCensus

namespace Outline

variable {outline parent old : Outline} {scope : String} {entry : Entry} {position : Position}
  {index : Nat}

/-- Replacing a child of the scope in place is removing it and adding the new one behind its
siblings. -/
theorem update_eq_delete_create (scopeFound : outline.find? scope = some (position, parent))
    (branch : parent.label.kind.isLeaf = false)
    (found : outline.findWithin? scope entry.name = some (position ++ [index], old)) :
    ∃ removed replaced, outline.delete scope entry.name = .ok removed ∧
      removed.create scope entry = .ok replaced ∧ outline.update scope entry = .ok replaced := by
  have here : outline.at? position = some parent := (find?_eq_some scopeFound).1
  have inside : index < parent.children.length := by
    simp only [findWithin?, scopeFound, Option.bind_some, Option.map_eq_some_iff, Prod.exists,
      Prod.mk.injEq] at found
    obtain ⟨lower, unit, below, steps, rfl⟩ := found
    obtain rfl := List.append_cancel_left steps
    obtain ⟨child, childFound, -⟩ :=
      Option.bind_eq_some_iff.mp (Rose.at?_of_locate? below)
    exact (List.getElem?_eq_some_iff.mp childFound).1
  have scopeStays := find?_exchange (-old.label.counts) (·.eraseIdx index) scopeFound
  refine ⟨outline.exchange (-old.label.counts) (·.eraseIdx index) position,
    outline.exchange (entry.counts - old.label.counts)
      (fun units => (units ++ [ofEntry entry]).eraseIdx index) position, ?_, ?_, ?_⟩
  · simp only [delete, found, List.getLast?_concat, List.dropLast_concat]
  · simp only [create, scopeStays, Facts.raise_kind, branch, exchange_exchange, neg_add_eq_sub,
      Bool.false_eq_true, if_false]
    have order : parent.children.eraseIdx index ++ [ofEntry entry] =
        (parent.children ++ [ofEntry entry]).eraseIdx index :=
      (List.eraseIdx_append_of_lt_length inside _).symm
    exact congrArg Except.ok (Rose.amend_congr here (congrArg (Rose.mk _) order))
  · simp only [update, found, List.getLast?_concat, List.dropLast_concat]

end Outline

namespace Tree

variable {tree : Tree} {shape : Rose Handle} {outline : Outline} {scope : String} {entry : Entry}
  {target : Handle} {updated removed added : Outcome}

/-- A target whose parent is the scope is a child of the scope in the outline. -/
theorem Shows.target_in_scope {name : String} (shows : tree.Shows shape outline)
    (found : tree.findWithin? scope name = some target)
    (direct : tree.parent? target = tree.find? scope) :
    ∃ position index parent old, outline.find? scope = some (position, parent) ∧
      parent.label.kind.isLeaf = false ∧
      outline.findWithin? scope name = some (position ++ [index], old) := by
  rcases shows.findWithin_cases scope name with ⟨absent, -⟩ | ⟨place, targetShape, here, at_, sees⟩
  · cases absent.symm.trans found
  · obtain rfl : targetShape.label = target := Option.some.inj (at_.symm.trans found)
    rcases shows.find_cases scope with ⟨absent, -⟩ | ⟨position, within, there, scopeAt, scopeSeen⟩
    · simp [findWithin?, absent] at found
    · obtain ⟨_, targetShaped⟩ := shows.shaped.at? here
      obtain ⟨node, live, -⟩ := targetShaped.top
      have link : node.parent = some within.label := by
        rwa [parent?, node?, live, Option.bind_some, scopeAt] at direct
      rcases shows.target_cases here live with
        ⟨-, top⟩ | ⟨upper, index, above, parent, rfl, aboveHere, -, aboveLink, aboveLive, branch⟩
      · cases top.symm.trans link
      · have sameLabel : above.label = within.label := Option.some.inj (aboveLink.symm.trans link)
        have samePlace := (Rose.position_eq_iff shows.distinct aboveHere there).mpr sameLabel
        subst samePlace
        obtain rfl : above = within := Option.some.inj (aboveHere.symm.trans there)
        refine ⟨upper, index, _, _, scopeSeen, ?_, sees⟩
        rw [Rose.label_map, Forest.facts_of_node? aboveLive]
        exact branch

/-- A child of the scope can be deleted. -/
theorem Reachable.delete_in_scope (reachable : tree.Reachable)
    (found : tree.findWithin? scope entry.name = some target)
    (direct : tree.parent? target = tree.find? scope)
    (deletes : tree.delete scope entry.name = .ok removed) : removed.result = .ok () := by
  obtain ⟨shape, outline, shows⟩ := reachable.shows
  obtain ⟨position, index, parent, old, scopeFound, branch, targetFound⟩ :=
    shows.target_in_scope found direct
  obtain ⟨without, replaced, deleted, -⟩ :=
    Outline.update_eq_delete_create scopeFound branch targetFound
  obtain ⟨result, -⟩ := (shows.delete scope entry.name).1 removed deletes
  rw [result, Outline.mutate, deleted]
  rfl

/-- An update of a child of the scope ends like a deletion and a creation. -/
theorem Reachable.update_eq_delete_create (reachable : tree.Reachable)
    (found : tree.findWithin? scope entry.name = some target)
    (direct : tree.parent? target = tree.find? scope)
    (updates : tree.update scope entry = .ok updated)
    (deletes : tree.delete scope entry.name = .ok removed)
    (creates : removed.tree.create scope entry = .ok added) :
    updated.result = .ok () ∧ added.result = .ok () ∧
      ∃ replaced, updated.tree.outline? = some replaced ∧ added.tree.outline? = some replaced := by
  obtain ⟨shape, outline, shows⟩ := reachable.shows
  obtain ⟨position, index, parent, old, scopeFound, branch, targetFound⟩ :=
    shows.target_in_scope found direct
  obtain ⟨without, replaced, deleted, created, replacedAtOnce⟩ :=
    Outline.update_eq_delete_create scopeFound branch targetFound
  have atOnce : outline.mutate (.update scope entry) = .ok replaced := replacedAtOnce
  have first : outline.mutate (.delete scope entry.name) = .ok without := deleted
  have second : without.mutate (.create scope entry) = .ok replaced := created
  obtain ⟨updateResult, ⟨_, updatedShows⟩, -⟩ := (shows.update scope entry).1 updated updates
  obtain ⟨-, ⟨_, removedShows⟩, -⟩ := (shows.delete scope entry.name).1 removed deletes
  rw [first] at removedShows
  obtain ⟨createResult, ⟨_, addedShows⟩, -⟩ := (removedShows.create scope entry).1 added creates
  rw [atOnce] at updateResult updatedShows
  rw [Except.toOption, Option.getD_some, second] at createResult addedShows
  exact ⟨updateResult, createResult, replaced, updatedShows.outline?, addedShows.outline?⟩

end Tree

namespace Session

variable {session : Session} {files : Files} {path : Path} {entry : Entry} {scope : String}
  {step : Step Unit}

/-- New contents of what can be read are one update. -/
theorem dispatch_contentChanged (supported : session.settings.supports path = true)
    (directory : path.parentName? = some scope)
    (contents : session.settings.read files path = .ok (some entry))
    (done : session.dispatch files (.contentChanged path) = .ok step) :
    ∃ outcome, session.tree.update scope entry = .ok outcome ∧
      step = ⟨{ session with tree := outcome.tree }, outcome.result.mapError Failure.tree⟩ := by
  obtain ⟨outcome, applied, same⟩ := Fault.bind_eq_ok.mp done
  simp only [apply, supported, updatePath, directory, contents] at applied
  exact ⟨outcome, applied, (Except.ok.inj same).symm⟩

/-- A move of what can be read at its new place is one removal, and then one creation unless the
removal was refused. -/
theorem dispatch_moved {source : Path} {sourceScope : String}
    (sourceDirectory : source.parentName? = some sourceScope)
    (directory : path.parentName? = some scope)
    (contents : session.settings.read files path = .ok (some entry))
    (done : session.dispatch files (.moved source path) = .ok step) :
    ∃ removed, session.tree.delete sourceScope source.fileName = .ok removed ∧
      ((∃ cause, removed.result = .error cause ∧
          step = ⟨{ session with tree := removed.tree }, .error (.tree cause)⟩) ∨
        ∃ added, removed.result = .ok () ∧ removed.tree.create scope entry = .ok added ∧
          step = ⟨{ session with tree := added.tree }, added.result.mapError Failure.tree⟩) := by
  obtain ⟨outcome, applied, same⟩ := Fault.bind_eq_ok.mp done
  obtain rfl := Except.ok.inj same
  obtain ⟨removed, taken, rest⟩ := Fault.bind_eq_ok.mp applied
  simp only [removePath, sourceDirectory] at taken
  refine ⟨removed, taken, ?_⟩
  cases result : removed.result with
  | error cause =>
    rw [result] at rest
    obtain rfl := Except.ok.inj rest
    exact .inl ⟨cause, rfl, by rw [result]; rfl⟩
  | ok _ =>
    simp only [result, addPath, directory, contents] at rest
    exact .inr ⟨outcome, rfl, rest, rfl⟩

/-- When the unit that an update finds stands right below the node of its scope, the update leaves
the same outline as a deletion and a creation one after the other: the same units with the same
counters in the same order. So new contents of a path and a move of the path to itself come to the
same, when the directory of the path resolves to the parent of what the path resolves to. -/
theorem replacing_is_removing_and_adding :
    (∀ tree : Tree, tree.Reachable → ∀ (scope : String) (entry : Entry) (target : Handle),
      tree.findWithin? scope entry.name = some target →
      tree.parent? target = tree.find? scope →
      ∀ updated removed added, tree.update scope entry = .ok updated →
        tree.delete scope entry.name = .ok removed →
        removed.tree.create scope entry = .ok added →
        updated.result = .ok () ∧ removed.result = .ok () ∧ added.result = .ok () ∧
          ∃ outline, updated.tree.outline? = some outline ∧ added.tree.outline? = some outline) ∧
    ∀ session : Session, session.Reachable → ∀ (files : Files) (path : Path) (scope : String)
      (entry : Entry) (target : Handle), session.settings.supports path = true →
      session.settings.read files path = .ok (some entry) → path.parentName? = some scope →
      session.tree.findWithin? scope path.fileName = some target →
      session.tree.parent? target = session.tree.find? scope →
      ∀ changed moved, session.dispatch files (.contentChanged path) = .ok changed →
        session.dispatch files (.moved path path) = .ok moved →
        changed.result = .ok () ∧ moved.result = .ok () ∧
          ∃ outline, changed.session.tree.outline? = some outline ∧
            moved.session.tree.outline? = some outline := by
  constructor
  · intro tree reachable scope entry target found direct updated removed added updates deletes creates
    obtain ⟨updateResult, createResult, same⟩ :=
      reachable.update_eq_delete_create found direct updates deletes creates
    exact ⟨updateResult, reachable.delete_in_scope found direct deletes, createResult, same⟩
  · intro session reachable files path scope entry target supported contents directory found direct
      changed moved changes moves
    have named : entry.name = path.fileName := (Settings.read_sound contents).1
    obtain ⟨updated, updates, rfl⟩ := dispatch_contentChanged supported directory contents changes
    obtain ⟨removed, deletes, ended⟩ := dispatch_moved directory directory contents moves
    rw [← named] at found deletes
    have removal := reachable.tree_reachable.delete_in_scope found direct deletes
    rcases ended with ⟨cause, refused, -⟩ | ⟨added, -, creates, rfl⟩
    · cases removal.symm.trans refused
    · obtain ⟨updateResult, createResult, same⟩ :=
        reachable.tree_reachable.update_eq_delete_create found direct updates deletes creates
      exact ⟨by rw [updateResult]; rfl, by rw [createResult]; rfl, same⟩

/-- Two files with the same name in two directories. -/
def namesakes (second : String) : MemoryFiles :=
  (MemoryFiles.empty.addFile ["/", "p", "a", "A.java"] "class A {}".toUTF8).addFile
    ["/", "p", "b", "A.java"] second.toUTF8

/-- A class comes last of its siblings with a method more, and a file with new contents is read
again behind a file with the same name. -/
theorem namesake_is_replaced :
    (∃ updated removed added, let tree := (Tree.ofEntry ⟨.module, "p", ⟨2, 0⟩,
          [.ofClass "A" [], .ofClass "B" []]⟩).tree
        let entry : Entry := .ofClass "A" [.function "f"]
        tree.update "p" entry = .ok updated ∧ tree.delete "p" "A" = .ok removed ∧
          removed.tree.create "p" entry = .ok added ∧
          updated.tree.outline? = added.tree.outline? ∧
          updated.tree.outline?.map (fun outline => outline.children.map (·.label.name)) =
            some ["B", "A"]) ∧
    ∃ session changed moved,
      start .standard (namesakes "class A {}").view ⟨"/p"⟩ = .ok (.ok session) ∧
      session.dispatch (namesakes "class A { void f() {} }").view
        (.contentChanged ⟨"/p/b/A.java"⟩) = .ok changed ∧
      session.dispatch (namesakes "class A { void f() {} }").view
        (.moved ⟨"/p/b/A.java"⟩ ⟨"/p/b/A.java"⟩) = .ok moved ∧
      changed.session.tree.outline? = moved.session.tree.outline? ∧
      changed.session.tree.outline?.map (fun outline => outline.label.counts) = some ⟨2, 1⟩ := by
  constructor
  · let tree := (Tree.ofEntry ⟨.module, "p", ⟨2, 0⟩, [.ofClass "A" [], .ofClass "B" []]⟩).tree
    let entry : Entry := .ofClass "A" [.function "f"]
    have updates : (tree.update "p" entry).toOption.any (fun updated =>
        decide (updated.tree.outline?.map (fun outline => outline.children.map (·.label.name)) =
          some ["B", "A"])) = true := by decide +kernel
    have deletes : (tree.delete "p" "A").toOption.any (fun removed =>
        (removed.tree.create "p" entry).toOption.any fun _ => true) = true := by decide +kernel
    obtain ⟨updated, wasUpdated, order⟩ := Fault.ok_of_any updates
    obtain ⟨removed, wasRemoved, follows⟩ := Fault.ok_of_any deletes
    obtain ⟨added, wasAdded, -⟩ := Fault.ok_of_any follows
    have reachable : tree.Reachable := ⟨_, .refl⟩
    obtain ⟨-, -, -, outline, first, second⟩ :=
      replacing_is_removing_and_adding.1 tree reachable "p" entry 1 (by decide +kernel)
        (by decide +kernel) updated removed added wasUpdated wasRemoved wasAdded
    exact ⟨updated, removed, added, wasUpdated, wasRemoved, wasAdded, first.trans second.symm,
      of_decide_eq_true order⟩
  · have computed : (start .standard (namesakes "class A {}").view ⟨"/p"⟩).toOption.any (fun opened =>
        opened.toOption.any fun session =>
          decide (session.settings.supports ⟨"/p/b/A.java"⟩ = true ∧
            session.tree.findWithin? "b" "A.java" = some 5 ∧
            session.tree.parent? 5 = session.tree.find? "b") &&
          (session.settings.read (namesakes "class A { void f() {} }").view
            ⟨"/p/b/A.java"⟩).toOption.any Option.isSome &&
          (session.dispatch (namesakes "class A { void f() {} }").view
            (.contentChanged ⟨"/p/b/A.java"⟩)).toOption.any (fun changed =>
              decide (changed.session.tree.outline?.map (fun outline => outline.label.counts) =
                some ⟨2, 1⟩)) &&
          (session.dispatch (namesakes "class A { void f() {} }").view
            (.moved ⟨"/p/b/A.java"⟩ ⟨"/p/b/A.java"⟩)).toOption.any fun _ => true) = true := by
      decide +kernel
    obtain ⟨opened, started, ready⟩ := Fault.ok_of_any computed
    obtain ⟨session, rfl, facts⟩ := Fault.ok_of_any ready
    simp only [Bool.and_eq_true] at facts
    obtain ⟨⟨⟨places, reads⟩, changes⟩, moves⟩ := facts
    obtain ⟨supported, found, direct⟩ := of_decide_eq_true places
    obtain ⟨contents, wasRead, present⟩ := Fault.ok_of_any reads
    obtain ⟨entry, rfl⟩ := Option.isSome_iff_exists.mp present
    obtain ⟨changed, dispatched, counted⟩ := Fault.ok_of_any changes
    obtain ⟨moved, wasMoved, -⟩ := Fault.ok_of_any moves
    obtain ⟨-, -, outline, first, second⟩ :=
      replacing_is_removing_and_adding.2 session (.started started) _ ⟨"/p/b/A.java"⟩ "b" entry 5
        supported wasRead (by decide +kernel) found direct changed moved dispatched wasMoved
    exact ⟨session, changed, moved, started, dispatched, wasMoved, first.trans second.symm,
      of_decide_eq_true counted⟩

end Session

end CodeCensus
