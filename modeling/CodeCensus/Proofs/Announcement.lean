import CodeCensus.Proofs.Excess
import CodeCensus.Proofs.Mirror

/-!
# What a mutation announces

A mutation sends the same changes whoever listens, and does the same to the tree. `Told` says that
some changes tell all there is to know about the way from one forest to another: they carry every
mirror along and name every node whose facts changed. It composes, so it is shown stage by stage.
-/

namespace CodeCensus

open Forest (Carries Continues Grafted Pruned Relabelled)

/-- Sends changes one after the other. -/
def Observers.notifyAll (observers : Observers) (changes : List (Change Handle)) : Observers :=
  changes.foldl notify observers

/-- To tell one list of changes and then another is to tell both at once. -/
theorem Observers.notifyAll_append (observers : Observers) (first second : List (Change Handle)) :
    observers.notifyAll (first ++ second) = (observers.notifyAll first).notifyAll second :=
  List.foldl_append

/-- Counters are no links. -/
theorem Node.links_adjust {node later : Node} {delta : Count}
    (adjusted : node.adjust delta = .ok later) : later.links = node.links := by
  obtain ⟨name, payload, parent, children⟩ := node
  cases payload with
  | leaf =>
    obtain rfl := Except.ok.inj adjusted
    rfl
  | branch kind counts =>
    obtain ⟨total, -, same⟩ := Fault.bind_eq_ok.mp adjusted
    obtain rfl := Except.ok.inj same
    rfl

/-- Changes that tell of the way from one forest to a later one. -/
structure Told (before after : Forest) (changes : List (Change Handle)) : Prop where
  continues : Continues before after
  carries : Carries before after changes
  named : ∀ handle old new, before.node? handle = some old → after.node? handle = some new →
    old.facts ≠ new.facts → .changed handle ∈ changes

namespace Told

variable {before middle after : Forest} {handle : Handle} {node : Node}

private theorem refl : Told before before [] where
  continues := .refl
  carries := .refl
  named handle old new was is differ := by
    obtain rfl : old = new := Option.some.inj (was.symm.trans is)
    exact absurd rfl differ

private theorem trans {first second : List (Change Handle)} (firstly : Told before middle first)
    (secondly : Told middle after second) : Told before after (first ++ second) where
  continues := firstly.continues.trans secondly.continues
  carries := firstly.carries.trans secondly.carries
  named handle old new was is differ := by
    -- A node that is live at both ends was live in between.
    cases between : middle.node? handle with
    | none =>
      have bound := Nat.lt_of_lt_of_le (Forest.lt_fresh_of_node? was) firstly.continues.slots
      rw [secondly.continues.retired handle bound between] at is
      cases is
    | some mid =>
      rw [List.mem_append]
      by_cases early : old.facts = mid.facts
      · exact .inr (secondly.named handle mid new between is (early ▸ differ))
      · exact .inl (firstly.named handle old mid was between early)

/-- Nothing more is to be told of nodes that show what they showed. -/
theorem of_facts {changes : List (Change Handle)} (continues : Continues before after)
    (carries : Carries before after changes)
    (same : ∀ handle old new, before.node? handle = some old → after.node? handle = some new →
      after.facts handle = before.facts handle) : Told before after changes where
  continues := continues
  carries := carries
  named handle old new was is differ := by
    have shown := same handle old new was is
    rw [Forest.facts_of_node? was, Forest.facts_of_node? is] at shown
    exact absurd shown.symm differ

/-- Setting a node with the same links is told by naming the node. -/
theorem set {later : Node} (live : before.node? handle = some node)
    (same : later.links = node.links) : Told before (before.set handle later) [.changed handle] where
  continues := (Forest.relabelled_set live same).continues
  carries := Forest.carries_relabelled live (Forest.relabelled_set live same)
  named other old new was is differ := by
    rw [Forest.node?_set _ (Forest.lt_fresh_of_node? live)] at is
    by_cases here : other = handle
    · rw [here]
      exact List.mem_singleton_self _
    · rw [if_neg here, was] at is
      exact absurd (congrArg Node.facts (Option.some.inj is)) differ

end Told

namespace Forest

variable {before after : Forest} {parent handle : Handle} {node : Node} {entry : Entry}

/-- Only a live branch takes in a node. -/
theorem branch_of_insert (inserted : before.insert entry (some parent) = .ok (after, handle)) :
    ∃ node, before.node? parent = some node ∧ node.isLeaf = false := by
  cases live : before.node? parent with
  | none => simp [insert, live] at inserted
  | some node =>
    cases leaf : node.isLeaf with
    | true => simp [insert, live, leaf] at inserted
    | false => exact ⟨node, rfl, leaf⟩

/-- An insertion is told by naming the last child of the parent. -/
theorem told_of_insert (inserted : before.insert entry (some parent) = .ok (after, handle)) :
    ∃ node, after.node? parent = some node ∧
      Told before after [.inserted parent (node.children.length - 1) handle] := by
  obtain ⟨old, live, branch⟩ := branch_of_insert inserted
  obtain ⟨_, done, grafted, -⟩ := insert_grafted live branch entry
  obtain ⟨rfl, -⟩ := Prod.mk.inj (Except.ok.inj (inserted.symm.trans done))
  have parentNode := grafted.parentNode
  rw [live, Option.map_some] at parentNode
  refine ⟨_, parentNode, .of_facts grafted.continues ?_ fun handle old new was is => ?_⟩
  · simpa using carries_inserted live inserted
  · exact grafted.facts was

end Forest

namespace Tree

variable {tree grown raised pruned : Tree} {parent handle : Handle} {delta : Count}

/-- The tree with other observers. -/
def attended (tree : Tree) (observers : Observers) : Tree :=
  { tree with observers }

@[simp] theorem forest_attended (observers : Observers) :
    (tree.attended observers).forest = tree.forest := rfl

@[simp] theorem find?_attended (observers : Observers) (name : String) :
    (tree.attended observers).find? name = tree.find? name := rfl

@[simp] theorem findWithin?_attended (observers : Observers) (scope name : String) :
    (tree.attended observers).findWithin? scope name = tree.findWithin? scope name := rfl

@[simp] theorem node?_attended (observers : Observers) (handle : Handle) :
    (tree.attended observers).node? handle = tree.node? handle := rfl

/-! ### Stages -/

private theorem adjust_announces (adjusted : tree.adjust delta handle = .ok raised) :
    ∃ changes, (∀ observers, (tree.attended observers).adjust delta handle =
        .ok (raised.attended (observers.notifyAll changes))) ∧
      Told tree.forest raised.forest changes := by
  unfold adjust at adjusted
  cases live : tree.node? handle with
  | none =>
    rw [live] at adjusted
    obtain rfl := Except.ok.inj adjusted
    refine ⟨[], fun observers => ?_, .refl⟩
    rw [adjust, node?_attended, live]
    rfl
  | some node =>
    rw [live] at adjusted
    obtain ⟨later, added, same⟩ := Fault.bind_eq_ok.mp adjusted
    obtain rfl := Except.ok.inj same
    refine ⟨[.changed handle], fun observers => ?_, .set live (Node.links_adjust added)⟩
    rw [adjust, node?_attended, live]
    exact Fault.bind_eq_ok.mpr ⟨later, added, rfl⟩

/-- Raising nodes one after the other names each of them. -/
theorem adjustAll_announces {handles : List Handle}
    (done : handles.foldlM (adjust delta) tree = .ok raised) :
    ∃ changes, (∀ observers, handles.foldlM (adjust delta) (tree.attended observers) =
        .ok (raised.attended (observers.notifyAll changes))) ∧
      Told tree.forest raised.forest changes := by
  induction handles generalizing tree with
  | nil =>
    obtain rfl : tree = raised := Except.ok.inj done
    exact ⟨[], fun observers => rfl, .refl⟩
  | cons handle handles inductionHypothesis =>
    rw [List.foldlM_cons] at done
    obtain ⟨middle, adjusted, rest⟩ := Fault.bind_eq_ok.mp done
    obtain ⟨first, heard, firstly⟩ := adjust_announces adjusted
    obtain ⟨second, heardOn, secondly⟩ := inductionHypothesis rest
    refine ⟨first ++ second, fun observers => ?_, firstly.trans secondly⟩
    rw [List.foldlM_cons, Observers.notifyAll_append]
    refine Fault.bind_eq_ok.mpr ⟨_, heard observers, ?_⟩
    exact heardOn _

private theorem raise_announces (raises : tree.raise handle delta = .ok raised) :
    ∃ changes, (∀ observers, (tree.attended observers).raise handle delta =
        .ok (raised.attended (observers.notifyAll changes))) ∧
      Told tree.forest raised.forest changes := by
  unfold raise at raises
  split at raises
  · next zero =>
    obtain rfl := Except.ok.inj raises
    refine ⟨[], fun observers => ?_, .refl⟩
    rw [raise, if_pos zero]
    rfl
  · next nonzero =>
    obtain ⟨changes, heard, told⟩ := adjustAll_announces raises
    refine ⟨changes, fun observers => ?_, told⟩
    rw [raise, if_neg nonzero]
    exact heard observers

/-- Appending entries announces what appending each of them does. -/
theorem materializeAll_announces {entries : List Entry}
    (each : ∀ entry ∈ entries, ∀ (tree grown : Tree) (handle : Handle),
      tree.materialize parent entry = (grown, .ok handle) →
      ∃ changes, (∀ observers, (tree.attended observers).materialize parent entry =
          (grown.attended (observers.notifyAll changes), .ok handle)) ∧
        Told tree.forest grown.forest changes)
    (done : tree.materializeAll parent entries = (grown, .ok ())) :
    ∃ changes, (∀ observers, (tree.attended observers).materializeAll parent entries =
        (grown.attended (observers.notifyAll changes), .ok ())) ∧
      Told tree.forest grown.forest changes := by
  induction entries generalizing tree with
  | nil =>
    rw [materializeAll] at done
    obtain rfl : tree = grown := (Prod.mk.inj done).1
    refine ⟨[], fun observers => ?_, .refl⟩
    rw [materializeAll]
    rfl
  | cons entry entries inductionHypothesis =>
    rw [materializeAll] at done
    cases appended : tree.materialize parent entry with
    | mk middle result =>
      rw [appended] at done
      cases result with
      | error cause => cases done
      | ok handle =>
        obtain ⟨first, heard, firstly⟩ := each entry (by simp) tree middle handle appended
        obtain ⟨second, heardOn, secondly⟩ :=
          inductionHypothesis (fun other member => each other (by simp [member])) done
        refine ⟨first ++ second, fun observers => ?_, firstly.trans secondly⟩
        rw [materializeAll, heard observers, Observers.notifyAll_append]
        exact heardOn _

/-- Appending an entry announces each of its nodes as it comes, behind its siblings. -/
theorem materialize_announces (entry : Entry)
    (done : tree.materialize parent entry = (grown, .ok handle)) :
    ∃ changes, (∀ observers, (tree.attended observers).materialize parent entry =
        (grown.attended (observers.notifyAll changes), .ok handle)) ∧
      Told tree.forest grown.forest changes := by
  induction entry using Entry.induct generalizing tree parent grown handle with
  | entry kind name counts nested inductionHypothesis =>
    rw [materialize] at done
    cases inserted : tree.forest.insert ⟨kind, name, counts, nested⟩ (some parent) with
    | error cause => simp [inserted] at done
    | ok made =>
      obtain ⟨forest, new⟩ := made
      obtain ⟨parentNode, live, planted⟩ := Forest.told_of_insert inserted
      have siblings : Tree.children { tree with forest } parent = parentNode.children := by
        simp [children, node?, live]
      rw [← siblings] at planted
      let change : Change Handle :=
        .inserted parent ((Tree.children { tree with forest } parent).length - 1) new
      let announced : Tree := Tree.notify { tree with forest } change
      rw [inserted] at done
      cases kind with
      | function =>
        obtain ⟨rfl, same⟩ := Prod.mk.inj done
        obtain rfl := Except.ok.inj same
        refine ⟨[change], fun observers => ?_, planted⟩
        rw [materialize, forest_attended, inserted]
        rfl
      | branch kind =>
        simp only [Kind.isLeaf, Bool.false_eq_true, if_false] at done
        cases below : announced.materializeAll new nested with
        | mk filled result =>
          rw [below] at done
          cases result with
          | error cause => cases done
          | ok _ =>
            obtain ⟨rfl, same⟩ := Prod.mk.inj done
            obtain rfl := Except.ok.inj same
            obtain ⟨changes, heard, told⟩ := materializeAll_announces
              (fun inner member _ _ _ => inductionHypothesis inner member) below
            refine ⟨[change] ++ changes, fun observers => ?_, planted.trans told⟩
            have onward := heard (observers.notify change)
            rw [materialize, forest_attended, inserted]
            simp only [Kind.isLeaf, Bool.false_eq_true, if_false]
            have sent : Tree.notify { tree.attended observers with forest }
                (.inserted parent
                  ((Tree.children { tree.attended observers with forest } parent).length - 1) new) =
                announced.attended (observers.notify change) := rfl
            rw [sent, onward]
            rfl

/-- Cutting off a child announces the child, with the index it had. -/
theorem Shows.uproot_announces {shape target top : Rose Handle} {outline : Outline}
    {position : Position} {index : Nat} (shows : tree.Shows shape outline)
    (here : shape.at? position = some top) (below : top.children[index]? = some target)
    (removes : tree.uproot target.label = ⟨pruned, .ok ()⟩) :
    ∃ changes, (∀ observers, (tree.attended observers).uproot target.label =
        ⟨pruned.attended (observers.notifyAll changes), .ok ()⟩) ∧
      Told tree.forest pruned.forest changes := by
  obtain ⟨forest, detached, cut⟩ := Forest.detach_pruned shows.shaped shows.distinct here below
  obtain ⟨_, topShaped⟩ := shows.shaped.at? here
  rw [uproot, detached] at removes
  obtain rfl : _ = pruned := congrArg Outcome.tree removes
  refine ⟨[.removed top.label index target.label], fun observers => ?_, ?_⟩
  · rw [uproot, forest_attended, detached]
    rfl
  · refine .of_facts (cut.continues (topShaped.child (List.mem_of_getElem? below)))
      (Forest.carries_pruned shows.shaped shows.distinct here below cut) ?_
    intro handle old new was is
    exact cut.facts is

/-! ### Mutations -/

/-- A mutation does the same whoever listens, and announces the same changes, which tell what it
does. -/
theorem Shows.mutate_announces {shape : Rose Handle} {outline : Outline} {mutation : Mutation}
    {outcome : Outcome} (shows : tree.Shows shape outline)
    (done : tree.mutate mutation = .ok outcome) :
    ∃ changes, (∀ observers, (tree.attended observers).mutate mutation =
        .ok ⟨outcome.tree.attended (observers.notifyAll changes), outcome.result⟩) ∧
      Told tree.forest outcome.tree.forest changes := by
  cases shows.course done with
  | missed absent =>
    exact ⟨[], fun observers => mutate_of_misses absent, .refl⟩
  | refused refusal =>
    exact ⟨[], fun observers => (shows.observed observers).mutate_of_refusal refusal, .refl⟩
  | @renamed scope previous name position target node found here live =>
    refine ⟨[.changed target.label], fun observers => ?_, .set live rfl⟩
    simp only [Tree.mutate, Tree.rename, findWithin?_attended, found, node?, forest_attended, live]
    rfl
  | @created scope entry position parent new node grown raised found here live branch materializes
      grows raises =>
    obtain ⟨first, heard, firstly⟩ := materialize_announces entry materializes
    obtain ⟨second, heardOn, secondly⟩ := raise_announces raises
    refine ⟨first ++ second, fun observers => ?_, firstly.trans secondly⟩
    simp only [Tree.mutate, Tree.create, find?_attended, found, heard, Observers.notifyAll_append]
    exact Fault.bind_eq_ok.mpr ⟨_, heardOn _, rfl⟩
  | @deleted scope name upper index parent target above node lowered pruned found here below
      aboveLive branch live link increases raises removes =>
    obtain ⟨-, loweredShows⟩ := shows.raised_branch here aboveLive branch raises
    obtain ⟨first, heard, firstly⟩ := raise_announces raises
    obtain ⟨second, heardOn, secondly⟩ := loweredShows.uproot_announces here below removes
    refine ⟨first ++ second, fun observers => ?_, firstly.trans secondly⟩
    simp only [Tree.mutate, Tree.delete, findWithin?_attended, found, node?, forest_attended, live, link,
      Observers.notifyAll_append]
    refine Fault.bind_eq_ok.mpr ⟨_, increases, Fault.bind_eq_ok.mpr ⟨_, heard observers, ?_⟩⟩
    exact congrArg Except.ok (heardOn _)
  | @updated scope entry upper index parent target new above node grown raised pruned found here
      below aboveLive branch live link decreases increases materializes grows raises removes =>
    obtain ⟨grownShows, stillHere, later, laterLive, stillBranch⟩ :=
      shows.grown_branch here aboveLive branch grows
    obtain ⟨-, raisedShows⟩ := grownShows.raised_branch stillHere laterLive stillBranch raises
    obtain ⟨first, heard, firstly⟩ := materialize_announces entry materializes
    obtain ⟨second, heardOn, secondly⟩ := raise_announces raises
    obtain ⟨third, heardLast, thirdly⟩ :=
      raisedShows.uproot_announces stillHere (getElem?_grown [new] below) removes
    refine ⟨first ++ second ++ third, fun observers => ?_, (firstly.trans secondly).trans thirdly⟩
    simp only [Tree.mutate, Tree.update, findWithin?_attended, found, node?, forest_attended, live, link,
      heard, Observers.notifyAll_append]
    refine Fault.bind_eq_ok.mpr ⟨_, decreases, Fault.bind_eq_ok.mpr ⟨_, increases,
      Fault.bind_eq_ok.mpr ⟨_, heardOn _, ?_⟩⟩⟩
    exact congrArg Except.ok (heardLast _)

end Tree

end CodeCensus
