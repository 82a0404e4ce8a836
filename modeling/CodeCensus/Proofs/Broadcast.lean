import CodeCensus.Proofs.Announcement

/-!
# What observers hear

Mutations, subscriptions, reading and the dropping of mailboxes happen in any order. Every observer
whose mailbox is still in use has received all that was announced since its subscription, in order
and once each, whatever the others do. So an observer that wrote down the child lists when it
subscribed can keep them right for good.
-/

namespace CodeCensus

namespace Observers

variable {observers : Observers} {owner other : ObserverId} {waiting : List (Change Handle)}

/-- What waits in the mailbox of an observer, oldest first. -/
def pending (observers : Observers) (owner : ObserverId) : List (Change Handle) :=
  ((observers.mailbox? owner).map fun mailbox => mailbox.pending.toList).getD []

/-- An observer has a connected mailbox in use, and some changes wait in it. -/
def Holds (observers : Observers) (owner : ObserverId) (waiting : List (Change Handle)) : Prop :=
  ∃ mailbox, observers.mailbox? owner = some mailbox ∧ mailbox.isConnected = true ∧
    mailbox.pending.toList = waiting

/-- The numbers of observers are below the number of the next one. -/
def Numbered (observers : Observers) : Prop :=
  ∀ mailbox ∈ observers.mailboxes, mailbox.owner < observers.next

private theorem owner_of_mailbox? {mailbox : Mailbox}
    (found : observers.mailbox? owner = some mailbox) :
    mailbox.owner = owner := by
  have passes := List.find?_some found
  simp only [Bool.and_eq_true, beq_iff_eq] at passes
  exact passes.1

private theorem Holds.pending_eq (holds : observers.Holds owner waiting) :
    observers.pending owner = waiting := by
  obtain ⟨mailbox, found, -, same⟩ := holds
  rw [pending, found, Option.map_some, Option.getD_some, same]

private theorem numbered_map {next : ObserverId} {mailboxes : List Mailbox}
    {change : Mailbox → Mailbox}
    (same : ∀ mailbox, (change mailbox).owner = mailbox.owner)
    (numbered : Numbered ⟨next, mailboxes⟩) : Numbered ⟨next, mailboxes.map change⟩ := by
  intro mailbox member
  obtain ⟨old, oldMember, rfl⟩ := List.mem_map.mp member
  rw [same]
  exact numbered old oldMember

private theorem Numbered.notifyAll (numbered : observers.Numbered)
    (changes : List (Change Handle)) :
    (observers.notifyAll changes).Numbered ∧ (observers.notifyAll changes).next = observers.next := by
  induction changes generalizing observers with
  | nil => exact ⟨numbered, rfl⟩
  | cons change changes inductionHypothesis =>
    have pruned : Numbered ⟨observers.next, observers.mailboxes.filter fun mailbox =>
        !mailbox.dropped⟩ := fun mailbox member => numbered mailbox (List.mem_filter.mp member).1
    have notified : (observers.notify change).Numbered := by
      refine numbered_map (fun mailbox => ?_) pruned
      split <;> rfl
    exact inductionHypothesis notified

private theorem Numbered.drop (numbered : observers.Numbered) (other : ObserverId) :
    (observers.drop other).Numbered := by
  refine numbered_map (fun mailbox => ?_) numbered
  split <;> rfl

private theorem Numbered.clear (numbered : observers.Numbered) (other : ObserverId) :
    (observers.clear other).Numbered := by
  refine numbered_map (fun mailbox => ?_) numbered
  split <;> rfl

private theorem Numbered.subscribe (numbered : observers.Numbered) :
    observers.subscribe.1.Numbered := by
  intro mailbox member
  rcases List.mem_append.mp member with old | new
  · exact Nat.lt_succ_of_lt (numbered mailbox old)
  · obtain rfl := List.mem_singleton.mp new
    exact Nat.lt_succ_self _

/-! ### Mailboxes -/

/-- A mailbox that changes where it is stays the mailbox of its owner. -/
theorem mailbox?_map {next : ObserverId} {mailboxes : List Mailbox} {change : Mailbox → Mailbox}
    (same : ∀ mailbox, (change mailbox).owner = mailbox.owner)
    (steady : ∀ mailbox, mailbox.owner = owner → (change mailbox).dropped = mailbox.dropped) :
    mailbox? ⟨next, mailboxes.map change⟩ owner = (mailbox? ⟨next, mailboxes⟩ owner).map change := by
  have sameTest : (fun mailbox : Mailbox => mailbox.owner == owner && !mailbox.dropped) ∘ change =
      fun mailbox => mailbox.owner == owner && !mailbox.dropped := by
    funext mailbox
    rw [Function.comp_apply, same]
    by_cases isOwner : mailbox.owner = owner
    · rw [steady mailbox isOwner]
    · rw [beq_eq_false_iff_ne.mpr isOwner, Bool.false_and, Bool.false_and]
  rw [mailbox?, List.find?_map, sameTest]
  rfl

/-- Mailboxes out of use are of no use to any owner. -/
theorem mailbox?_filter {next : ObserverId} {mailboxes : List Mailbox} :
    mailbox? ⟨next, mailboxes.filter fun mailbox => !mailbox.dropped⟩ owner =
      mailbox? ⟨next, mailboxes⟩ owner := by
  rw [mailbox?, List.find?_filter, mailbox?]
  apply List.find?_congr
  intro mailbox _
  cases mailbox.dropped <;> simp [beq_eq_decide]

private theorem Holds.notify (holds : observers.Holds owner waiting) (change : Change Handle) :
    (observers.notify change).Holds owner (waiting ++ [change]) := by
  obtain ⟨mailbox, found, connected, same⟩ := holds
  refine ⟨{ mailbox with pending := mailbox.pending.push change }, ?_, connected, ?_⟩
  · rw [Observers.notify, mailbox?_map, mailbox?_filter, found, Option.map_some, if_pos connected]
    · intro other
      split <;> rfl
    · intro other _
      split <;> rfl
  · simp [same]

/-- Every observer gets every change, in order. -/
theorem Holds.notifyAll (holds : observers.Holds owner waiting) (changes : List (Change Handle)) :
    (observers.notifyAll changes).Holds owner (waiting ++ changes) := by
  induction changes generalizing observers waiting with
  | nil =>
    rw [List.append_nil]
    exact holds
  | cons change changes inductionHypothesis =>
    have later := inductionHypothesis (holds.notify change)
    rwa [List.append_assoc] at later

/-- Dropping the mailbox of another observer changes nothing. -/
theorem Holds.drop (holds : observers.Holds owner waiting) (apart : owner ≠ other) :
    (observers.drop other).Holds owner waiting := by
  obtain ⟨mailbox, found, connected, same⟩ := holds
  refine ⟨mailbox, ?_, connected, same⟩
  rw [Observers.drop, mailbox?_map, found, Option.map_some, owner_of_mailbox? found, if_neg apart]
  · intro mailbox
    split <;> rfl
  · rintro mailbox rfl
    rw [if_neg apart]

/-- Emptying a mailbox takes what waits from its owner only. -/
theorem Holds.clear (holds : observers.Holds owner waiting) (other : ObserverId) :
    (observers.clear other).Holds owner (if owner = other then [] else waiting) := by
  obtain ⟨mailbox, found, connected, same⟩ := holds
  refine ⟨if owner = other then { mailbox with pending := #[] } else mailbox, ?_, ?_, ?_⟩
  · rw [Observers.clear, mailbox?_map, found, Option.map_some, owner_of_mailbox? found]
    · intro mailbox
      split <;> rfl
    · intro mailbox _
      split <;> rfl
  · split <;> exact connected
  · split
    · rfl
    · exact same

private theorem Holds.subscribe (holds : observers.Holds owner waiting) :
    observers.subscribe.1.Holds owner waiting := by
  obtain ⟨mailbox, found, connected, same⟩ := holds
  refine ⟨mailbox, ?_, connected, same⟩
  rw [mailbox?, Observers.subscribe, List.find?_append]
  rw [mailbox?] at found
  rw [found, Option.some_or]

/-- A new observer begins with an empty mailbox. -/
theorem Numbered.holds_new (numbered : observers.Numbered) :
    observers.subscribe.1.Holds observers.next [] := by
  refine ⟨⟨observers.next, #[], false, .none⟩, ?_, rfl, rfl⟩
  have nobody : observers.mailboxes.find? (fun mailbox =>
      mailbox.owner == observers.next && !mailbox.dropped) = Option.none := by
    rw [List.find?_eq_none]
    intro mailbox member passes
    simp only [Bool.and_eq_true, beq_iff_eq] at passes
    exact absurd passes.1 (Nat.ne_of_lt (numbered mailbox member))
  rw [mailbox?, Observers.subscribe, List.find?_append, nobody, Option.none_or]
  simp

end Observers

namespace Tree

/-- What a mutation announces: what an observer hears of it that listens alone. -/
def announcements (tree : Tree) (mutation : Mutation) : List (Change Handle) :=
  let (lone, owner) := (tree.attended .none).subscribe
  match lone.mutate mutation with
  | .ok outcome => outcome.tree.observers.pending owner
  | .error _ => []

variable {tree : Tree} {shape : Rose Handle} {outline : Outline} {mutation : Mutation}
  {outcome : Outcome}

/-- The announcements of a mutation reach whoever listens, and tell what it does. -/
theorem Shows.announcements (shows : tree.Shows shape outline)
    (done : tree.mutate mutation = .ok outcome) :
    (∀ observers, (tree.attended observers).mutate mutation =
      .ok ⟨outcome.tree.attended (observers.notifyAll (tree.announcements mutation)),
        outcome.result⟩) ∧
    Told tree.forest outcome.tree.forest (tree.announcements mutation) := by
  obtain ⟨changes, heard, told⟩ := shows.mutate_announces done
  have lone : Observers.Holds Observers.none.subscribe.1 Observers.none.subscribe.2 [] :=
    ⟨⟨0, #[], false, .none⟩, rfl, rfl, rfl⟩
  have same : tree.announcements mutation = changes := by
    have alone := heard Observers.none.subscribe.1
    rw [Tree.announcements]
    change (match (tree.attended Observers.none.subscribe.1).mutate mutation with
      | .ok outcome => outcome.tree.observers.pending Observers.none.subscribe.2
      | .error _ => []) = _
    rw [alone]
    exact (lone.notifyAll changes).pending_eq
  rw [same]
  exact ⟨heard, told⟩

/-- Nobody observes a new tree. -/
theorem ofEntry_observers (entry : Entry) : (ofEntry entry).tree.observers = .none := by
  let bare : Tree := ⟨Forest.ofRoot { entry with kind := .module, nested := [] }, 0, .none⟩
  have made : ofEntry entry = ⟨(bare.materializeAll 0 entry.nested).1,
    (bare.materializeAll 0 entry.nested).2⟩ := rfl
  obtain ⟨ready, -⟩ := ofEntry_shows entry
  cases filled : bare.materializeAll 0 entry.nested with
  | mk grown result =>
    rw [made, filled] at ready
    rw [made, filled]
    obtain rfl : result = .ok () := ready
    obtain ⟨changes, heard, -⟩ := materializeAll_announces
      (fun inner _ _ _ _ done => materialize_announces inner done) filled
    have alone : (bare.materializeAll 0 entry.nested).1.observers =
        Observers.none.notifyAll changes :=
      congrArg (fun filled => filled.1.observers) (heard .none)
    rw [filled] at alone
    rw [alone]
    clear heard alone
    induction changes with
    | nil => rfl
    | cons change changes inductionHypothesis => exact inductionHypothesis

end Tree

/-- What happens around a tree. -/
inductive Action
  | mutate (mutation : Mutation)
  | subscribe
  | drop (owner : ObserverId)
  | read (owner : ObserverId)

/-- A tree with the records of what was announced and of what was read. -/
structure Broadcast where
  tree : Tree
  /-- All that was announced, oldest first. -/
  sent : List (Change Handle)
  /-- What each observer has taken from its mailbox, oldest first. -/
  read : ObserverId → List (Change Handle)

namespace Broadcast

/-- A new tree, of which nothing was announced. -/
def start (entry : Entry) : Broadcast :=
  ⟨(Tree.ofEntry entry).tree, [], fun _ => []⟩

/-- What an observer has received: what it has read, and what waits for it. -/
def received (now : Broadcast) (owner : ObserverId) : List (Change Handle) :=
  now.read owner ++ now.tree.observers.pending owner

/-- One action. Reading empties a mailbox that is in use. -/
def step (now : Broadcast) : Action → Except Fault Broadcast
  | .mutate mutation => do
    let outcome ← now.tree.mutate mutation
    return { now with
      tree := outcome.tree
      sent := now.sent ++ now.tree.announcements mutation }
  | .subscribe => .ok { now with tree := now.tree.subscribe.1 }
  | .drop owner => .ok { now with tree := now.tree.attended (now.tree.observers.drop owner) }
  | .read owner =>
    match now.tree.observers.mailbox? owner with
    | none => .ok now
    | some mailbox => .ok { now with
        tree := now.tree.attended (now.tree.observers.clear owner)
        read := fun reader =>
          if reader = owner then now.read owner ++ mailbox.pending.toList else now.read reader }

/-- Actions one after the other. -/
def run (now : Broadcast) (actions : List Action) : Except Fault Broadcast :=
  actions.foldlM step now

variable {before now later : Broadcast} {action : Action} {actions : List Action}
  {owner : ObserverId} {stream : List (Change Handle)}

private theorem run_cons : now.run (action :: actions) = .ok later ↔
    ∃ next, now.step action = .ok next ∧ next.run actions = .ok later := by
  rw [run, List.foldlM_cons]
  exact Fault.bind_eq_ok

/-- What holds of a broadcast at any time. -/
structure Begun (now : Broadcast) : Prop where
  shows : ∃ shape outline, now.tree.Shows shape outline
  numbered : now.tree.observers.Numbered
  unread : ∀ owner, now.tree.observers.next ≤ owner → now.read owner = []

private theorem begun_start (entry : Entry) : (start entry).Begun where
  shows := by
    obtain ⟨-, shape, shows⟩ := Tree.ofEntry_shows entry
    exact ⟨shape, _, shows⟩
  numbered := by
    have nobody : (start entry).tree.observers = .none := Tree.ofEntry_observers entry
    rw [nobody]
    intro mailbox member
    cases member
  unread _ _ := rfl

/-- What a mutation makes of a broadcast, and what it announces. -/
theorem Begun.step_mutate {mutation : Mutation} (begun : now.Begun)
    (stepped : now.step (.mutate mutation) = .ok later) :
    (∃ shape outline, later.tree.Shows shape outline) ∧
      later.tree.observers =
        now.tree.observers.notifyAll (now.tree.announcements mutation) ∧
      Told now.tree.forest later.tree.forest (now.tree.announcements mutation) ∧
      later.sent = now.sent ++ now.tree.announcements mutation ∧ later.read = now.read := by
  obtain ⟨shape, outline, shows⟩ := begun.shows
  obtain ⟨outcome, done, same⟩ := Fault.bind_eq_ok.mp stepped
  obtain rfl := Except.ok.inj same
  obtain ⟨heard, told⟩ := shows.announcements done
  obtain ⟨-, ⟨laterShape, laterShows⟩, -⟩ := (shows.mutate mutation).1 outcome done
  have ownObservers := Except.ok.inj (done.symm.trans (heard now.tree.observers))
  refine ⟨⟨laterShape, _, laterShows⟩, ?_, told, rfl, rfl⟩
  exact congrArg (fun outcome => outcome.tree.observers) ownObservers

private theorem Begun.step (begun : now.Begun) (stepped : now.step action = .ok later) :
    later.Begun := by
  obtain ⟨shape, outline, shows⟩ := begun.shows
  cases action with
  | mutate mutation =>
    obtain ⟨laterShows, observers, -, -, read⟩ := begun.step_mutate stepped
    obtain ⟨numbered, next⟩ :=
      begun.numbered.notifyAll (now.tree.announcements mutation)
    refine ⟨laterShows, observers ▸ numbered, fun owner beyond => ?_⟩
    rw [observers, next] at beyond
    rw [read, begun.unread owner beyond]
  | subscribe =>
    obtain rfl := Except.ok.inj stepped
    refine ⟨⟨shape, outline, shows.observed _⟩, begun.numbered.subscribe, fun owner beyond => ?_⟩
    exact begun.unread owner (Nat.le_of_succ_le beyond)
  | drop other =>
    obtain rfl := Except.ok.inj stepped
    exact ⟨⟨shape, outline, shows.observed _⟩, begun.numbered.drop other, begun.unread⟩
  | read other =>
    rw [Broadcast.step] at stepped
    split at stepped
    · obtain rfl := Except.ok.inj stepped
      exact begun
    · next mailbox found =>
      obtain rfl := Except.ok.inj stepped
      refine ⟨⟨shape, outline, shows.observed _⟩, begun.numbered.clear other, fun owner beyond => ?_⟩
      have known : other < now.tree.observers.next := by
        rw [← Observers.owner_of_mailbox? found]
        exact begun.numbered mailbox (List.mem_of_find?_eq_some found)
      have apart : owner ≠ other := Nat.ne_of_gt (Nat.lt_of_lt_of_le known beyond)
      simp only [if_neg apart]
      exact begun.unread owner beyond

private theorem Begun.run (begun : now.Begun) (ran : now.run actions = .ok later) :
    later.Begun := by
  induction actions generalizing now with
  | nil =>
    obtain rfl := Except.ok.inj ran
    exact begun
  | cons action actions inductionHypothesis =>
    obtain ⟨next, stepped, rest⟩ := run_cons.mp ran
    exact inductionHypothesis (begun.step stepped) rest

/-- An observer has received all that was announced since an earlier time, and that is enough to
follow the tree. -/
structure Informed (before now : Broadcast) (owner : ObserverId) (stream : List (Change Handle)) :
    Prop where
  sent : now.sent = before.sent ++ stream
  holds : ∃ waiting, now.tree.observers.Holds owner waiting ∧ now.read owner ++ waiting = stream
  carries : before.tree.forest.Carries now.tree.forest stream

/-- Whatever happens but the dropping of its own mailbox, an informed observer stays informed. -/
theorem Informed.step (informed : before.Informed now owner stream) (begun : now.Begun)
    (stepped : now.step action = .ok later) (kept : action ≠ .drop owner) :
    ∃ longer, before.Informed later owner longer := by
  obtain ⟨sent, ⟨waiting, holds, together⟩, carries⟩ := informed
  cases action with
  | mutate mutation =>
    obtain ⟨-, observers, told, moreSent, read⟩ := begun.step_mutate stepped
    refine ⟨stream ++ now.tree.announcements mutation, ?_, ?_, carries.trans told.carries⟩
    · rw [moreSent, sent, List.append_assoc]
    · refine ⟨_, observers ▸ holds.notifyAll _, ?_⟩
      rw [read, ← together, List.append_assoc]
  | subscribe =>
    obtain rfl := Except.ok.inj stepped
    exact ⟨stream, sent, ⟨waiting, holds.subscribe, together⟩, carries⟩
  | drop other =>
    obtain rfl := Except.ok.inj stepped
    have apart : owner ≠ other := by
      rintro rfl
      exact kept rfl
    exact ⟨stream, sent, ⟨waiting, holds.drop apart, together⟩, carries⟩
  | read other =>
    rw [Broadcast.step] at stepped
    split at stepped
    · obtain rfl := Except.ok.inj stepped
      exact ⟨stream, sent, ⟨waiting, holds, together⟩, carries⟩
    · next mailbox found =>
      obtain rfl := Except.ok.inj stepped
      refine ⟨stream, sent, ⟨_, holds.clear other, ?_⟩, carries⟩
      obtain ⟨own, ownFound, -, waits⟩ := holds
      by_cases isReader : owner = other
      · subst isReader
        obtain rfl : mailbox = own := Option.some.inj (found.symm.trans ownFound)
        simp only [if_true, waits, List.append_nil]
        exact together
      · simp only [if_neg isReader]
        exact together

private theorem Informed.run (informed : before.Informed now owner stream) (begun : now.Begun)
    (ran : now.run actions = .ok later) (kept : .drop owner ∉ actions) :
    ∃ longer, before.Informed later owner longer := by
  induction actions generalizing now stream with
  | nil =>
    obtain rfl := Except.ok.inj ran
    exact ⟨stream, informed⟩
  | cons action actions inductionHypothesis =>
    obtain ⟨next, stepped, rest⟩ := run_cons.mp ran
    rw [List.mem_cons, not_or] at kept
    obtain ⟨longer, stillInformed⟩ := informed.step begun stepped (Ne.symm kept.1)
    exact inductionHypothesis stillInformed (begun.step stepped) rest kept.2

/-- A new observer is informed of all that was announced since it came, which is nothing. -/
theorem Begun.informed_new (begun : before.Begun) (stepped : before.step .subscribe = .ok now) :
    before.Informed now before.tree.observers.next [] := by
  obtain rfl := Except.ok.inj stepped
  refine ⟨(List.append_nil _).symm, ⟨[], begun.numbered.holds_new, ?_⟩, .refl⟩
  rw [List.append_nil]
  exact begun.unread _ (Nat.le_refl _)

/-- Whatever happens around a tree, an observer that keeps its mailbox has received all that was
announced since its subscription, in order and once each. If it wrote down the child lists of all
live nodes when it subscribed, each change applies when it comes, and the lists are those of the
tree. A mutation announces the same changes to everybody, and names every node that it leaves with
another name or other counters. -/
theorem observers_can_follow (entry : Entry) (earlier later : List Action) (before now : Broadcast)
    (begun : (start entry).run earlier = .ok before)
    (followed : before.run (.subscribe :: later) = .ok now)
    (kept : .drop before.tree.observers.next ∉ later) :
    (∃ stream mirror, now.sent = before.sent ++ stream ∧
      now.received before.tree.observers.next = stream ∧
      (Mirror.of before.tree).replay stream = some mirror ∧
      ∀ node, mirror.children? node = (now.tree.node? node).map Node.children) ∧
    ∀ mutation outcome, now.tree.mutate mutation = .ok outcome →
      (∀ observers, (now.tree.attended observers).mutate mutation =
        .ok ⟨outcome.tree.attended (observers.notifyAll (now.tree.announcements mutation)),
          outcome.result⟩) ∧
      ∀ handle old new, now.tree.node? handle = some old →
        outcome.tree.node? handle = some new → old.name ≠ new.name ∨ old.counts ≠ new.counts →
        .changed handle ∈ now.tree.announcements mutation := by
  have beforeBegun := (begun_start entry).run begun
  have nowBegun := beforeBegun.run followed
  obtain ⟨subscribed, stepped, rest⟩ := run_cons.mp followed
  obtain ⟨stream, informed⟩ := (beforeBegun.informed_new stepped).run
    (beforeBegun.step stepped) rest kept
  obtain ⟨waiting, holds, together⟩ := informed.holds
  constructor
  · obtain ⟨shape, outline, shows⟩ := beforeBegun.shows
    obtain ⟨mirror, replayed, agrees⟩ := informed.carries _ (Mirror.of_agrees shows)
    refine ⟨stream, mirror, informed.sent, ?_, replayed, agrees⟩
    rw [received, holds.pending_eq, together]
  · intro mutation outcome done
    obtain ⟨shape, outline, shows⟩ := nowBegun.shows
    obtain ⟨heard, told⟩ := shows.announcements done
    refine ⟨heard, fun handle old new was is differ => told.named handle old new was is ?_⟩
    intro same
    rcases differ with otherName | otherCounts
    · exact otherName (congrArg Facts.name same)
    · exact otherCounts (congrArg Facts.counts same)

/-- An observer that comes late follows the removal of a class, although another drops out in
between. -/
theorem late_observer_follows_removal :
    let earlier : List Action :=
      [.subscribe, .mutate (.create "p" (.ofClass "A" [.function "f"]))]
    let later : List Action := [.drop 0, .mutate (.delete "p" "A"), .read 1]
    ∃ before now, (start (.function "p")).run earlier = .ok before ∧
      before.run (.subscribe :: later) = .ok now ∧
      now.received 1 = [.changed 0, .removed 0 0 1] ∧
      ∃ mirror, (Mirror.of before.tree).replay (now.received 1) = some mirror ∧
        mirror.children? 0 = some [] ∧ mirror.children? 2 = none := by
  intro earlier later
  have kept : Action.drop 1 ∉ later := by simp [later]
  refine ⟨_, _, rfl, rfl, rfl, ?_⟩
  obtain ⟨⟨stream, mirror, -, received, replayed, agrees⟩, -⟩ :=
    observers_can_follow (.function "p") earlier later _ _ rfl rfl kept
  refine ⟨mirror, ?_, (agrees 0).trans rfl, (agrees 2).trans rfl⟩
  rw [← received] at replayed
  exact replayed

end Broadcast

end CodeCensus
