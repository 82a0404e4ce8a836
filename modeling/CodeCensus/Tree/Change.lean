import CodeCensus.Forest.Basic

/-!
# Change notifications

Every mutation of a tree tells its observers what it did, one `Change` at a time. An observer owns
a mailbox that collects the changes sent since its subscription. A mailbox that its owner dropped
is pruned when the next change is sent; a mailbox whose tree is gone keeps what it has and gets
nothing more. What it has can still be told of another tree, whose nodes stand in for those that had
the same places.
-/

namespace CodeCensus

/-- One step of a mutation, told with some kind of names for nodes. -/
inductive Change (α : Type)
  /-- A node was inserted as the child of a parent at an index. -/
  | inserted (parent : α) (index : Nat) (node : α)
  /-- A node was removed, with its subtree, from an index of a parent. -/
  | removed (parent : α) (index : Nat) (node : α)
  /-- The name or the counters of a node changed. -/
  | changed (node : α)
deriving DecidableEq, Repr

/-- The change told with other names. -/
def Change.map {α β : Type} (rename : α → β) : Change α → Change β
  | .inserted parent index node => .inserted (rename parent) index (rename node)
  | .removed parent index node => .removed (rename parent) index (rename node)
  | .changed node => .changed (rename node)

/-- The number of an observer, in order of subscription. -/
abbrev ObserverId := Nat

/-- What one observer has not read yet. -/
structure Mailbox where
  owner : ObserverId
  /-- Oldest first. -/
  pending : Array (Change Handle)
  /-- The owner will not read any more. -/
  dropped : Bool
  /-- The places in the tree that sent, once it is gone. -/
  former : Option Places
deriving Repr

/-- Whether the tree that sends is still there. -/
def Mailbox.isConnected (mailbox : Mailbox) : Bool :=
  mailbox.former.isNone

/-- All mailboxes, and the number of the next observer. -/
structure Observers where
  next : ObserverId
  mailboxes : List Mailbox
deriving Repr

namespace Observers

/-- Nobody observes. -/
def none : Observers := ⟨0, []⟩

/-- Opens a mailbox for a new observer. -/
def subscribe (observers : Observers) : Observers × ObserverId :=
  (⟨observers.next + 1, observers.mailboxes ++ [⟨observers.next, #[], false, .none⟩]⟩,
    observers.next)

/-- Sends a change to every mailbox that is connected and in use. -/
def notify (observers : Observers) (change : Change Handle) : Observers :=
  { observers with
    mailboxes := (observers.mailboxes.filter fun mailbox => !mailbox.dropped).map fun mailbox =>
      if mailbox.isConnected then { mailbox with pending := mailbox.pending.push change }
      else mailbox }

/-- Marks the mailbox of an observer as out of use. -/
def drop (observers : Observers) (owner : ObserverId) : Observers :=
  { observers with
    mailboxes := observers.mailboxes.map fun mailbox =>
      if mailbox.owner = owner then { mailbox with dropped := true } else mailbox }

/-- Cuts every mailbox off from the tree that fills it, whose nodes had the given places. -/
def disconnect (observers : Observers) (places : Places) : Observers :=
  { observers with
    mailboxes := observers.mailboxes.map fun mailbox =>
      if mailbox.isConnected then { mailbox with former := some places } else mailbox }

/-- The mailbox of an observer, unless it is out of use. -/
def mailbox? (observers : Observers) (owner : ObserverId) : Option Mailbox :=
  observers.mailboxes.find? fun mailbox => mailbox.owner == owner && !mailbox.dropped

/-- Empties the mailbox of an observer. -/
def clear (observers : Observers) (owner : ObserverId) : Observers :=
  { observers with
    mailboxes := observers.mailboxes.map fun mailbox =>
      if mailbox.owner = owner then { mailbox with pending := #[] } else mailbox }

end Observers

end CodeCensus
