import CodeCensus.Forest.Basic

/-!
# Walks through a forest

Downward walks keep the handles still to visit on a stack and skip those that are stale. Upward
walks follow parent handles. Each walk takes as many steps as the forest can need: a node is
visited once in pre-order and twice in post-order, and handles fall on the way up because a parent
is inserted before its children.
-/

namespace CodeCensus.Forest

/-- Pre-order from a stack of handles, top first, in at most the given number of steps. -/
def preorderSteps (forest : Forest) : Nat → List Handle → List Handle
  | 0, _ => []
  | _, [] => []
  | steps + 1, handle :: stack =>
    match forest.node? handle with
    | some node => handle :: forest.preorderSteps steps (node.children ++ stack)
    | none => forest.preorderSteps steps stack

/-- The handles of a subtree: each node first, then its children from left to right. -/
def preorder (forest : Forest) (start : Handle) : List Handle :=
  forest.preorderSteps forest.slots.size [start]

/-- Post-order from a stack of handles, top first, each marked once its children are on the
stack above it. -/
def postorderSteps (forest : Forest) : Nat → List (Handle × Bool) → List Handle
  | 0, _ => []
  | _, [] => []
  | steps + 1, (handle, expanded) :: stack =>
    match forest.node? handle with
    | none => forest.postorderSteps steps stack
    | some node =>
      if expanded then handle :: forest.postorderSteps steps stack
      else
        forest.postorderSteps steps
          (node.children.map (fun child => (child, false)) ++ (handle, true) :: stack)

/-- The handles of a subtree: the children from left to right, then the node. -/
def postorder (forest : Forest) (start : Handle) : List Handle :=
  forest.postorderSteps (2 * forest.slots.size) [(start, false)]

/-- The first node of a subtree, in pre-order, with the given name. -/
def locate (forest : Forest) (start : Handle) (name : String) : Option Handle :=
  (forest.preorder start).find? fun handle =>
    (forest.node? handle).any fun node => node.name == name

/-- Parent handles from a node upward, in at most the given number of steps. -/
def climb (forest : Forest) : Nat → Handle → List Handle
  | 0, _ => []
  | steps + 1, handle =>
    match forest.node? handle with
    | none => []
    | some node =>
      handle :: (match node.parent with
        | some parent => forest.climb steps parent
        | none => [])

/-- A node and all its ancestors, nearest first. -/
def lineage (forest : Forest) (start : Handle) : List Handle :=
  forest.climb (start + 1) start

/-- Unlinks a node from its parent and removes it with its subtree. The result also names the
former parent and the former position among the siblings. -/
def detach (forest : Forest) (handle : Handle) : Except TreeError (Forest × Handle × Nat) :=
  match forest.node? handle with
  | none => .error .staleNode
  | some node =>
    match node.parent with
    | none => .error (.rootDetach node.name)
    | some parentHandle =>
      match forest.node? parentHandle with
      | none => .error .staleNode
      | some parent =>
        match parent.children.idxOf? handle with
        | none => .error .staleNode
        | some position =>
          let unlinked := forest.set parentHandle
            { parent with children := parent.children.eraseIdx position }
          .ok ((unlinked.postorder handle).foldl drop unlinked, parentHandle, position)

end CodeCensus.Forest
