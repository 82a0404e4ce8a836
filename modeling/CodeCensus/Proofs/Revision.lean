import CodeCensus.Proofs.Search

/-!
# Revisions of a tree

A revision says for every label of a tree what becomes of it: which image it gets, whether its
subtree is left out, and which trees are appended to its children. Revisions talk about labels and
not about positions, so two of them can be compared label by label, while `place` tells where a
position has gone in the revised tree.
-/

namespace CodeCensus

/-- What becomes of the labels of a tree. -/
@[ext]
structure Revision (α β : Type) where
  image : α → β
  /-- The subtree at the label is left out. -/
  gone : α → Bool
  /-- Appended to the children at the label. -/
  extra : α → List (Rose β)

/-- Whether a revision leaves a subtree where it is. -/
def Revision.keeps {α β : Type} (revision : Revision α β) (tree : Rose α) : Bool :=
  !revision.gone tree.label

/-- Two revisions say the same of a label. -/
structure Revision.AgreesAt {α β : Type} (later revision : Revision α β) (label : α) : Prop where
  image : later.image label = revision.image label
  gone : later.gone label = revision.gone label
  extra : later.extra label = revision.extra label

namespace Rose

variable {α β : Type} {revision later : Revision α β} {tree subtree : Rose α} {position : Position}

mutual

/-- The revised tree. The top is never left out. -/
def revise (revision : Revision α β) : Rose α → Rose β
  | ⟨label, children⟩ =>
    ⟨revision.image label, reviseAll revision children ++ revision.extra label⟩

/-- Those of the trees that are not left out, revised. -/
def reviseAll (revision : Revision α β) : List (Rose α) → List (Rose β)
  | [] => []
  | tree :: trees =>
    if revision.keeps tree then tree.revise revision :: reviseAll revision trees
    else reviseAll revision trees

end

/-- Where a position that is not left out has gone: trees on the left of the way may be missing. -/
def place (revision : Revision α β) : Rose α → Position → Position
  | _, [] => []
  | tree, index :: rest =>
    ((tree.children.take index).filter revision.keeps).length ::
      match tree.children[index]? with
      | some child => child.place revision rest
      | none => rest

private theorem reviseAll_eq (revision : Revision α β) (trees : List (Rose α)) :
    reviseAll revision trees = (trees.filter revision.keeps).map (revise revision) := by
  induction trees with
  | nil => rfl
  | cons tree trees inductionHypothesis =>
    rw [reviseAll, inductionHypothesis, List.filter_cons]
    split <;> rfl

@[simp] theorem revise_mk (label : α) (children : List (Rose α)) :
    revise revision ⟨label, children⟩ = ⟨revision.image label,
      (children.filter revision.keeps).map (revise revision) ++ revision.extra label⟩ := by
  rw [revise, reviseAll_eq]

@[simp] theorem label_revise (revision : Revision α β) (tree : Rose α) :
    (tree.revise revision).label = revision.image tree.label := by
  cases tree
  simp

/-- A revision that only relabels. -/
theorem revise_eq_map (image : α → β) (tree : Rose α) :
    tree.revise ⟨image, fun _ => false, fun _ => []⟩ = tree.map image := by
  induction tree using induct with
  | node label children inductionHypothesis =>
    have all : children.filter (Revision.keeps ⟨image, fun _ => false, fun _ => []⟩) = children :=
      List.filter_eq_self.mpr fun child _ => rfl
    rw [revise_mk, all, List.append_nil, map_mk, List.map_congr_left inductionHypothesis]

/-- The labels of a child are labels of the tree. -/
theorem mem_labels_of_child {child : Rose α} {label : α} (member : child ∈ tree.children)
    (below : label ∈ child.labels) : label ∈ tree.labels := by
  obtain ⟨top, children⟩ := tree
  rw [labels_mk]
  exact List.mem_cons_of_mem _ (List.mem_flatMap.mpr ⟨child, member, below⟩)

/-- Revised trees are the same when the same of them are left out and each of them is revised alike. -/
theorem row_eq {trees : List (Rose α)}
    (gone : ∀ tree ∈ trees, later.gone tree.label = revision.gone tree.label)
    (alike : ∀ tree ∈ trees, tree.revise later = tree.revise revision) :
    (trees.filter later.keeps).map (revise later) =
      (trees.filter revision.keeps).map (revise revision) := by
  have kept : trees.filter later.keeps = trees.filter revision.keeps :=
    List.filter_congr fun tree member => by rw [Revision.keeps, Revision.keeps, gone tree member]
  rw [kept]
  exact List.map_congr_left fun tree member => alike tree (List.mem_of_mem_filter member)

/-- Only what a revision says of the labels of a tree matters. -/
theorem revise_congr (agree : ∀ label ∈ tree.labels, later.AgreesAt revision label) :
    tree.revise later = tree.revise revision := by
  induction tree using induct with
  | node label children inductionHypothesis =>
    have atTop := agree label (label_mem_labels ⟨label, children⟩)
    have inChild : ∀ child ∈ children, ∀ other ∈ child.labels, later.AgreesAt revision other :=
      fun child member other below => agree other (mem_labels_of_child member below)
    have row := row_eq (fun child member => (inChild child member _ (label_mem_labels child)).gone)
      fun child member => inductionHypothesis child member (inChild child member)
    rw [revise_mk, revise_mk, atTop.image, atTop.extra, row]

/-- Only what a revision says of the labels of some trees matters. -/
theorem row_congr {trees : List (Rose α)}
    (agree : ∀ tree ∈ trees, ∀ label ∈ tree.labels, later.AgreesAt revision label) :
    (trees.filter later.keeps).map (revise later) =
      (trees.filter revision.keeps).map (revise revision) :=
  row_eq (fun tree member => (agree tree member _ (label_mem_labels tree)).gone)
    fun tree member => revise_congr (agree tree member)

/-- A label of a revised tree is an image, or was appended. -/
theorem mem_labels_revise {new : β} (member : new ∈ (tree.revise revision).labels) :
    ∃ label ∈ tree.labels, new = revision.image label ∨
      ∃ grown ∈ revision.extra label, new ∈ grown.labels := by
  induction tree using induct with
  | node label children inductionHypothesis =>
    rw [revise_mk, labels_mk, List.mem_cons, List.flatMap_append, List.mem_append] at member
    have atTop : label ∈ labels ⟨label, children⟩ := label_mem_labels ⟨label, children⟩
    rcases member with rfl | below | appended
    · exact ⟨label, atTop, .inl rfl⟩
    · obtain ⟨_, isImage, inImage⟩ := List.mem_flatMap.mp below
      obtain ⟨child, kept, rfl⟩ := List.mem_map.mp isImage
      have isChild := List.mem_of_mem_filter kept
      obtain ⟨other, otherMember, cases⟩ := inductionHypothesis child isChild inImage
      exact ⟨other, mem_labels_of_child isChild otherMember, cases⟩
    · exact ⟨label, atTop, .inr (List.mem_flatMap.mp appended)⟩

/-! ### Places -/

@[simp] theorem place_nil (revision : Revision α β) (tree : Rose α) :
    tree.place revision [] = [] := by
  cases tree
  rfl

/-- One step of a way is counted among the children that stay. -/
theorem place_split (revision : Revision α β) (label : α) (before after : List (Rose α))
    (child : Rose α) (rest : Position) :
    place revision ⟨label, before ++ child :: after⟩ (before.length :: rest) =
      (before.filter revision.keeps).length :: child.place revision rest := by
  simp [place]

/-- Revised children around one that stays. -/
theorem revise_split {label : α} {before after : List (Rose α)} {child : Rose α}
    (kept : revision.gone child.label = false) :
    revise revision ⟨label, before ++ child :: after⟩ = ⟨revision.image label,
      (before.filter revision.keeps).map (revise revision) ++ child.revise revision ::
        ((after.filter revision.keeps).map (revise revision) ++ revision.extra label)⟩ := by
  have keeps : revision.keeps child = true := by rw [Revision.keeps, kept, Bool.not_false]
  simp [keeps]

private theorem label_mem_spine_top (tree : Rose α) (position : Position) :
    tree.label ∈ tree.spine position := by
  cases position <;> simp [spine]

/-- One step of a way passes the label of the top. -/
theorem spine_split (label : α) (before after : List (Rose α)) (child : Rose α) (rest : Position) :
    spine ⟨label, before ++ child :: after⟩ (before.length :: rest) =
      label :: child.spine rest := by
  simp [spine]

/-- A place leads on from one to the next. -/
theorem place_append (upper lower : Position) (here : tree.at? upper = some subtree) :
    tree.place revision (upper ++ lower) =
      tree.place revision upper ++ subtree.place revision lower := by
  induction upper generalizing tree with
  | nil =>
    obtain rfl : tree = subtree := Option.some.inj here
    simp
  | cons index rest inductionHypothesis =>
    obtain ⟨child, found, below⟩ := Option.bind_eq_some_iff.mp here
    obtain ⟨label, children⟩ := tree
    obtain ⟨before, after, rfl, rfl⟩ := children_split found
    rw [List.cons_append, place_split, place_split, inductionHypothesis below, List.cons_append]

/-- The first label with a property is the first in the revised tree that has the like, if the way
to it stays and nothing that is appended has it. -/
theorem locate?_revise {property : α → Bool} {like : β → Bool}
    (found : tree.locate? property = some (position, subtree))
    (same : ∀ label ∈ tree.labels, like (revision.image label) = property label)
    (fresh : ∀ label ∈ tree.labels, ∀ grown ∈ revision.extra label, ∀ new ∈ grown.labels,
      like new = false)
    (stays : ∀ label ∈ tree.spine position, revision.gone label = false) :
    (tree.revise revision).locate? like =
      some (tree.place revision position, subtree.revise revision) := by
  rw [locate?_eq_some] at found ⊢
  induction found with
  | @top tree holds =>
    rw [place_nil]
    refine .top ?_
    rw [label_revise, same _ (label_mem_labels tree), holds]
  | @inside label before after child subtree rest notTop notBefore further inductionHypothesis =>
    rw [spine_split, List.forall_mem_cons] at stays
    have inside : ∀ other ∈ child.labels, other ∈ labels ⟨label, before ++ child :: after⟩ :=
      fun other => mem_labels_of_child (by simp)
    have childKept := stays.2 _ (label_mem_spine_top child rest)
    have onward := inductionHypothesis
      (fun other below => same other (inside other below))
      (fun other below => fresh other (inside other below)) stays.2
    rw [place_split, revise_split childKept, ← List.length_map (revise revision)]
    refine .inside ?_ ?_ onward
    · rw [same label (label_mem_labels ⟨label, _⟩), notTop]
    · intro sibling member new newMember
      obtain ⟨old, kept, rfl⟩ := List.mem_map.mp member
      have isBefore := List.mem_of_mem_filter kept
      have isChild : old ∈ before ++ child :: after := List.mem_append_left _ isBefore
      obtain ⟨other, below, rfl | ⟨grown, isExtra, inGrown⟩⟩ := mem_labels_revise newMember
      · rw [same other (mem_labels_of_child isChild below), notBefore old isBefore other below]
      · exact fresh other (mem_labels_of_child isChild below) grown isExtra new inGrown

/-- The revised subtree is at the place of the subtree. -/
theorem at?_revise (here : tree.at? position = some subtree)
    (stays : ∀ label ∈ tree.spine position, revision.gone label = false) :
    (tree.revise revision).at? (tree.place revision position) =
      some (subtree.revise revision) := by
  induction position generalizing tree with
  | nil =>
    obtain rfl : tree = subtree := Option.some.inj here
    simp
  | cons index rest inductionHypothesis =>
    obtain ⟨child, found, below⟩ := Option.bind_eq_some_iff.mp here
    obtain ⟨label, children⟩ := tree
    obtain ⟨before, after, rfl, rfl⟩ := children_split found
    rw [spine_split, List.forall_mem_cons] at stays
    rw [place_split, revise_split (stays.2 _ (label_mem_spine_top child rest)), at?_cons,
      ← List.length_map (revise revision), List.getElem?_append_right (Nat.le_refl _), Nat.sub_self,
      List.getElem?_cons_zero, Option.bind_some, inductionHypothesis below stays.2]

/-- What no label has, no label of the revised tree has, if nothing that is appended has it. -/
theorem locate?_revise_none {property : α → Bool} {like : β → Bool}
    (missing : tree.locate? property = none)
    (same : ∀ label ∈ tree.labels, like (revision.image label) = property label)
    (fresh : ∀ label ∈ tree.labels, ∀ grown ∈ revision.extra label, ∀ new ∈ grown.labels,
      like new = false) :
    (tree.revise revision).locate? like = none := by
  rw [locate?_eq_none] at missing ⊢
  intro new member
  obtain ⟨label, below, rfl | ⟨grown, isExtra, inGrown⟩⟩ := mem_labels_revise member
  · rw [same label below, missing label below]
  · exact fresh label below grown isExtra new inGrown

/-- Two revisions that differ only on the way to a position and below it are one change apart, at
the place of the position. -/
theorem revise_along {way : β → β} (distinct : tree.labels.Nodup)
    (here : tree.at? position = some subtree)
    (stays : ∀ label ∈ tree.spine position, revision.gone label = false)
    (ways : ∀ label ∈ tree.spine position, label ∉ subtree.labels →
      later.image label = way (revision.image label))
    (others : ∀ label ∈ tree.labels, label ∉ tree.spine position → label ∉ subtree.labels →
      later.image label = revision.image label)
    (gone : ∀ label ∈ tree.labels, label ∈ tree.spine position ∨ label ∉ subtree.labels →
      later.gone label = revision.gone label)
    (extras : ∀ label ∈ tree.labels, label ∉ subtree.labels →
      later.extra label = revision.extra label) :
    tree.revise later = (tree.revise revision).amend way (fun _ => subtree.revise later)
      (tree.place revision position) := by
  induction position generalizing tree with
  | nil =>
    obtain rfl : tree = subtree := Option.some.inj here
    rw [place_nil]
    rfl
  | cons index rest inductionHypothesis =>
    obtain ⟨child, found, below⟩ := Option.bind_eq_some_iff.mp here
    obtain ⟨top, children⟩ := tree
    obtain ⟨before, after, rfl, rfl⟩ := children_split found
    obtain ⟨notChild, childDistinct, siblings⟩ := distinct_split distinct
    have inChild : ∀ label ∈ subtree.labels, label ∈ child.labels := fun label => labels_subset below
    rw [spine_split] at stays ways others gone
    rw [List.forall_mem_cons] at stays
    have topOutside : top ∉ subtree.labels := fun member => notChild (inChild top member)
    have topInside : top ∈ labels ⟨top, before ++ child :: after⟩ := label_mem_labels ⟨top, _⟩
    have atTop : later.image top = way (revision.image top) :=
      ways top List.mem_cons_self topOutside
    have topExtra : later.extra top = revision.extra top := extras top topInside topOutside
    -- Nothing in a sibling is on the way or below the position.
    have onSibling : ∀ sibling ∈ before ++ after, ∀ label ∈ sibling.labels,
        later.AgreesAt revision label := by
      intro sibling member label inSibling
      have isChild : sibling ∈ before ++ child :: after := by
        simp only [List.mem_append, List.mem_cons] at member ⊢
        tauto
      have inTree : label ∈ labels ⟨top, before ++ child :: after⟩ :=
        mem_labels_of_child isChild inSibling
      obtain ⟨notTop, outside⟩ := siblings sibling member label inSibling
      have notBelow : label ∉ subtree.labels := fun inSubtree => outside (inChild label inSubtree)
      refine ⟨others label inTree ?_ notBelow, gone label inTree (.inr notBelow),
        extras label inTree notBelow⟩
      rw [List.mem_cons, not_or]
      exact ⟨notTop, fun onWay => outside (mem_labels_of_mem_spine onWay)⟩
    have onBefore := row_congr fun sibling member =>
      onSibling sibling (List.mem_append_left after member)
    have onAfter := row_congr fun sibling member =>
      onSibling sibling (List.mem_append_right before member)
    have childInside : ∀ label ∈ child.labels, label ∈ labels ⟨top, before ++ child :: after⟩ :=
      fun label => mem_labels_of_child (by simp)
    have childKept := stays.2 _ (label_mem_spine_top child rest)
    have childStillKept : later.gone child.label = false := by
      rw [gone _ (childInside _ (label_mem_labels child))
        (.inl (List.mem_cons_of_mem _ (label_mem_spine_top child rest))), childKept]
    have onChild : child.revise later = (child.revise revision).amend way
        (fun _ => subtree.revise later) (child.place revision rest) := by
      refine inductionHypothesis childDistinct below stays.2
        (fun label onWay => ways label (List.mem_cons_of_mem _ onWay)) ?_
        (fun label member onWayOrOff => gone label (childInside label member)
          (onWayOrOff.imp_left (List.mem_cons_of_mem _)))
        (fun label member => extras label (childInside label member))
      intro label member offWay
      refine others label (childInside label member) ?_
      rw [List.mem_cons, not_or]
      refine ⟨?_, offWay⟩
      rintro rfl
      exact notChild member
    have placed := modify_split (amend way (fun _ => subtree.revise later)
      (child.place revision rest)) ((before.filter revision.keeps).map (revise revision))
      ((after.filter revision.keeps).map (revise revision) ++ revision.extra top)
      (child.revise revision)
    rw [List.length_map] at placed
    rw [revise_split childStillKept, revise_split childKept, place_split, onBefore, onAfter,
      onChild, atTop, topExtra, amend, placed]

end Rose

end CodeCensus
