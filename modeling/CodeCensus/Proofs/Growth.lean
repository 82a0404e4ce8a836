import CodeCensus.Proofs.Walk
import Mathlib.Data.List.InsertIdx

/-!
# Growing and cutting a forest

`Formed` is the invariant of forests: some shapes account for all live handles and all links.
`Grafted` says what an insertion does, whether of one node or of an entry with all its nested
entries: it adds shapes behind the children of one node, under handles never used before, and
touches nothing else. Detaching cuts one shape off and leaves the rest as it was.
-/

namespace CodeCensus.Forest

open scoped List

variable {before middle after : Forest} {parent : Handle}

/-- The shapes account for every live node of a forest and for its links. -/
structure Formed (forest : Forest) (shapes : List (Rose Handle)) : Prop where
  shaped : ∀ shape ∈ shapes, forest.Shaped none shape
  distinct : (shapes.flatMap Rose.labels).Nodup
  exhaustive : ∀ handle node, forest.node? handle = some node →
    handle ∈ shapes.flatMap Rose.labels
  rooted : ∀ top, forest.root = some top → ∃ shape ∈ shapes, shape.label = top

/-- No shape of a forest holds a handle twice. -/
theorem Formed.distinct_of_mem {forest : Forest} {shapes : List (Rose Handle)} {shape : Rose Handle}
    (formed : forest.Formed shapes) (member : shape ∈ shapes) : shape.labels.Nodup :=
  (List.nodup_flatMap.mp formed.distinct).1 shape member

/-- A live handle has a position in one of the shapes. -/
theorem Formed.position {forest : Forest} {shapes : List (Rose Handle)} {handle : Handle}
    {node : Node} (formed : forest.Formed shapes) (live : forest.node? handle = some node) :
    ∃ shape ∈ shapes, ∃ position subshape, shape.at? position = some subshape ∧
      subshape.label = handle := by
  obtain ⟨shape, member, inShape⟩ := List.mem_flatMap.mp (formed.exhaustive handle node live)
  exact ⟨shape, member, Rose.mem_labels.mp inShape⟩

/-- The empty forest is in shape. -/
theorem formed_empty : Forest.empty.Formed [] where
  shaped := by simp
  distinct := by simp
  exhaustive handle node live := by simp [node?, empty] at live
  rooted top isRoot := by simp [empty] at isRoot

/-! ### Insertion -/

/-- The forest after shapes were added behind the children of a node. -/
structure Grafted (before after : Forest) (parent : Handle) (grown : List (Rose Handle)) :
    Prop where
  shaped : ∀ shape ∈ grown, after.Shaped (some parent) shape
  parentNode : after.node? parent = (before.node? parent).map fun node =>
    { node with children := node.children ++ grown.map Rose.label }
  others : ∀ handle, handle < before.fresh → handle ≠ parent →
    after.node? handle = before.node? handle
  unused : ∀ handle ∈ grown.flatMap Rose.labels, before.fresh ≤ handle
  distinct : (grown.flatMap Rose.labels).Nodup
  exhaustive : ∀ handle node, before.fresh ≤ handle → after.node? handle = some node →
    handle ∈ grown.flatMap Rose.labels
  root : after.root = before.root
  slots : before.fresh ≤ after.fresh

/-- To graft nothing changes nothing. -/
theorem Grafted.refl : Grafted before before parent [] where
  shaped := by simp
  parentNode := by simp
  others _ _ _ := rfl
  unused := by simp
  distinct := by simp
  exhaustive handle node beyond live := by simp [node?_of_fresh_le beyond] at live
  root := rfl
  slots := Nat.le_refl _

/-- Two grafts at one node are one graft. -/
theorem Grafted.trans {first second : List (Rose Handle)} (inside : parent < before.fresh)
    (firstly : Grafted before middle parent first)
    (secondly : Grafted middle after parent second) :
    Grafted before after parent (first ++ second) where
  shaped shape member := by
    rcases List.mem_append.mp member with early | late
    · refine (firstly.shaped shape early).congr fun handle inShape => ?_
      obtain ⟨node, live⟩ := (firstly.shaped shape early).live inShape
      have unused := firstly.unused handle (List.mem_flatMap.mpr ⟨shape, early, inShape⟩)
      exact secondly.others handle (lt_fresh_of_node? live)
        (Nat.ne_of_gt (Nat.lt_of_lt_of_le inside unused))
    · exact secondly.shaped shape late
  parentNode := by
    rw [secondly.parentNode, firstly.parentNode, Option.map_map]
    simp [Function.comp_def]
  others handle bound apart := by
    rw [secondly.others handle (Nat.lt_of_lt_of_le bound firstly.slots) apart,
      firstly.others handle bound apart]
  unused handle member := by
    rw [List.flatMap_append, List.mem_append] at member
    rcases member with early | late
    · exact firstly.unused handle early
    · exact Nat.le_trans firstly.slots (secondly.unused handle late)
  distinct := by
    rw [List.flatMap_append, List.nodup_append]
    refine ⟨firstly.distinct, secondly.distinct, fun handle early other late => ?_⟩
    obtain ⟨shape, member, inShape⟩ := List.mem_flatMap.mp early
    obtain ⟨node, live⟩ := (firstly.shaped shape member).live inShape
    exact Nat.ne_of_lt (Nat.lt_of_lt_of_le (lt_fresh_of_node? live) (secondly.unused other late))
  exhaustive handle node beyond live := by
    rw [List.flatMap_append, List.mem_append]
    by_cases old : handle < middle.fresh
    · have apart : handle ≠ parent := Nat.ne_of_gt (Nat.lt_of_lt_of_le inside beyond)
      rw [secondly.others handle old apart] at live
      exact .inl (firstly.exhaustive handle node beyond live)
    · exact .inr (secondly.exhaustive handle node (Nat.le_of_not_lt old) live)
  root := secondly.root.trans firstly.root
  slots := Nat.le_trans firstly.slots secondly.slots

/-- Inserting below a live branch grafts a single node. -/
theorem insert_grafted {forest : Forest} {node : Node} (live : forest.node? parent = some node)
    (branch : node.isLeaf = false) (entry : Entry) :
    ∃ grown, forest.insert entry (some parent) = .ok (grown, forest.fresh) ∧
      Grafted forest grown parent [⟨forest.fresh, []⟩] ∧
      grown.node? forest.fresh = some (.ofEntry entry (some parent)) ∧
      grown.fresh = forest.fresh + 1 := by
  have inside := lt_fresh_of_node? live
  let linked := forest.set parent { node with children := node.children ++ [forest.fresh] }
  have sameFresh : linked.fresh = forest.fresh := by simp [linked]
  have lookup : ∀ handle, (linked.append (.ofEntry entry (some parent))).node? handle =
      if handle = forest.fresh then some (.ofEntry entry (some parent))
      else if handle = parent then
        some { node with children := node.children ++ [forest.fresh] }
      else forest.node? handle := by
    intro handle
    rw [node?_append, sameFresh, node?_set _ inside]
  have atFresh := lookup forest.fresh
  rw [if_pos rfl] at atFresh
  refine ⟨linked.append (.ofEntry entry (some parent)), ?_, ?_, atFresh, ?_⟩
  · simp [insert, live, branch, linked]
  · constructor
    · intro shape member
      obtain rfl := List.mem_singleton.mp member
      exact .node atFresh rfl rfl (fun _ => rfl) (by simp) (by simp)
    · rw [lookup, if_neg (Nat.ne_of_lt inside), if_pos rfl, live]
      rfl
    · intro handle bound apart
      rw [lookup, if_neg (Nat.ne_of_lt bound), if_neg apart]
    · simp
    · simp
    · intro handle other beyond found
      rw [lookup] at found
      by_cases new : handle = forest.fresh
      · simp [new]
      · have apart : handle ≠ parent := Nat.ne_of_gt (Nat.lt_of_lt_of_le inside beyond)
        rw [if_neg new, if_neg apart, node?_of_fresh_le beyond] at found
        cases found
    · rfl
    · simp [linked]
  · simp [linked]

/-! ### One shape for another -/

section Replacement

variable {shapes others grown : List (Rose Handle)} {shape renewed subshape child : Rose Handle}
  {position : Position}

/-- The handles of the other shapes are not in this one. -/
theorem Formed.apart (formed : before.Formed (shapes ++ shape :: others)) {handle : Handle}
    (elsewhere : handle ∈ (shapes ++ others).flatMap Rose.labels) : handle ∉ shape.labels := by
  have moved : (shapes ++ shape :: others).flatMap Rose.labels ~
      shape.labels ++ (shapes ++ others).flatMap Rose.labels := by
    rw [← List.flatMap_cons]
    exact List.perm_middle.flatMap_right Rose.labels
  have distinct := (List.nodup_append.mp (moved.nodup_iff.mp formed.distinct)).2.2
  exact fun inShape => distinct handle inShape handle elsewhere rfl

/-- A forest stays formed when one shape gives way to another with the same top, as long as the
nodes of the other shapes stay. -/
theorem Formed.replace (formed : before.Formed (shapes ++ shape :: others))
    (shaped : after.Shaped none renewed) (sameTop : renewed.label = shape.label)
    (same : ∀ handle ∈ (shapes ++ others).flatMap Rose.labels,
      after.node? handle = before.node? handle)
    (distinct : renewed.labels.Nodup)
    (apart : ∀ handle ∈ (shapes ++ others).flatMap Rose.labels, handle ∉ renewed.labels)
    (exhaustive : ∀ handle node, after.node? handle = some node → handle ∉ renewed.labels →
      ∃ old, before.node? handle = some old ∧ handle ∉ shape.labels)
    (root : after.root = before.root) : after.Formed (shapes ++ renewed :: others) := by
  have moved : ∀ one : Rose Handle, (shapes ++ one :: others).flatMap Rose.labels ~
      one.labels ++ (shapes ++ others).flatMap Rose.labels := by
    intro one
    rw [← List.flatMap_cons]
    exact List.perm_middle.flatMap_right Rose.labels
  have before_distinct := (moved shape).nodup_iff.mp formed.distinct
  constructor
  · intro one member
    by_cases new : one = renewed
    · rwa [new]
    · have stayed : one ∈ shapes ++ others := by
        simp only [List.mem_append, List.mem_cons, new, false_or] at member ⊢
        exact member
      have old : one ∈ shapes ++ shape :: others := by
        simp only [List.mem_append, List.mem_cons] at stayed ⊢
        tauto
      exact (formed.shaped one old).congr fun handle inOne =>
        same handle (List.mem_flatMap.mpr ⟨one, stayed, inOne⟩)
  · refine (moved renewed).nodup_iff.mpr (List.nodup_append.mpr ⟨distinct, ?_, ?_⟩)
    · exact (List.nodup_append.mp before_distinct).2.1
    · rintro handle inNew _ elsewhere rfl
      exact apart handle elsewhere inNew
  · intro handle node live
    refine (moved renewed).mem_iff.mpr (List.mem_append.mpr ?_)
    by_cases inNew : handle ∈ renewed.labels
    · exact .inl inNew
    · obtain ⟨old, was, notOld⟩ := exhaustive handle node live inNew
      have listed := (moved shape).mem_iff.mp (formed.exhaustive handle old was)
      exact .inr ((List.mem_append.mp listed).resolve_left notOld)
  · intro top isRoot
    rw [root] at isRoot
    obtain ⟨one, member, isTop⟩ := formed.rooted top isRoot
    rcases List.mem_append.mp member with early | late
    · exact ⟨one, by simp [early], isTop⟩
    · rcases List.mem_cons.mp late with rfl | later
      · exact ⟨renewed, by simp, sameTop.trans isTop⟩
      · exact ⟨one, by simp [later], isTop⟩

/-- A graft at a position of a shape leaves the forest formed. -/
theorem Formed.grafted {node : Node} (formed : before.Formed (shapes ++ shape :: others))
    (here : shape.at? position = some subshape)
    (live : before.node? subshape.label = some node) (branch : node.isLeaf = false)
    (grafted : Grafted before after subshape.label grown) :
    after.Formed (shapes ++ shape.graft grown position :: others) := by
  have member : shape ∈ shapes ++ shape :: others := by simp
  have shaped := formed.shaped shape member
  have distinct := formed.distinct_of_mem member
  have labels := Rose.labels_graft grown here
  have old : ∀ handle node, before.node? handle = some node → handle ≠ subshape.label →
      after.node? handle = before.node? handle :=
    fun handle node live apart => grafted.others handle (lt_fresh_of_node? live) apart
  have oldInShape : ∀ handle ∈ shape.labels, ∀ other ∈ grown.flatMap Rose.labels,
      handle ≠ other := by
    intro handle inShape other inGrown
    obtain ⟨node, was⟩ := shaped.live inShape
    exact Nat.ne_of_lt (Nat.lt_of_lt_of_le (lt_fresh_of_node? was) (grafted.unused other inGrown))
  have inTop : subshape.label ∈ shape.labels := Rose.label_mem_of_at? here
  have elsewhereLive : ∀ handle ∈ (shapes ++ others).flatMap Rose.labels,
      ∃ node, before.node? handle = some node := by
    intro handle elsewhere
    obtain ⟨one, stayed, inOne⟩ := List.mem_flatMap.mp elsewhere
    refine (formed.shaped one ?_).live inOne
    simp only [List.mem_append, List.mem_cons] at stayed ⊢
    tauto
  refine formed.replace ?_ (Rose.label_graft grown here) ?_ ?_ ?_ ?_ grafted.root
  · refine shaped.amend distinct here rfl ?_ ?_
    · intro above subshaped
      have subDistinct := Rose.distinct_of_at? distinct here
      cases subshaped with
      | @node _ handle top below found parentLink childLinks terminal later below_shaped =>
        obtain rfl : top = node := Option.some.inj (found.symm.trans live)
        have topNode := grafted.parentNode
        rw [live, Option.map_some] at topNode
        rw [Rose.labels_mk, List.nodup_cons] at subDistinct
        refine .node topNode parentLink ?_ ?_ ?_ ?_
        · simp [childLinks]
        · intro leaf
          exact absurd (branch.symm.trans leaf) (by simp)
        · intro child childMember
          rcases List.mem_append.mp childMember with was | new
          · exact later child was
          · have unused := grafted.unused child.label
              (List.mem_flatMap.mpr ⟨child, new, Rose.label_mem_labels child⟩)
            exact Nat.lt_of_lt_of_le (lt_fresh_of_node? live) unused
        · intro child childMember
          rcases List.mem_append.mp childMember with was | new
          · refine (below_shaped child was).congr fun lower inChild => ?_
            obtain ⟨lowerNode, lowerLive⟩ := (below_shaped child was).live inChild
            refine old lower lowerNode lowerLive ?_
            rintro rfl
            exact subDistinct.1 (List.mem_flatMap.mpr ⟨child, was, inChild⟩)
          · exact grafted.shaped child new
    · intro handle inShape notBelow
      obtain ⟨node, was⟩ := shaped.live inShape
      refine old handle node was ?_
      rintro rfl
      exact notBelow (Rose.label_mem_labels subshape)
  · intro handle elsewhere
    obtain ⟨node, was⟩ := elsewhereLive handle elsewhere
    refine old handle node was ?_
    rintro rfl
    exact formed.apart elsewhere inTop
  · refine labels.nodup_iff.mpr (List.nodup_append.mpr ⟨distinct, grafted.distinct, oldInShape⟩)
  · intro handle elsewhere inNew
    rcases List.mem_append.mp (labels.mem_iff.mp inNew) with inShape | inGrown
    · exact formed.apart elsewhere inShape
    · obtain ⟨node, was⟩ := elsewhereLive handle elsewhere
      exact absurd (grafted.unused handle inGrown) (Nat.not_le_of_lt (lt_fresh_of_node? was))
  · intro handle node found notNew
    have notOld : handle ∉ shape.labels :=
      fun inShape => notNew (labels.mem_iff.mpr (List.mem_append_left _ inShape))
    have notGrown : handle ∉ grown.flatMap Rose.labels :=
      fun inGrown => notNew (labels.mem_iff.mpr (List.mem_append_right _ inGrown))
    have bound : handle < before.fresh := by
      by_contra beyond
      exact notGrown (grafted.exhaustive handle node (Nat.le_of_not_lt beyond) found)
    refine ⟨node, ?_, notOld⟩
    rw [← grafted.others handle bound ?_, found]
    rintro rfl
    exact notOld inTop

/-! ### Removal -/

private theorem node?_foldl_drop (forest : Forest) (doomed : List Handle) (handle : Handle) :
    (doomed.foldl drop forest).node? handle =
      if handle ∈ doomed then none else forest.node? handle := by
  induction doomed generalizing forest with
  | nil => simp
  | cons first doomed inductionHypothesis =>
    rw [List.foldl_cons, inductionHypothesis, node?_drop]
    by_cases same : handle = first <;> simp [same]

private theorem foldl_drop_frame (forest : Forest) (doomed : List Handle) :
    (doomed.foldl drop forest).root = forest.root ∧
      (doomed.foldl drop forest).fresh = forest.fresh := by
  induction doomed generalizing forest with
  | nil => exact ⟨rfl, rfl⟩
  | cons first doomed inductionHypothesis =>
    obtain ⟨root, fresh⟩ := inductionHypothesis (forest.drop first)
    exact ⟨root, fresh.trans fresh_drop⟩

/-- The forest after the shape of a child was cut off from its parent. -/
structure Pruned (before after : Forest) (parent : Handle) (index : Nat) (cut : Rose Handle) :
    Prop where
  removed : ∀ handle ∈ cut.labels, after.node? handle = none
  parentNode : after.node? parent = (before.node? parent).map fun node =>
    { node with children := node.children.eraseIdx index }
  others : ∀ handle, handle ∉ cut.labels → handle ≠ parent →
    after.node? handle = before.node? handle
  root : after.root = before.root
  slots : after.fresh = before.fresh

private theorem idxOf?_of_nodup {handles : List Handle} {handle : Handle} {index : Nat}
    (distinct : handles.Nodup) (here : handles[index]? = some handle) :
    handles.idxOf? handle = some index := by
  obtain ⟨bound, atIndex⟩ := List.getElem?_eq_some_iff.mp here
  refine List.idxOf?_eq_some_iff.mpr ⟨bound, atIndex, fun earlier isEarlier same => ?_⟩
  have equal := distinct.getElem_inj_iff.mp (same.trans atIndex.symm)
  exact absurd equal (Nat.ne_of_lt isEarlier)

/-- Detaching a child of a shape prunes it, and tells its parent and its index. -/
theorem detach_pruned {forest : Forest} {index : Nat} (shaped : forest.Shaped none shape)
    (distinct : shape.labels.Nodup) (here : shape.at? position = some subshape)
    (found : subshape.children[index]? = some child) :
    ∃ pruned, forest.detach child.label = .ok (pruned, subshape.label, index) ∧
      Pruned forest pruned subshape.label index child := by
  obtain ⟨above, subshaped⟩ := shaped.at? here
  have subDistinct := Rose.distinct_of_at? distinct here
  have childShaped := subshaped.child (List.mem_of_getElem? found)
  obtain ⟨parentNode, parentLive, -, childLinks, -⟩ := subshaped.top
  obtain ⟨node, live, parentLink, -⟩ := childShaped.top
  obtain ⟨top, children⟩ := subshape
  rw [Rose.labels_mk, List.nodup_cons] at subDistinct
  have childDistinct := (List.nodup_flatMap.mp subDistinct.2).1 child (List.mem_of_getElem? found)
  have topApart : ∀ handle ∈ child.labels, handle ≠ top := by
    rintro handle inChild rfl
    exact subDistinct.1 (List.mem_flatMap.mpr ⟨child, List.mem_of_getElem? found, inChild⟩)
  -- The siblings have distinct handles, so the child is found at its own index.
  have siblings : (children.map Rose.label).Nodup :=
    subDistinct.2.sublist (Rose.map_label_sublist children)
  have listed : parentNode.children.idxOf? child.label = some index := by
    rw [childLinks]
    exact idxOf?_of_nodup siblings (by simp [found])
  let unlinked := forest.set top
    { parentNode with children := parentNode.children.eraseIdx index }
  have lookup : ∀ handle, unlinked.node? handle = if handle = top then
      some { parentNode with children := parentNode.children.eraseIdx index }
      else forest.node? handle := fun handle => node?_set _ (lt_fresh_of_node? parentLive)
  have stillShaped : unlinked.Shaped (some top) child :=
    childShaped.congr fun handle inChild => by rw [lookup, if_neg (topApart handle inChild)]
  have doomed : ∀ handle, handle ∈ unlinked.postorder child.label ↔ handle ∈ child.labels := by
    intro handle
    rw [stillShaped.postorder childDistinct, Rose.mem_labelsUp]
  obtain ⟨sameRoot, sameFresh⟩ := foldl_drop_frame unlinked (unlinked.postorder child.label)
  refine ⟨(unlinked.postorder child.label).foldl drop unlinked, ?_, ?_⟩
  · simp [detach, live, parentLink, parentLive, listed, unlinked]
  · constructor
    · intro handle inChild
      rw [node?_foldl_drop, if_pos ((doomed handle).mpr inChild)]
    · have stays : top ∉ unlinked.postorder child.label :=
        fun gone => topApart top ((doomed top).mp gone) rfl
      rw [node?_foldl_drop, if_neg stays, lookup, if_pos rfl, parentLive]
      rfl
    · intro handle outside apart
      rw [node?_foldl_drop, if_neg (mt (doomed handle).mp outside), lookup, if_neg apart]
    · exact sameRoot
    · exact sameFresh.trans (fresh_set _)

/-- Cutting off a child of a shape leaves the forest formed. -/
theorem Formed.pruned {index : Nat} (formed : before.Formed (shapes ++ shape :: others))
    (here : shape.at? position = some subshape)
    (found : subshape.children[index]? = some child)
    (pruned : Pruned before after subshape.label index child) :
    after.Formed (shapes ++ shape.prune index position :: others) := by
  have member : shape ∈ shapes ++ shape :: others := by simp
  have shaped := formed.shaped shape member
  have distinct := formed.distinct_of_mem member
  have labels := Rose.labels_prune here found
  obtain ⟨prunedDistinct, -, disjoint⟩ := List.nodup_append.mp (labels.nodup_iff.mp distinct)
  have inTop : subshape.label ∈ shape.labels := Rose.label_mem_of_at? here
  have there := Rose.at?_prune index here
  have topStays := Rose.label_mem_of_at? there
  have inCut : ∀ handle ∈ child.labels, handle ∈ shape.labels :=
    fun handle inChild => labels.mem_iff.mpr (List.mem_append_right _ inChild)
  refine formed.replace ?_ (Rose.label_prune index here) ?_ prunedDistinct ?_ ?_ pruned.root
  · refine shaped.amend distinct here rfl ?_ ?_
    · intro above subshaped
      cases subshaped with
      | @node _ handle top below live parentLink childLinks terminal later below_shaped =>
        have topNode := pruned.parentNode
        rw [live, Option.map_some] at topNode
        refine .node topNode parentLink ?_ ?_ ?_ ?_
        · simp [childLinks, List.eraseIdx_map]
        · intro leaf
          have none_below : below = [] := terminal leaf
          simp [none_below]
        · intro sibling stays
          exact later sibling (List.mem_of_mem_eraseIdx stays)
        · intro sibling stays
          obtain ⟨place, atPlace⟩ := List.mem_iff_getElem?.mp stays
          have downTo : (shape.prune index position).at? (position ++ [place]) = some sibling := by
            simp [Rose.at?_append, there, atPlace]
          refine (below_shaped sibling (List.mem_of_mem_eraseIdx stays)).congr ?_
          intro lower inSibling
          have stillThere := Rose.labels_subset downTo inSibling
          refine pruned.others lower (fun inChild => disjoint lower stillThere lower inChild rfl) ?_
          -- Below the top there is no second node under the handle of the top.
          have topDistinct := Rose.distinct_of_at? prunedDistinct there
          rw [Rose.labels_mk, List.nodup_cons] at topDistinct
          rintro rfl
          exact topDistinct.1 (List.mem_flatMap.mpr ⟨sibling, stays, inSibling⟩)
    · intro handle inShape notBelow
      refine pruned.others handle (fun inChild => notBelow ?_) ?_
      · have downTo : subshape.at? [index] = some child := by simp [found]
        exact Rose.labels_subset downTo inChild
      · rintro rfl
        exact notBelow (Rose.label_mem_labels subshape)
  · intro handle elsewhere
    refine pruned.others handle (fun inChild => formed.apart elsewhere (inCut handle inChild)) ?_
    rintro rfl
    exact formed.apart elsewhere inTop
  · intro handle elsewhere inPruned
    exact formed.apart elsewhere (labels.mem_iff.mpr (List.mem_append_left _ inPruned))
  · intro handle node live notPruned
    have notCut : handle ∉ child.labels := by
      intro inChild
      rw [pruned.removed handle inChild] at live
      cases live
    have apart : handle ≠ subshape.label := by
      rintro rfl
      exact notPruned topStays
    refine ⟨node, (pruned.others handle notCut apart).symm.trans live, fun inShape => ?_⟩
    exact (List.mem_append.mp (labels.mem_iff.mp inShape)).elim notPruned notCut

end Replacement

end CodeCensus.Forest
