import CodeCensus.Tree.Audit
import CodeCensus.Proofs.Balance
import CodeCensus.Proofs.Refinement

/-!
# The audit sees balance

An audit of a tree is silent exactly when the outline of the tree is balanced. One direction reads
each node off the audit; the other needs the words as well: in a balanced outline nothing exceeds
what the top counts, so an audit of it cannot fault.
-/

namespace CodeCensus

/-- What a node contributes in words is what its facts contribute, if that fits. -/
theorem Node.contribution_of_inRange {node : Node} (fits : node.facts.contribution.inRange) :
    node.contribution = .ok node.facts.contribution := by
  obtain ⟨name, payload, parent, children⟩ := node
  cases payload with
  | leaf => rfl
  | branch kind counts =>
    cases kind with
    | classLike => exact Count.checked_of_inRange fits
    | _ => rfl

private theorem Node.contribution_eq_ok {node : Node} {count : Count}
    (contributes : node.contribution = .ok count) : count = node.facts.contribution := by
  obtain ⟨name, payload, parent, children⟩ := node
  cases payload with
  | leaf => exact (Except.ok.inj contributes).symm
  | branch kind counts =>
    cases kind with
    | classLike => exact (Count.checked_eq_ok.mp contributes).2
    | _ => exact (Except.ok.inj contributes).symm

namespace Tree

variable {tree : Tree} {shape subshape : Rose Handle} {outline unit : Outline}
  {position : Position}

/-- The audit is silent about a branch when it expects the counters that are stored. -/
theorem mismatch?_eq_none {handle : Handle} {node : Node} (here : tree.node? handle = some node)
    (branch : node.isLeaf = false) : tree.mismatch? handle = .ok none ↔
      tree.expectedCount node.children = .ok node.counts := by
  simp only [mismatch?, here, branch, Bool.false_eq_true, if_false]
  constructor
  · intro quiet
    obtain ⟨expected, told, same⟩ := Fault.bind_eq_ok.mp quiet
    have agree : expected = node.counts := by
      by_contra differ
      simp [differ, pure, Except.pure] at same
    rwa [← agree]
  · intro told
    exact Fault.bind_eq_ok.mpr ⟨node.counts, told, congrArg Except.ok (if_pos rfl)⟩

/-- The nodes at the tops of live shapes. -/
theorem nodes_of_live {shapes : List (Rose Handle)}
    (live : ∀ shape ∈ shapes, ∃ node, tree.forest.node? shape.label = some node) :
    ∃ nodes : List Node, (shapes.map Rose.label).filterMap tree.node? = nodes ∧
      nodes.map Node.facts = shapes.map fun shape => tree.forest.facts shape.label := by
  induction shapes with
  | nil => exact ⟨[], rfl, rfl⟩
  | cons shape shapes inductionHypothesis =>
    obtain ⟨node, found⟩ := live shape (by simp)
    obtain ⟨nodes, listed, facts⟩ :=
      inductionHypothesis fun other member => live other (by simp [member])
    have here : tree.node? shape.label = some node := found
    refine ⟨node :: nodes, ?_, ?_⟩
    · rw [List.map_cons, List.filterMap_cons, here, listed]
    · rw [List.map_cons, List.map_cons, facts, Forest.facts_of_node? found]

/-- What nodes tell of their contributions is what their facts contribute. -/
theorem contributions_eq_ok {nodes : List Node} {contributions : List Count}
    (told : nodes.mapM Node.contribution = .ok contributions) :
    contributions = (nodes.map Node.facts).map Facts.contribution := by
  rw [List.map_map]
  exact Fault.mapM_eq_map told fun _ _ _ => Node.contribution_eq_ok

/-- What the children of a node contribute, if the audit can tell. -/
theorem expectedCount_eq_ok {nodes : List Node} {handles : List Handle} {count : Count}
    (listed : handles.filterMap tree.node? = nodes)
    (expected : tree.expectedCount handles = .ok count) :
    count = ((nodes.map Node.facts).map Facts.contribution).sum := by
  rw [expectedCount, listed] at expected
  obtain ⟨contributions, each, totalled⟩ := Fault.bind_eq_ok.mp expected
  obtain ⟨rfl, -⟩ := Count.total_eq_ok totalled
  rw [contributions_eq_ok each]

/-- The audit can tell what children contribute if each of them and the whole fit. -/
theorem expectedCount_of_fits {nodes : List Node} {handles : List Handle}
    (listed : handles.filterMap tree.node? = nodes)
    (tallies : ∀ facts ∈ nodes.map Node.facts, facts.contribution.IsTally)
    (fits : ∀ facts ∈ nodes.map Node.facts, facts.contribution.inRange)
    (whole : ((nodes.map Node.facts).map Facts.contribution).sum.inRange) :
    tree.expectedCount handles = .ok ((nodes.map Node.facts).map Facts.contribution).sum := by
  rw [expectedCount, listed]
  refine Fault.bind_eq_ok.mpr ⟨(nodes.map Node.facts).map Facts.contribution, ?_, ?_⟩
  · refine Fault.mapM_eq_ok.mpr ?_
    rw [List.forall₂_map_right_iff, List.forall₂_map_right_iff, List.forall₂_same]
    exact fun node member =>
      Node.contribution_of_inRange (fits node.facts (List.mem_map_of_mem member))
  · refine Count.total_of_tallies (fun count member => ?_) whole
    obtain ⟨facts, factsMember, rfl⟩ := List.mem_map.mp member
    exact tallies facts factsMember

/-- Silence about every node of a shape means balance. -/
theorem balanced_of_silence {parent : Option Handle} (shaped : tree.forest.Shaped parent shape)
    (silent : ∀ handle ∈ shape.labels, tree.mismatch? handle = .ok none) :
    Outline.Balanced (shape.map tree.forest.facts) := by
  induction shape using Rose.induct generalizing parent with
  | node handle below inductionHypothesis =>
    obtain ⟨node, live, -, childLinks, terminal⟩ := shaped.top
    have each : ∀ child ∈ below, Outline.Balanced (child.map tree.forest.facts) := by
      refine fun child member => inductionHypothesis child member (shaped.child member) ?_
      refine fun lower inChild => silent lower ?_
      rw [Rose.labels_mk]
      exact List.mem_cons_of_mem _ (List.mem_flatMap.mpr ⟨child, member, inChild⟩)
    rw [Rose.map_mk, Forest.facts_of_node? live]
    have quiet := silent handle (by simp)
    obtain ⟨name, payload, link, children⟩ := node
    cases payload with
    | leaf =>
      obtain rfl : below = [] := terminal rfl
      exact .function name
    | branch kind counts =>
      obtain rfl : children = below.map Rose.label := childLinks
      obtain ⟨nodes, listed, facts⟩ := nodes_of_live fun child member =>
        (shaped.child member).live (Rose.label_mem_labels child)
      refine .branch ?_ fun child member => ?_
      · have told := (mismatch?_eq_none live rfl).mp quiet
        have counted : counts = _ := expectedCount_eq_ok listed told
        change counts = _
        rw [counted, facts]
        simp [Function.comp_def]
      · obtain ⟨subshape, subMember, rfl⟩ := List.mem_map.mp member
        exact each subshape subMember

/-- A balanced outline in words is met with silence. -/
theorem silence_of_balanced {parent : Option Handle} (shaped : tree.forest.Shaped parent shape)
    (balanced : Outline.Balanced (shape.map tree.forest.facts))
    (words : (tree.forest.facts shape.label).counts.inRange) :
    ∀ handle ∈ shape.labels, tree.mismatch? handle = .ok none := by
  induction shape using Rose.induct generalizing parent with
  | node handle below inductionHypothesis =>
    obtain ⟨node, live, -, childLinks, -⟩ := shaped.top
    have facts_eq := Forest.facts_of_node? live
    have childWords : ∀ child ∈ below,
        (tree.forest.facts child.label).contribution.inRange ∧
          (tree.forest.facts child.label).counts.inRange := by
      intro child member
      obtain ⟨index, found⟩ := List.mem_iff_getElem?.mp member
      rw [Rose.map_mk] at balanced
      have there : (below.map (Rose.map tree.forest.facts))[index]? =
          some (child.map tree.forest.facts) := by simp [found]
      simpa using balanced.inRange there words
    intro other member
    rw [Rose.labels_mk, List.mem_cons] at member
    rcases member with rfl | lower
    · have here : tree.node? other = some node := live
      obtain ⟨nodes, listed, facts⟩ := nodes_of_live fun child member =>
        (shaped.child member).live (Rose.label_mem_labels child)
      cases leaf : node.isLeaf with
      | true => simp [mismatch?, here, leaf]
      | false =>
        refine (mismatch?_eq_none here leaf).mpr ?_
        rw [Rose.map_mk, facts_eq] at balanced
        obtain ⟨name, payload, link, children⟩ := node
        cases payload with
        | leaf => cases leaf
        | branch kind counts =>
          obtain ⟨sum, each⟩ := Outline.balanced_branch.mp balanced
          obtain rfl : children = below.map Rose.label := childLinks
          have contributions : ((nodes.map Node.facts).map Facts.contribution).sum = counts := by
            have stored : counts = _ := sum
            rw [stored, facts]
            simp [Function.comp_def]
          have told := expectedCount_of_fits listed ?_ ?_ ?_
          · rw [contributions] at told
            exact told
          · intro one member
            rw [facts] at member
            obtain ⟨child, childMember, rfl⟩ := List.mem_map.mp member
            have tally := (each _ (List.mem_map_of_mem childMember)).tally.2
            rwa [Rose.label_map] at tally
          · intro one member
            rw [facts] at member
            obtain ⟨child, childMember, rfl⟩ := List.mem_map.mp member
            exact (childWords child childMember).1
          · rw [facts_eq] at words
            rw [contributions]
            exact words
    · obtain ⟨child, childMember, inChild⟩ := List.mem_flatMap.mp lower
      refine inductionHypothesis child childMember (shaped.child childMember) ?_
        (childWords child childMember).2 other inChild
      rw [Rose.map_mk] at balanced
      obtain ⟨index, found⟩ := List.mem_iff_getElem?.mp childMember
      have there : Rose.at? ⟨tree.forest.facts handle, below.map (Rose.map tree.forest.facts)⟩ [index] =
          some (child.map tree.forest.facts) := by simp [found]
      exact balanced.at? there

/-- The audit of a tree is silent exactly when its outline is balanced. -/
theorem Shows.recount_iff (shows : tree.Shows shape outline)
    (words : outline.label.counts.inRange) :
    tree.recount = .ok [] ↔ outline.Balanced := by
  have walked : tree.forest.postorder tree.root = shape.labelsUp := by
    rw [← shows.top, shows.shaped.postorder shows.distinct]
  have silence : tree.recount = .ok [] ↔
      ∀ handle ∈ shape.labels, tree.mismatch? handle = .ok none := by
    rw [recount, walked]
    constructor
    · intro quiet handle member
      obtain ⟨found, each, same⟩ := Fault.bind_eq_ok.mp quiet
      have nothing : found.filterMap id = [] := Except.ok.inj same
      obtain ⟨result, resultMember, told⟩ := Fault.mapM_mem each (Rose.mem_labelsUp.mpr member)
      cases result with
      | none => exact told
      | some mismatch =>
        have listed : mismatch ∈ found.filterMap id :=
          List.mem_filterMap.mpr ⟨some mismatch, resultMember, rfl⟩
        rw [nothing] at listed
        cases listed
    · intro quiet
      refine Fault.bind_eq_ok.mpr ⟨shape.labelsUp.map fun _ => none, ?_, ?_⟩
      · refine Fault.mapM_eq_ok.mpr ?_
        rw [List.forall₂_map_right_iff, List.forall₂_same]
        exact fun handle member => quiet handle (Rose.mem_labelsUp.mp member)
      · simp [pure, Except.pure]
  rw [silence]
  constructor
  · intro quiet
    rw [← shows.facts]
    exact balanced_of_silence shows.shaped quiet
  · intro balanced
    refine silence_of_balanced shows.shaped (shows.facts ▸ balanced) ?_
    rwa [← Rose.label_map tree.forest.facts, shows.facts]

end Tree

end CodeCensus
