import CodeCensus.Proofs.AuditListing
import Mathlib.Algebra.Order.BigOperators.Group.List
import Mathlib.Algebra.Order.Group.Unbundled.Basic

/-!
# Counters never fall short

What is read from files counts what it holds, and a mutation that takes away a class or a function
leaves its contribution behind in the unit around it. So no unit ever counts less than what its
children contribute. Then every counter lies between the population below it and the counter of the
root, and the counter of the root grows by no more than what a mutation brings.
-/

namespace CodeCensus

private theorem Kind.own_nonneg (kind : Kind) : 0 ≤ kind.own := by
  rw [Kind.own_eq]
  constructor <;> dsimp only <;> split <;> decide

private theorem Node.bare (node : Node) : node.kind = .function → node.counts = 0 := by
  obtain ⟨name, payload, parent, children⟩ := node
  cases payload with
  | leaf => exact fun _ => rfl
  | branch kind counts => exact fun leaf => nomatch leaf

/-- What counts nothing itself if it is a function contributes at least what it counts. -/
theorem Facts.counts_le_contribution {facts : Facts}
    (bare : facts.kind = .function → facts.counts = 0) : facts.counts ≤ facts.contribution := by
  rw [contribution_eq_add_own bare]
  exact le_add_of_nonneg_right facts.kind.own_nonneg

/-! ### What an entry brings -/

namespace Entry

/-- The classes and functions among some units, each counted once. -/
def tally (units : List Entry) : Count :=
  (units.map fun unit => unit.kind.own).sum

private theorem tally_append (first second : List Entry) :
    tally (first ++ second) = tally first + tally second := by
  rw [tally, List.map_append, List.sum_append, tally, tally]

/-- A tally counts the classes and the functions among the units. -/
theorem tally_eq (units : List Entry) : tally units =
    ⟨units.countP fun unit => unit.kind = .classLike,
      units.countP fun unit => unit.kind = .function⟩ := by
  induction units with
  | nil => rfl
  | cons unit units inductionHypothesis =>
    rw [tally, List.map_cons, List.sum_cons, ← tally, inductionHypothesis, Kind.own_eq,
      List.countP_cons, List.countP_cons]
    ext <;> simp <;> omega

private theorem tally_nonneg (units : List Entry) : 0 ≤ tally units := by
  rw [tally_eq]
  exact ⟨Int.natCast_nonneg _, Int.natCast_nonneg _⟩

/-- How many nodes become of what was read. -/
def nodes (brought : Option Entry) : Nat :=
  brought.elim 0 fun entry => entry.units.length

private theorem tally_le_length (units : List Entry) :
    tally units ≤ ⟨units.length, units.length⟩ := by
  rw [tally_eq]
  exact ⟨Int.ofNat_le.mpr List.countP_le_length, Int.ofNat_le.mpr List.countP_le_length⟩

private theorem tally_flatMap (entries : List Entry) :
    tally (entries.flatMap units) = (entries.map fun entry => tally entry.units).sum := by
  induction entries with
  | nil => rfl
  | cons entry entries inductionHypothesis =>
    rw [List.flatMap_cons, tally_append, inductionHypothesis, List.map_cons, List.sum_cons]

/-- A balanced outline counts what the nested entries contribute. -/
theorem counts_of_balanced {kind : BranchKind} {name : String} {counts : Count}
    {nested : List Entry} (balanced : (Outline.ofEntry ⟨.branch kind, name, counts, nested⟩).Balanced) :
    counts = (nested.map contribution).sum ∧ ∀ inner ∈ nested, (Outline.ofEntry inner).Balanced := by
  rw [Outline.ofEntry_branch, Outline.balanced_branch, List.map_map, List.forall_mem_map] at balanced
  obtain ⟨sum, each⟩ := balanced
  refine ⟨?_, each⟩
  rw [sum]
  congr 1
  exact List.map_congr_left fun inner _ => Outline.ofEntry_contribution inner

/-- An entry that asks for a balanced outline contributes what it brings. -/
theorem contribution_of_balanced {entry : Entry} (balanced : (Outline.ofEntry entry).Balanced) :
    entry.contribution = tally entry.units := by
  induction entry using Entry.induct with
  | entry kind name counts nested inductionHypothesis =>
    cases kind with
    | function => simp [contribution, Facts.contribution, tally, Kind.own]
    | branch kind =>
      obtain ⟨sum, each⟩ := counts_of_balanced balanced
      have counted : counts = tally (nested.flatMap units) := by
        rw [sum, tally_flatMap]
        congr 1
        apply List.map_congr_left
        exact fun inner member => inductionHypothesis inner member (each inner member)
      have topContribution : contribution ⟨.branch kind, name, counts, nested⟩ =
          counts + Kind.own (.branch kind) :=
        Facts.contribution_eq_add_own (by rintro ⟨⟩)
      rw [topContribution, units_branch, counted, add_comm]
      rfl

/-- An entry that asks for a balanced outline counts right everywhere. -/
theorem selfConsistent_of_balanced {entry : Entry} (balanced : (Outline.ofEntry entry).Balanced) :
    entry.SelfConsistent := by
  induction entry using Entry.induct with
  | entry kind name counts nested inductionHypothesis =>
    intro unit member branch
    cases kind with
    | function =>
      rw [units_function, List.mem_singleton] at member
      subst member
      cases branch
    | branch kind =>
      obtain ⟨sum, each⟩ := counts_of_balanced balanced
      rw [units_branch, List.mem_cons, List.mem_flatMap] at member
      rcases member with rfl | ⟨inner, innerMember, inInner⟩
      · exact sub_eq_zero.mpr sum
      · exact inductionHypothesis inner innerMember (each inner innerMember) unit inInner branch

end Entry

/-- The counters of the entry that a mutation asks to add. -/
def Mutation.gain (mutation : Mutation) : Count :=
  (mutation.entry?.map Entry.counts).getD 0

namespace Outline

/-- A mutation that succeeds adds to the counter of the top what travels upward from it. -/
theorem counts_mutated {outline later : Outline} {mutation : Mutation}
    (done : outline.mutate mutation = .ok later) : later.label.counts =
      outline.label.counts + ((outline.ripple mutation).map Prod.snd).getD 0 := by
  cases mutation with
  | create scope entry =>
    simp only [mutate, create] at done
    simp only [ripple]
    split at done
    · next absent =>
      obtain rfl := Except.ok.inj done
      simp [absent]
    · next position parent found =>
      split at done
      · cases done
      · obtain rfl := Except.ok.inj done
        simp [found]
  | update scope entry =>
    simp only [mutate, update] at done
    simp only [ripple]
    split at done
    · next absent =>
      obtain rfl := Except.ok.inj done
      simp [absent]
    · next position old found =>
      split at done
      · cases done
      · obtain rfl := Except.ok.inj done
        simp [found]
  | rename scope previous name =>
    obtain rfl : outline.rename scope previous name = later := Except.ok.inj done
    simp only [ripple, rename]
    split
    · simp
    · simp [(label_renamed _ _ _).2]
  | delete scope name =>
    simp only [mutate, delete] at done
    simp only [ripple]
    split at done
    · next absent =>
      obtain rfl := Except.ok.inj done
      simp [absent]
    · next position target found =>
      split at done
      · cases done
      · obtain rfl := Except.ok.inj done
        simp [found]

end Outline

namespace Tree

variable {tree : Tree} {shape : Rose Handle} {outline : Outline} {above : Option Handle}
  {handle : Handle} {node : Node} {mutation : Mutation} {outcome : Outcome}

private theorem facts_bare (tree : Tree) (handle : Handle) :
    (tree.forest.facts handle).kind = .function → (tree.forest.facts handle).counts = 0 := by
  rw [Forest.facts]
  cases tree.forest.node? handle with
  | none => exact fun _ => rfl
  | some node => exact node.bare

/-- No node counts less than what its children contribute. -/
def Surplus (tree : Tree) : Prop :=
  ∀ handle node, tree.node? handle = some node → 0 ≤ tree.excess handle

/-! ### Counters between population and root -/

/-- The counters of a node cover what its children contribute. -/
theorem Surplus.covers (surplus : tree.Surplus) (live : tree.node? handle = some node) :
    (node.children.map fun child => (tree.forest.facts child).contribution).sum ≤
      (tree.forest.facts handle).counts := by
  have excess := surplus handle node live
  rwa [excess_of_node live, sub_nonneg] at excess

/-- Everything in a shape counts a tally, and no more than the top. -/
theorem Surplus.within (surplus : tree.Surplus) (shaped : tree.forest.Shaped above shape) :
    ∀ handle ∈ shape.labels, 0 ≤ (tree.forest.facts handle).counts ∧
      (tree.forest.facts handle).counts ≤ (tree.forest.facts shape.label).counts := by
  induction shape using Rose.induct generalizing above with
  | node top below inductionHypothesis =>
    obtain ⟨node, live, -, childLinks, -⟩ := shaped.top
    have covers := surplus.covers live
    rw [childLinks, List.map_map] at covers
    have inBelow : ∀ child ∈ below, 0 ≤ (tree.forest.facts child.label).contribution := by
      intro child member
      have tally := inductionHypothesis child member (shaped.child member) child.label
        (Rose.label_mem_labels child)
      exact tally.1.trans (Facts.counts_le_contribution (tree.facts_bare child.label))
    have sumTally : ∀ count ∈ below.map fun child => (tree.forest.facts child.label).contribution,
        0 ≤ count := by
      simpa using inBelow
    intro handle member
    rw [Rose.labels_mk, List.mem_cons] at member
    rcases member with rfl | lower
    · exact ⟨(List.sum_nonneg sumTally).trans covers, le_refl _⟩
    · obtain ⟨child, childMember, inChild⟩ := List.mem_flatMap.mp lower
      obtain ⟨tally, less⟩ :=
        inductionHypothesis child childMember (shaped.child childMember) handle inChild
      refine ⟨tally, less.trans ?_⟩
      calc (tree.forest.facts child.label).counts
          ≤ (tree.forest.facts child.label).contribution :=
            Facts.counts_le_contribution (tree.facts_bare child.label)
        _ ≤ (below.map fun child => (tree.forest.facts child.label).contribution).sum :=
            List.single_le_sum sumTally _ (List.mem_map_of_mem childMember)
        _ ≤ (tree.forest.facts top).counts := covers

/-- What the root counts. -/
def total (tree : Tree) : Count :=
  (tree.forest.facts tree.root).counts

private theorem Shows.total (shows : tree.Shows shape outline) :
    outline.label.counts = tree.total := by
  rw [Tree.total, ← shows.top, ← shows.facts, Rose.label_map]

/-- Every node of a shape counts a tally, and no more than the root. -/
theorem Shows.within (shows : tree.Shows shape outline) (surplus : tree.Surplus)
    (member : handle ∈ shape.labels) : 0 ≤ (tree.forest.facts handle).counts ∧
      (tree.forest.facts handle).counts ≤ tree.total := by
  rw [Tree.total, ← shows.top]
  exact surplus.within shows.shaped handle member

/-- Every node counts its population at least, and the root at most. -/
theorem Shows.counts_between (shows : tree.Shows shape outline) (surplus : tree.Surplus)
    (live : tree.node? handle = some node) :
    tree.population handle ≤ node.counts ∧ node.counts ≤ tree.total := by
  have facts := Forest.facts_of_node? live
  constructor
  · obtain ⟨subshape, _, rfl, shaped, distinct, within⟩ := shows.subshape live
    have law := counts_eq_population_add_excess shaped distinct
    rw [facts] at law
    change node.counts = _ at law
    rw [law]
    apply le_add_of_nonneg_right
    apply List.sum_nonneg
    intro count member
    obtain ⟨lower, inside, rfl⟩ := List.mem_map.mp member
    obtain ⟨lowerNode, lowerLive⟩ := shows.live_iff.mpr (within lower inside)
    exact surplus lower lowerNode lowerLive
  · have less := (shows.within surplus (shows.live_iff.mp ⟨node, live⟩)).2
    rwa [facts] at less

/-! ### Room for counters -/

/-- Where the root counts in words, an audit never leaves them: nothing in it exceeds what the root
counts. -/
theorem Shows.recount_ends (shows : tree.Shows shape outline) (surplus : tree.Surplus)
    (words : tree.total.inRange) : ∃ found, tree.recount = .ok found := by
  apply shows.recount_ends_iff.mpr
  intro handle node live _
  have bounded := (shows.within surplus (shows.live_iff.mp ⟨node, live⟩)).2
  have whole := (surplus.covers live).trans bounded
  have tallies : ∀ count ∈ node.children.map fun child => (tree.forest.facts child).contribution,
      0 ≤ count := by
    intro count member
    obtain ⟨child, childMember, rfl⟩ := List.mem_map.mp member
    obtain ⟨lower, lowerLive, -⟩ :=
      shows.formed.wellLinked.children handle node live child childMember
    have tally := (shows.within surplus (shows.live_iff.mp ⟨lower, lowerLive⟩)).1
    exact tally.trans (Facts.counts_le_contribution (tree.facts_bare child))
  constructor
  · intro child member _
    have inSum : (tree.forest.facts child).contribution ∈
        node.children.map fun child => (tree.forest.facts child).contribution :=
      List.mem_map_of_mem member
    exact Count.inRange_of_le (tallies _ inSum)
      ((List.single_le_sum tallies _ inSum).trans whole) words
  · intro number
    have part := List.take_sublist number
      (node.children.map fun child => (tree.forest.facts child).contribution)
    rw [List.map_take]
    exact Count.inRange_of_le (List.sum_nonneg fun count member => tallies count (part.mem member))
      ((part.sum_le_sum tallies).trans whole) words

/-- What a mutation adds to counters is what it brings, less the counters of what gives way. -/
theorem Shows.ripple_eq {position : Position} {delta : Count} (shows : tree.Shows shape outline)
    (surplus : tree.Surplus) (rippled : outline.ripple mutation = some (position, delta)) :
    ∃ gone, 0 ≤ gone ∧ gone ≤ tree.total ∧ delta = mutation.gain - gone := by
  have target_between : ∀ {scope name : String} {position : Position} {unit : Outline},
      outline.findWithin? scope name = some (position, unit) →
      0 ≤ unit.label.counts ∧ unit.label.counts ≤ tree.total := by
    intro scope name position unit found
    rcases shows.findWithin_cases scope name with ⟨-, absent⟩ | ⟨_, target, here, -, there⟩
    · rw [absent] at found
      cases found
    · obtain ⟨-, rfl⟩ := Prod.mk.inj (Option.some.inj (there.symm.trans found))
      rw [Rose.label_map]
      exact shows.within surplus (Rose.mem_labels.mpr ⟨_, target, here, rfl⟩)
  cases mutation with
  | create scope entry =>
    obtain ⟨found, -, same⟩ := Option.map_eq_some_iff.mp rippled
    obtain ⟨-, rfl⟩ := Prod.mk.inj same
    exact ⟨0, le_refl _, (shows.within surplus (Rose.label_mem_labels shape)).1.trans
      (shows.within surplus (Rose.label_mem_labels shape)).2, (sub_zero _).symm⟩
  | update scope entry =>
    obtain ⟨⟨_, old⟩, found, same⟩ := Option.map_eq_some_iff.mp rippled
    obtain ⟨-, rfl⟩ := Prod.mk.inj same
    exact ⟨_, (target_between found).1, (target_between found).2, rfl⟩
  | rename scope previous name => cases rippled
  | delete scope name =>
    obtain ⟨⟨_, target⟩, found, same⟩ := Option.map_eq_some_iff.mp rippled
    obtain ⟨-, rfl⟩ := Prod.mk.inj same
    exact ⟨_, (target_between found).1, (target_between found).2, (zero_sub _).symm⟩

/-- Where the counters of the root and of the entry fit a word together, the mutation ends. -/
theorem Shows.mutation_ends (shows : tree.Shows shape outline) (surplus : tree.Surplus)
    (gain : 0 ≤ mutation.gain) (room : (tree.total + mutation.gain).inRange) :
    ∃ outcome, tree.mutate mutation = .ok outcome := by
  apply (shows.mutate mutation).2
  intro position delta rippled
  obtain ⟨gone, nonneg, less, rfl⟩ := shows.ripple_eq surplus rippled
  rw [Count.le_iff] at gain nonneg less
  rw [Count.inRange_iff] at room
  simp only [Count.zero_classes, Count.zero_functions, Count.add_classes, Count.add_functions]
    at gain nonneg room
  refine ⟨?_, ?_, fun facts onWay => ?_⟩
  · rw [Count.inRange_iff]
    simp only [Count.sub_classes, Count.sub_functions]
    omega
  · rw [Count.inRange_iff]
    simp only [Count.neg_classes, Count.neg_functions, Count.sub_classes, Count.sub_functions]
    omega
  · rw [← shows.facts, Rose.spine_map] at onWay
    obtain ⟨handle, inSpine, rfl⟩ := List.mem_map.mp onWay
    obtain ⟨tally, below⟩ := shows.within surplus (Rose.mem_labels_of_mem_spine inSpine)
    rw [Count.le_iff] at tally below
    rw [Count.inRange_iff]
    simp only [Count.zero_classes, Count.zero_functions] at tally
    simp only [Count.add_classes, Count.add_functions, Count.sub_classes, Count.sub_functions]
    omega

/-! ### What a mutation does to the bounds -/

/-- What is read from files disturbs a node only upward. -/
theorem disturbance_nonneg (sound : ∀ entry, mutation.entry? = some entry → Outline.Sound entry)
    (handle : Handle) : 0 ≤ tree.disturbance mutation handle := by
  have brought : ∀ {entry : Entry}, Outline.Sound entry → entry.counts - entry.contribution = 0 := by
    rintro entry ⟨-, contributes⟩
    rw [Outline.ofEntry_contribution] at contributes
    rw [contributes, sub_self]
  have gone : ∀ target, 0 ≤
      (tree.forest.facts target).contribution - (tree.forest.facts target).counts :=
    fun target => sub_nonneg.mpr (Facts.counts_le_contribution (tree.facts_bare target))
  cases mutation with
  | create scope entry =>
    rw [disturbance, brought (sound entry rfl), ite_self]
  | update scope entry =>
    rw [disturbance, brought (sound entry rfl)]
    split
    · next target _ =>
      split
      · rw [zero_sub, neg_sub]
        exact gone target
      · exact le_refl _
    · exact le_refl _
  | rename scope previous name => exact le_refl _
  | delete scope name =>
    rw [disturbance]
    split
    · next target _ =>
      split
      · exact gone target
      · exact le_refl _
    · exact le_refl _

/-- No mutation that brings what is read from files makes a node count too little. -/
theorem Shows.surplus_mutated (shows : tree.Shows shape outline) (surplus : tree.Surplus)
    (sound : ∀ entry, mutation.entry? = some entry → Outline.Sound entry)
    (done : tree.mutate mutation = .ok outcome) : outcome.tree.Surplus := by
  cases result : outcome.result with
  | error cause =>
    rw [((shows.course done).refusal_of_error result).2]
    exact surplus
  | ok _ =>
    intro handle node live
    cases was : tree.node? handle with
    | some old =>
      rw [shows.excess_mutated done result was live]
      exact add_nonneg (surplus handle old was) (disturbance_nonneg sound handle)
    | none =>
      have consistent : ∀ entry, mutation.entry? = some entry → entry.SelfConsistent :=
        fun entry brought => Entry.selfConsistent_of_balanced (sound entry brought).1
      exact (shows.excess_arrived done result (fun entry brought _ => consistent entry brought)
        was live).ge

/-- What is read from files counts what it brings. -/
theorem counts_of_sound {entry : Entry} (sound : Outline.Sound entry) :
    entry.counts = Entry.tally entry.units := by
  rw [← Entry.contribution_of_balanced sound.1, ← sound.2, Outline.ofEntry_contribution]

/-- What a mutation brings counts no more than the nodes that become of it. -/
theorem gain_between (sound : ∀ entry, mutation.entry? = some entry → Outline.Sound entry) :
    0 ≤ mutation.gain ∧
      mutation.gain ≤ ⟨Entry.nodes mutation.entry?, Entry.nodes mutation.entry?⟩ := by
  cases brought : mutation.entry? with
  | none =>
    rw [Mutation.gain, brought]
    exact ⟨le_refl _, le_refl _⟩
  | some entry =>
    rw [Mutation.gain, brought, Option.map_some, Option.getD_some,
      counts_of_sound (sound entry brought)]
    exact ⟨Entry.tally_nonneg _, Entry.tally_le_length _⟩

/-- A mutation that changes counters counts what it brings. -/
theorem Shows.gain_eq {position : Position} {delta : Count} (shows : tree.Shows shape outline)
    (sound : ∀ entry, mutation.entry? = some entry → Outline.Sound entry)
    (rippled : outline.ripple mutation = some (position, delta)) :
    mutation.gain = Entry.tally (tree.arrivals mutation) := by
  cases mutation with
  | create scope entry =>
    rcases shows.find_cases scope with ⟨-, absent⟩ | ⟨_, _, _, found, _⟩
    · simp [Outline.ripple, absent] at rippled
    · rw [arrivals, found, Option.isSome_some, if_pos rfl]
      exact counts_of_sound (sound entry rfl)
  | update scope entry =>
    rcases shows.findWithin_cases scope entry.name with ⟨-, absent⟩ | ⟨_, _, _, found, _⟩
    · simp [Outline.ripple, absent] at rippled
    · rw [arrivals, found, Option.isSome_some, if_pos rfl]
      exact counts_of_sound (sound entry rfl)
  | rename scope previous name => cases rippled
  | delete scope name => rfl

/-- A mutation adds no more to the counter of the root than it brings. -/
theorem Shows.total_mutated (shows : tree.Shows shape outline) (surplus : tree.Surplus)
    (sound : ∀ entry, mutation.entry? = some entry → Outline.Sound entry)
    (done : tree.mutate mutation = .ok outcome) :
    outcome.tree.total ≤ tree.total + Entry.tally (tree.arrivals mutation) := by
  obtain ⟨-, ⟨laterShape, laterShows⟩, -⟩ := (shows.mutate mutation).1 outcome done
  rw [← laterShows.total, ← shows.total]
  cases planned : outline.mutate mutation with
  | error cause => exact le_add_of_nonneg_right (Entry.tally_nonneg _)
  | ok later =>
    change later.label.counts ≤ _
    rw [Outline.counts_mutated planned]
    apply add_le_add_right
    cases rippled : outline.ripple mutation with
    | none => exact Entry.tally_nonneg _
    | some change =>
      obtain ⟨position, delta⟩ := change
      obtain ⟨gone, nonneg, -, same⟩ := shows.ripple_eq surplus rippled
      change delta ≤ _
      rw [same, ← shows.gain_eq sound rippled]
      exact sub_le_self _ nonneg

end Tree

end CodeCensus
