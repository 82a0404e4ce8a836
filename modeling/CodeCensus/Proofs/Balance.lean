import CodeCensus.Proofs.Mutation

/-!
# Balance

An outline is balanced when every branch counts what its children contribute. One exchange of
children keeps an outline balanced exactly when it keeps the unit at its position balanced, since
above the position a unit and what contributes to it grow by the same difference. A removal takes
away the counters of a unit, not its contribution, so it keeps the balance of its parent exactly when
the two agree: they do not for a class or a function.
-/

namespace CodeCensus

/-- What a unit contributes to the counters of the unit around it. -/
def Facts.contribution (facts : Facts) : Count :=
  match facts.kind with
  | .function => ⟨0, 1⟩
  | .classLike => facts.counts + ⟨1, 0⟩
  | .branch _ => facts.counts

/-- Whether taking away the counters of a unit leaves some of its contribution behind. -/
def Kind.leavesRemainder : Kind → Bool
  | .function => true
  | .classLike => true
  | .branch _ => false

/-- A branch contributes as much more as its counters are raised by. -/
theorem Facts.contribution_raise {facts : Facts} (branch : facts.kind.isLeaf = false)
    (delta : Count) : (facts.raise delta).contribution = facts.contribution + delta := by
  obtain ⟨kind, name, counts⟩ := facts
  cases kind with
  | function => cases branch
  | branch kind =>
    cases kind with
    | classLike => exact add_right_comm counts delta ⟨1, 0⟩
    | _ => rfl

/-- The counters of a unit are its contribution, unless it is a class, or a function without
counters. -/
theorem Facts.contribution_eq_counts {facts : Facts}
    (bare : facts.kind = .function → facts.counts = 0) :
    facts.contribution = facts.counts ↔ facts.kind.leavesRemainder = false := by
  obtain ⟨kind, name, counts⟩ := facts
  cases kind with
  | function =>
    refine ⟨fun same => ?_, fun impossible => by cases impossible⟩
    obtain rfl : counts = 0 := bare rfl
    have functions := congrArg Count.functions same
    simp [contribution] at functions
  | branch kind =>
    cases kind with
    | classLike =>
      refine ⟨fun same => ?_, fun impossible => by cases impossible⟩
      have classes := congrArg Count.classes same
      simp [contribution] at classes
    | _ => exact ⟨fun _ => rfl, fun _ => rfl⟩

namespace Outline

/-- Every branch counts what its children contribute, and functions hold nothing. -/
inductive Balanced : Outline → Prop
  | function (name : String) : Balanced ⟨⟨.function, name, 0⟩, []⟩
  | branch {kind : BranchKind} {name : String} {counts : Count} {children : List Outline}
      (sum : counts = (children.map fun child => child.label.contribution).sum)
      (each : ∀ child ∈ children, Balanced child) :
      Balanced ⟨⟨.branch kind, name, counts⟩, children⟩

variable {outline unit : Outline} {position : Position}

/-- A branch is balanced if it counts the contributions of its children and they are balanced. -/
theorem balanced_branch {kind : BranchKind} {name : String} {counts : Count}
    {children : List Outline} : Balanced ⟨⟨.branch kind, name, counts⟩, children⟩ ↔
      counts = (children.map fun child => child.label.contribution).sum ∧
        ∀ child ∈ children, Balanced child := by
  constructor
  · intro balanced
    cases balanced with
    | branch sum each => exact ⟨sum, each⟩
  · rintro ⟨sum, each⟩
    exact .branch sum each

/-- Every unit of a balanced outline is balanced. -/
theorem Balanced.at? (balanced : outline.Balanced) (here : outline.at? position = some unit) :
    unit.Balanced := by
  induction position generalizing outline with
  | nil =>
    obtain rfl : outline = unit := Option.some.inj here
    exact balanced
  | cons index rest inductionHypothesis =>
    obtain ⟨child, found, below⟩ := Option.bind_eq_some_iff.mp here
    cases balanced with
    | function => simp at found
    | branch sum each => exact inductionHypothesis (each child (List.mem_of_getElem? found)) below

/-- A function in balance counts nothing. -/
theorem Balanced.bare (balanced : outline.Balanced) (leaf : outline.label.kind = .function) :
    outline.label.counts = 0 := by
  cases balanced with
  | function => rfl
  | branch => cases leaf

/-- What balanced units count and contribute is a tally. -/
theorem Balanced.tally (balanced : outline.Balanced) :
    outline.label.counts.IsTally ∧ outline.label.contribution.IsTally := by
  induction balanced with
  | function => exact ⟨Count.isTally_zero, Count.isTally_function⟩
  | @branch kind name counts children sum each inductionHypothesis =>
    have counted : counts.IsTally := by
      rw [sum]
      refine Count.isTally_sum fun count member => ?_
      obtain ⟨child, childMember, rfl⟩ := List.mem_map.mp member
      exact (inductionHypothesis child childMember).2
    refine ⟨counted, ?_⟩
    cases kind with
    | classLike => exact counted.add Count.isTally_class
    | _ => exact counted

/-- Nothing in a balanced outline counts or contributes more than the top counts. -/
theorem Balanced.inRange {index : Nat} {child : Outline} (balanced : outline.Balanced)
    (found : outline.children[index]? = some child) (inRange : outline.label.counts.inRange) :
    child.label.contribution.inRange ∧ child.label.counts.inRange := by
  cases balanced with
  | function => simp at found
  | @branch kind name counts children sum each =>
    have member := List.mem_of_getElem? found
    have tallies : ∀ count ∈ children.map fun child => child.label.contribution,
        count.IsTally := by
      intro count countMember
      obtain ⟨other, otherMember, rfl⟩ := List.mem_map.mp countMember
      exact (each other otherMember).tally.2
    have contribution : child.label.contribution.inRange :=
      Count.inRange_of_mem (List.mem_map.mpr ⟨child, member, rfl⟩) tallies (sum ▸ inRange)
    refine ⟨contribution, ?_⟩
    have childTally := (each child member).tally.1
    obtain ⟨⟨childKind, childName, childCounts⟩, grandchildren⟩ := child
    cases childKind with
    | function =>
      have none_counted : childCounts = 0 := (each _ member).bare rfl
      exact congrArg Count.inRange none_counted
    | branch childKind =>
      cases childKind with
      | classLike => exact Count.inRange_of_add childTally Count.isTally_class contribution
      | _ => exact contribution

/-- A balanced unit with something inside is a branch. -/
theorem Balanced.branch_of_child {index : Nat} {child : Outline} (balanced : outline.Balanced)
    (found : outline.children[index]? = some child) : outline.label.kind.isLeaf = false := by
  cases balanced with
  | function => simp at found
  | branch => rfl

/-- A balanced outline with a change inside contributes the difference that travels upward. -/
theorem Balanced.contribution_amend {delta : Count} {change : Outline → Outline}
    (balanced : outline.Balanced) (here : outline.at? position = some unit)
    (grows : (change unit).label.contribution = unit.label.contribution + delta) :
    (outline.amend (Facts.raise delta) change position).label.contribution =
      outline.label.contribution + delta := by
  cases position with
  | nil =>
    obtain rfl : outline = unit := Option.some.inj here
    exact grows
  | cons index rest =>
    obtain ⟨child, found, -⟩ := Option.bind_eq_some_iff.mp here
    have branch := balanced.branch_of_child found
    cases outline
    exact Facts.contribution_raise branch delta

/-- A change inside an outline whose difference travels upward keeps the balance of the whole exactly
when it keeps that of the unit it is at. -/
theorem balanced_amend (delta : Count) (change : Outline → Outline)
    (here : outline.at? position = some unit)
    (grows : (change unit).label.contribution = unit.label.contribution + delta)
    (same : Balanced (change unit) ↔ unit.Balanced) :
    Balanced (outline.amend (Facts.raise delta) change position) ↔ outline.Balanced := by
  induction position generalizing outline with
  | nil =>
    obtain rfl : outline = unit := Option.some.inj here
    exact same
  | cons index rest inductionHypothesis =>
    obtain ⟨child, found, below⟩ := Option.bind_eq_some_iff.mp here
    obtain ⟨⟨kind, name, counts⟩, children⟩ := outline
    obtain ⟨before, after, rfl, rfl⟩ := Rose.children_split found
    have childSame := inductionHypothesis below
    rw [Rose.amend, Rose.modify_split]
    cases kind with
    | function =>
      -- A function with something inside is balanced neither before nor after.
      have neither : ∀ facts : Facts, facts.kind = .function → ∀ inside : Outline,
          ¬Balanced ⟨facts, before ++ inside :: after⟩ := by
        intro facts leaf inside balanced
        have middle : (before ++ inside :: after)[before.length]? = some inside := by simp
        have branch := balanced.branch_of_child middle
        rw [leaf] at branch
        cases branch
      exact iff_of_false (neither _ rfl _) (neither _ rfl _)
    | branch kind =>
      change Balanced ⟨⟨.branch kind, name, counts + delta⟩, _⟩ ↔ _
      rw [balanced_branch, balanced_branch]
      simp only [List.mem_append, List.mem_cons, or_imp, forall_and, forall_eq, childSame]
      refine and_congr_left fun each => ?_
      have grown := each.2.1.contribution_amend below grows
      simp only [List.map_append, List.map_cons, List.sum_append, List.sum_cons, grown]
      -- Both sides of the equation grew by the same difference.
      have regrouped : (before.map fun child => child.label.contribution).sum +
          (child.label.contribution + delta +
            (after.map fun child => child.label.contribution).sum) =
          (before.map fun child => child.label.contribution).sum +
          (child.label.contribution + (after.map fun child => child.label.contribution).sum) +
            delta := by abel
      rw [regrouped, add_left_inj]

/-- The children of a balanced outline are balanced. -/
theorem Balanced.child {index : Nat} {child : Outline} (balanced : outline.Balanced)
    (found : outline.children[index]? = some child) : Balanced child := by
  have here : outline.at? [index] = some child := by simp [found]
  exact balanced.at? here

/-- In a balanced outline an exchange keeps the balance exactly when the children of one unit
contribute the difference more than before, and are balanced themselves. -/
theorem Balanced.exchange_iff {delta : Count} {change : List Outline → List Outline}
    (balanced : outline.Balanced) (here : outline.at? position = some unit)
    (branch : unit.label.kind.isLeaf = false) :
    Balanced (outline.exchange delta change position) ↔
      ((change unit.children).map fun child => child.label.contribution).sum =
        (unit.children.map fun child => child.label.contribution).sum + delta ∧
      ∀ child ∈ change unit.children, Balanced child := by
  have unitBalanced := balanced.at? here
  have there : (outline.exchange delta change position).at? position =
      some ⟨unit.label.raise delta, change unit.children⟩ := Rose.at?_amend _ _ here
  obtain ⟨⟨kind, name, counts⟩, children⟩ := unit
  obtain ⟨kind, rfl⟩ : ∃ branchKind, kind = .branch branchKind := by
    cases kind with
    | branch kind => exact ⟨kind, rfl⟩
    | function => cases branch
  have local_iff : Balanced ⟨⟨.branch kind, name, counts + delta⟩, change children⟩ ↔
      ((change children).map fun child => child.label.contribution).sum =
        (children.map fun child => child.label.contribution).sum + delta ∧
      ∀ child ∈ change children, Balanced child := by
    rw [balanced_branch, ← (balanced_branch.mp unitBalanced).1, eq_comm]
  rw [← local_iff]
  constructor
  · exact fun whole => whole.at? there
  · intro changed
    exact (balanced_amend delta (fun unit => ⟨unit.label.raise delta, change unit.children⟩) here
      (Facts.contribution_raise branch delta) (iff_of_true changed unitBalanced)).mpr balanced

/-! ### One mutation -/

/-- The entry asks for a balanced outline that contributes its counters. -/
def Sound (entry : Entry) : Prop :=
  (ofEntry entry).Balanced ∧ (ofEntry entry).label.contribution = entry.counts

/-- Adding a sound entry keeps an outline as balanced or unbalanced as it was. -/
theorem create_balanced {entry : Entry} (sound : Sound entry) (scope : String) :
    ((outline.create scope entry).toOption.getD outline).Balanced ↔ outline.Balanced := by
  rw [create]
  split
  · exact Iff.rfl
  · next position parent found =>
    have here := Rose.at?_of_locate? found
    split
    · exact Iff.rfl
    · next branch =>
      rw [Bool.not_eq_true] at branch
      refine balanced_amend entry.counts
        (fun unit => ⟨unit.label.raise entry.counts, unit.children ++ [ofEntry entry]⟩) here
        (Facts.contribution_raise branch entry.counts) ?_
      obtain ⟨⟨kind, name, counts⟩, children⟩ := parent
      cases kind with
      | function => cases branch
      | branch kind =>
        change Balanced ⟨⟨.branch kind, name, counts + entry.counts⟩, _⟩ ↔ _
        rw [balanced_branch, balanced_branch]
        simp only [List.map_append, List.map_cons, List.map_nil, List.sum_append, List.sum_cons,
          List.sum_nil, add_zero, sound.2, add_left_inj, List.mem_append, List.mem_singleton,
          or_imp, forall_and, forall_eq, sound.1, and_true]

/-- What is found in a scope stands where it is found. -/
theorem at?_of_findWithin? {scope name : String}
    (found : outline.findWithin? scope name = some (position, unit)) :
    outline.at? position = some unit := by
  obtain ⟨⟨upper, within⟩, above, rest⟩ := Option.bind_eq_some_iff.mp found
  obtain ⟨⟨lower, target⟩, below, same⟩ := Option.map_eq_some_iff.mp rest
  obtain ⟨rfl, rfl⟩ := Prod.mk.inj same
  rw [Rose.at?_append, Rose.at?_of_locate? above, Option.bind_some, Rose.at?_of_locate? below]

/-- A new name leaves the balance as it was. -/
theorem rename_balanced (scope previous name : String) :
    (outline.rename scope previous name).Balanced ↔ outline.Balanced := by
  rw [rename]
  split
  · exact Iff.rfl
  · next position unit found =>
    rw [← Facts.raise_zero]
    refine balanced_amend 0 _ (at?_of_findWithin? found) (add_zero _).symm ?_
    obtain ⟨⟨kind, _, counts⟩, children⟩ := unit
    cases kind with
    | branch kind => rw [balanced_branch, balanced_branch]
    | function =>
      constructor
      · intro balanced
        cases balanced
        exact .function _
      · intro balanced
        cases balanced
        exact .function _

/-- The parent of a unit that is not at the top. -/
theorem parent_of_at? {index : Nat} (here : outline.at? position = some unit)
    (last : position.getLast? = some index) :
    ∃ parent, outline.at? position.dropLast = some parent ∧
      parent.children[index]? = some unit := by
  obtain ⟨upper, rfl⟩ := List.getLast?_eq_some_iff.mp last
  rw [Rose.at?_append] at here
  obtain ⟨parent, above, below⟩ := Option.bind_eq_some_iff.mp here
  refine ⟨parent, by rwa [List.dropLast_concat], ?_⟩
  simpa [Option.bind_eq_some_iff] using below

/-- What the children contribute without one of them. -/
theorem sum_eraseIdx {index : Nat} {children : List Outline}
    (found : children[index]? = some unit) :
    ((children.eraseIdx index).map fun child => child.label.contribution).sum +
      unit.label.contribution = (children.map fun child => child.label.contribution).sum := by
  obtain ⟨before, after, rfl, rfl⟩ := Rose.children_split found
  rw [List.eraseIdx_append_of_length_le (Nat.le_refl _), Nat.sub_self, List.eraseIdx_cons_zero]
  simp only [List.map_append, List.map_cons, List.sum_append, List.sum_cons]
  abel

/-- Where balanced units take the place of one child, the balance is kept exactly when the child
leaves no remainder. -/
theorem Balanced.replace_iff {index : Nat} {parent : Outline} (balanced : outline.Balanced)
    (extra : List Outline) (change : List Outline → List Outline)
    (above : outline.at? position = some parent) (below : parent.children[index]? = some unit)
    (changed : change parent.children = parent.children.eraseIdx index ++ extra)
    (sound : ∀ child ∈ extra, Balanced child) :
    Balanced (outline.exchange
        ((extra.map fun child => child.label.contribution).sum - unit.label.counts) change position) ↔
      unit.label.kind.leavesRemainder = false := by
  have parentBalanced := balanced.at? above
  have each : ∀ child ∈ change parent.children, Balanced child := by
    intro child member
    rw [changed, List.mem_append] at member
    rcases member with old | new
    · cases parentBalanced with
      | function => simp at below
      | branch sum inside => exact inside child (List.mem_of_mem_eraseIdx old)
    · exact sound child new
  have removed := sum_eraseIdx below
  have agree := Facts.contribution_eq_counts (parentBalanced.child below).bare
  -- The rest of the children contribute the same before and after.
  have regrouped : ∀ rest more : Count, rest + more =
      rest + unit.label.contribution + (more - unit.label.counts) ↔
        unit.label.contribution = unit.label.counts := by
    intro rest more
    have moved : rest + unit.label.contribution + (more - unit.label.counts) =
        rest + more + (unit.label.contribution - unit.label.counts) := by abel
    rw [moved, left_eq_add, sub_eq_zero]
  rw [balanced.exchange_iff above (parentBalanced.branch_of_child below), and_iff_left each,
    ← agree, ← removed, changed, List.map_append, List.sum_append, regrouped]

/-- A removal keeps the balance exactly when the removed unit leaves no remainder. -/
theorem Balanced.delete_iff (balanced : outline.Balanced) (module : outline.label.kind = .module)
    (scope name : String) :
    ((outline.delete scope name).toOption.getD outline).Balanced ↔
      ∀ position unit, outline.findWithin? scope name = some (position, unit) →
        unit.label.kind.leavesRemainder = false := by
  rw [delete]
  split
  · next absent => exact iff_of_true balanced (by simp [absent])
  · next position unit found =>
    have here := at?_of_findWithin? found
    rw [found]
    simp only [Option.some.injEq, Prod.mk.injEq, and_imp, forall_eq', forall_apply_eq_imp_iff]
    split
    · next top =>
      obtain rfl : position = [] := List.getLast?_eq_none_iff.mp top
      obtain rfl : outline = unit := Option.some.inj here
      exact iff_of_true balanced (by rw [module]; rfl)
    · next index last =>
      obtain ⟨parent, above, below⟩ := parent_of_at? here last
      have replaced := balanced.replace_iff [] (·.eraseIdx index) above below
        (List.append_nil _).symm fun _ member => nomatch member
      rwa [List.map_nil, List.sum_nil, zero_sub] at replaced

/-- A replacement by a sound entry keeps the balance exactly when the replaced unit leaves no
remainder. -/
theorem Balanced.update_iff {entry : Entry} (balanced : outline.Balanced)
    (module : outline.label.kind = .module) (sound : Sound entry) (scope : String) :
    ((outline.update scope entry).toOption.getD outline).Balanced ↔
      ∀ position unit, outline.findWithin? scope entry.name = some (position, unit) →
        unit.label.kind.leavesRemainder = false := by
  rw [update]
  split
  · next absent => exact iff_of_true balanced (by simp [absent])
  · next position unit found =>
    have here := at?_of_findWithin? found
    rw [found]
    simp only [Option.some.injEq, Prod.mk.injEq, and_imp, forall_eq', forall_apply_eq_imp_iff]
    split
    · next top =>
      obtain rfl : position = [] := List.getLast?_eq_none_iff.mp top
      obtain rfl : outline = unit := Option.some.inj here
      exact iff_of_true balanced (by rw [module]; rfl)
    · next index last =>
      obtain ⟨parent, above, below⟩ := parent_of_at? here last
      have appended : (parent.children ++ [ofEntry entry]).eraseIdx index =
          parent.children.eraseIdx index ++ [ofEntry entry] :=
        List.eraseIdx_append_of_lt_length (List.getElem?_eq_some_iff.mp below).1 _
      have replaced := balanced.replace_iff [ofEntry entry]
        (fun siblings => (siblings ++ [ofEntry entry]).eraseIdx index) above below appended
        (List.forall_mem_singleton.mpr sound.1)
      rwa [List.map_singleton, List.sum_singleton, sound.2] at replaced

end Outline

end CodeCensus
