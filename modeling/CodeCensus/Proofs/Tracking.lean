import CodeCensus.Proofs.Upkeep

/-!
# Tracking a terrain

An outline tracks a terrain when it depicts it from the top, under the name of the project and in
words. The mutations that events ask for bring the outline of a terrain to the terrain after the
event, and no counter leaves its word on the way. Where nothing counts, before and after, a mutation
finds nothing and the terrain is the same.
-/

namespace CodeCensus

namespace Count

/-- The difference of two tallies in range is in range. -/
theorem inRange_sub {a b : Count} (left : a.IsTally) (right : b.IsTally) (leftFits : a.inRange)
    (rightFits : b.inRange) : (a - b).inRange := by
  obtain ⟨classes, functions⟩ := left
  obtain ⟨otherClasses, otherFunctions⟩ := right
  rw [inRange_iff] at leftFits rightFits ⊢
  simp only [sub_classes, sub_functions]
  omega

private theorem inRange_neg {a : Count} (isTally : a.IsTally) (fits : a.inRange) :
    (-a).inRange := by
  have difference := inRange_sub isTally_zero isTally (by decide) fits
  rwa [zero_sub] at difference

end Count

namespace Outline

variable {outline unit : Outline} {position : Position} {delta : Count}
  {change : List Outline → List Outline}

/-- No unit of a balanced outline counts more than the top. -/
theorem Balanced.inRange_at? (balanced : outline.Balanced)
    (inRange : outline.label.counts.inRange) (here : outline.at? position = some unit) :
    unit.label.counts.inRange := by
  induction position generalizing outline with
  | nil =>
    obtain rfl : outline = unit := Option.some.inj here
    exact inRange
  | cons index rest inductionHypothesis =>
    obtain ⟨child, found, below⟩ := Option.bind_eq_some_iff.mp here
    exact inductionHypothesis (balanced.child found) (balanced.inRange found inRange).2 below

/-- On the way to an exchange no counter leaves its word when the result is balanced and in words. -/
theorem spine_inRange (here : outline.at? position = some unit)
    (balanced : (outline.exchange delta change position).Balanced)
    (inRange : (outline.exchange delta change position).label.counts.inRange) :
    ∀ facts ∈ outline.spine position, (facts.counts + delta).inRange := by
  induction position generalizing outline with
  | nil =>
    intro facts member
    obtain rfl := List.mem_singleton.mp member
    rwa [label_exchange] at inRange
  | cons index rest inductionHypothesis =>
    obtain ⟨child, found, below⟩ := Option.bind_eq_some_iff.mp here
    intro facts member
    rw [Rose.spine, found] at member
    rcases List.mem_cons.mp member with rfl | lower
    · rwa [label_exchange] at inRange
    · have changed : (outline.exchange delta change (index :: rest)).children[index]? =
          some (Outline.exchange delta change rest child) := by
        obtain ⟨label, children⟩ := outline
        simp only at found
        simp [exchange, Rose.amend, found]
      exact inductionHypothesis below (balanced.child changed) (balanced.inRange changed inRange).2
        facts lower

private theorem perm_eraseIdx {index : Nat} {children : List Outline} {target : Outline}
    (found : children[index]? = some target) : children.Perm (target :: children.eraseIdx index) := by
  obtain ⟨bound, rfl⟩ := List.getElem?_eq_some_iff.mp found
  exact (List.getElem_cons_eraseIdx_perm bound).symm

private theorem modify_perm {index : Nat} {children : List Outline} {target : Outline}
    (change : Outline → Outline) (found : children[index]? = some target) :
    (children.modify index change).Perm (change target :: children.eraseIdx index) := by
  obtain ⟨before, after, rfl, rfl⟩ := Rose.children_split found
  rw [Rose.modify_split, List.eraseIdx_append_of_length_le (Nat.le_refl _), Nat.sub_self,
    List.eraseIdx_cons_zero]
  exact List.perm_middle

/-- A new name is an exchange that adds nothing. -/
theorem amend_name (upper : Position) (index : Nat) (change : Outline → Outline)
    (outline : Outline) : outline.amend id change (upper ++ [index]) =
      outline.exchange 0 (·.modify index change) upper := by
  induction upper generalizing outline with
  | nil =>
    obtain ⟨label, children⟩ := outline
    simp [exchange, Rose.amend]
  | cons first upper inductionHypothesis =>
    obtain ⟨label, children⟩ := outline
    have same : Rose.amend id change (upper ++ [index]) =
        exchange 0 (·.modify index change) upper := funext inductionHypothesis
    rw [List.cons_append, Rose.amend, same, exchange, Rose.amend, Facts.raise_zero]

end Outline

namespace Terrain

variable {terrain after : Terrain} {names : List String} {name top : String} {outline : Outline}
  {entry : Entry}

/-- An outline shows a terrain from the top, in words. -/
structure Tracks (terrain : Terrain) (top : String) (outline : Outline) : Prop where
  depicts : terrain.Depicts .module [] outline
  named : outline.label.name = top
  words : outline.label.counts.inRange

/-- A mutation of an outline succeeds within words and leads to a terrain. -/
def LeadsTo (outline : Outline) (mutation : Mutation) (top : String) (after : Terrain) : Prop :=
  outline.Fits mutation ∧ ∃ later, outline.mutate mutation = .ok later ∧ after.Tracks top later

/-- The name of a place below the project belongs to nothing else. -/
def Known (terrain : Terrain) (top : String) (names : List String) : Prop :=
  ∀ upper last, names = upper ++ [last] → terrain.Sole top upper last

/-- Terrains that agree but for names under which nothing counts are the same. -/
theorem AgreeApart.eq_of_absent {changed : List String} (regular : terrain.Regular)
    (afterRegular : after.Regular) (agree : terrain.AgreeApart after names changed)
    (absent : ∀ name ∈ changed, terrain (names ++ [name]) = none ∧ after (names ++ [name]) = none) :
    after = terrain := by
  funext place
  by_cases under : ∃ name ∈ changed, names ++ [name] <+: place
  · obtain ⟨name, member, lower, rfl⟩ := under
    obtain ⟨before, later⟩ := absent name member
    rw [regular.nothing_below before, afterRegular.nothing_below later]
  · exact agree place fun name member within => under ⟨name, member, within⟩

/-- The terrain without a place and all below it. -/
def without (terrain : Terrain) (gone : List String) : Terrain :=
  fun place => if gone <+: place then none else terrain place

/-- A place without what is gone is empty or as it was. -/
theorem without_less (terrain : Terrain) (gone place : List String) :
    terrain.without gone place = none ∨ terrain.without gone place = terrain place := by
  unfold without
  split
  · exact .inl rfl
  · exact .inr rfl

/-- What is gone is not there. -/
theorem without_self (terrain : Terrain) (gone : List String) : terrain.without gone gone = none :=
  if_pos (List.prefix_refl gone)

/-- Without one name, nothing changes but below that name. -/
theorem agree_without (terrain : Terrain) (names : List String) (name : String) :
    terrain.AgreeApart (terrain.without (names ++ [name])) names [name] :=
  fun _ apart => if_neg (apart name (List.mem_singleton_self name))

/-- What is left of a regular terrain is regular, unless all of it is gone. -/
theorem Regular.without {gone : List String} (regular : terrain.Regular) (below : gone ≠ []) :
    (terrain.without gone).Regular where
  root := by
    rw [Terrain.without, if_neg fun within => below (List.prefix_nil.mp within)]
    exact regular.root
  above names name present := by
    unfold Terrain.without at present ⊢
    split at present
    · exact absurd rfl present
    · next apart =>
      rw [if_neg fun within => apart (within.trans (List.prefix_append _ _))]
      exact regular.above names name present
  source names entry found := by
    unfold Terrain.without at found
    split at found
    · cases found
    · exact regular.source names entry found

/-- Where nothing counts, before and after, a mutation that finds nothing leads to the terrain. -/
theorem Tracks.idle {changed : List String} {mutation : Mutation} (regular : terrain.Regular)
    (afterRegular : after.Regular) (tracks : terrain.Tracks top outline)
    (agree : terrain.AgreeApart after names changed)
    (absent : ∀ name ∈ changed, terrain (names ++ [name]) = none ∧ after (names ++ [name]) = none)
    (ripple : outline.ripple mutation = none) (planned : outline.mutate mutation = .ok outline) :
    LeadsTo outline mutation top after := by
  rw [agree.eq_of_absent regular afterRegular absent]
  refine ⟨fun position delta rippled => ?_, outline, planned, tracks⟩
  rw [ripple] at rippled
  cases rippled

/-- An entry for what is new in a package, or nothing for what is new elsewhere. -/
theorem Tracks.create (regular : terrain.Regular) (afterRegular : after.Regular)
    (tracks : terrain.Tracks top outline) (known : terrain.Known top names)
    (place : terrain names ≠ none → terrain names = some .package)
    (agree : terrain.AgreeApart after names [name])
    (words : ∀ later, after.Depicts .module [] later → later.label.counts.inRange)
    (free : terrain (names ++ [name]) = none) (sound : Outline.Sound entry)
    (named : entry.name = name) (new : terrain names = some .package →
      after.Depicts .package (names ++ [name]) (Outline.ofEntry entry)) :
    LeadsTo outline (.create (scope top names) entry) top after := by
  rcases tracks.depicts.scope_cases regular tracks.named known with
    ⟨absent, nothing⟩ | ⟨position, unit, unitKind, found, here, way, unitDepicts, -⟩
  · refine tracks.idle regular afterRegular agree ?_ ?_ ?_
    · refine List.forall_mem_singleton.mpr ⟨free, ?_⟩
      by_contra present
      have package := afterRegular.above names name present
      rw [agree.outside (.inl rfl), nothing] at package
      cases package
    · simp [Outline.ripple, absent]
    · simp [Outline.mutate, Outline.create, absent]
  · have package := place unitDepicts.present
    have entryName : (Outline.ofEntry entry).label.name = name := by
      rw [Outline.ofEntry_name, named]
    have swap : terrain.Swap after names [name] [] [Outline.ofEntry entry] := by
      refine agree.swap none (some _) (absurd free) (by simp) (fun _ => rfl) ?_
      rintro _ ⟨⟩
      exact ⟨entryName, new package⟩
    have laterDepicts : after.Depicts .module []
        (outline.exchange entry.counts (· ++ [Outline.ofEntry entry]) position) := by
      refine tracks.depicts.swapped regular here way unitDepicts package swap (.refl _)
        List.perm_append_comm ?_
      simp [sound.2]
    have laterWords := words _ laterDepicts
    have tally : entry.counts.IsTally := sound.2 ▸ sound.1.tally.2
    have fits : entry.counts.inRange := by
      rw [Outline.label_exchange, Facts.raise_counts, add_comm] at laterWords
      exact Count.inRange_of_add tally (tracks.depicts.balanced regular).tally.1 laterWords
    refine ⟨fun upper delta rippled => ?_, _, ?_, laterDepicts, ?_, laterWords⟩
    · obtain ⟨rfl, rfl⟩ : position = upper ∧ entry.counts = delta := by
        simpa [Outline.ripple, found] using rippled
      exact ⟨fits, Count.inRange_neg tally fits,
        Outline.spine_inRange here (laterDepicts.balanced afterRegular) laterWords⟩
    · simp [Outline.mutate, Outline.create, found, unitDepicts.isBranch regular]
    · rw [Outline.label_exchange, Facts.raise_name, tracks.named]

/-- Nothing instead of what is gone. -/
theorem Tracks.delete (regular : terrain.Regular) (afterRegular : after.Regular)
    (tracks : terrain.Tracks top outline) (known : terrain.Known top names)
    (sole : terrain.Sole top names name) (agree : terrain.AgreeApart after names [name])
    (gone : after (names ++ [name]) = none) :
    LeadsTo outline (.delete (scope top names) name) top after := by
  rcases tracks.depicts.findWithin_cases regular tracks.named known sole with
    ⟨absent, nothing⟩ | ⟨kind, upper, parent, index, target, found, above, way, below, targetName,
      package, parentDepicts, targetDepicts⟩
  · refine tracks.idle regular afterRegular agree
      (List.forall_mem_singleton.mpr ⟨nothing, gone⟩) ?_ ?_
    · simp [Outline.ripple, absent]
    · simp [Outline.mutate, Outline.delete, absent]
  · have swap : terrain.Swap after names [name] [target] [] :=
      agree.swap (some target) none (fun _ => rfl) (by simp [targetName])
        (absurd gone) (by simp)
    have laterDepicts : after.Depicts .module []
        (outline.exchange (-target.label.counts) (·.eraseIdx index) upper) := by
      refine tracks.depicts.swapped regular above way parentDepicts package swap
        (Outline.perm_eraseIdx below) (.refl _) ?_
      simp [targetDepicts.contribution_eq regular]
    have balanced := tracks.depicts.balanced regular
    have laterBalanced := laterDepicts.balanced afterRegular
    have targetTally := (targetDepicts.balanced regular).tally.1
    have targetFits := balanced.inRange_at? tracks.words
      (Outline.at?_of_findWithin? found)
    have laterWords : (outline.exchange (-target.label.counts) (·.eraseIdx index)
        upper).label.counts.inRange := by
      refine Count.inRange_of_add laterBalanced.tally.1 targetTally ?_
      rw [Outline.label_exchange, Facts.raise_counts, neg_add_cancel_right]
      exact tracks.words
    refine ⟨fun position delta rippled => ?_, _, ?_, laterDepicts, ?_, laterWords⟩
    · obtain ⟨rfl, rfl⟩ : upper = position ∧ -target.label.counts = delta := by
        simpa [Outline.ripple, found] using rippled
      exact ⟨Count.inRange_neg targetTally targetFits, by rwa [neg_neg],
        Outline.spine_inRange above laterBalanced laterWords⟩
    · simp [Outline.mutate, Outline.delete, found]
    · rw [Outline.label_exchange, Facts.raise_name, tracks.named]

/-- An entry instead of what was there before. -/
theorem Tracks.update (regular : terrain.Regular) (afterRegular : after.Regular)
    (tracks : terrain.Tracks top outline) (known : terrain.Known top names)
    (sole : terrain.Sole top names name) (agree : terrain.AgreeApart after names [name])
    (words : ∀ later, after.Depicts .module [] later → later.label.counts.inRange)
    (sound : Outline.Sound entry) (named : entry.name = name)
    (stays : terrain (names ++ [name]) = none → after (names ++ [name]) = none)
    (new : terrain (names ++ [name]) ≠ none →
      after.Depicts .package (names ++ [name]) (Outline.ofEntry entry)) :
    LeadsTo outline (.update (scope top names) entry) top after := by
  rcases tracks.depicts.findWithin_cases regular tracks.named known sole with
    ⟨absent, nothing⟩ | ⟨kind, upper, parent, index, target, found, above, way, below, targetName,
      package, parentDepicts, targetDepicts⟩
  · refine tracks.idle regular afterRegular agree
      (List.forall_mem_singleton.mpr ⟨nothing, stays nothing⟩) ?_ ?_
    · simp [Outline.ripple, named, absent]
    · simp [Outline.mutate, Outline.update, named, absent]
  · have entryName : (Outline.ofEntry entry).label.name = name := by
      rw [Outline.ofEntry_name, named]
    have swap : terrain.Swap after names [name] [target] [Outline.ofEntry entry] := by
      refine agree.swap (some target) (some _) (fun _ => rfl)
        (by simp [targetName]) (fun _ => rfl) ?_
      rintro _ ⟨⟩
      exact ⟨entryName, new targetDepicts.present⟩
    have laterDepicts : after.Depicts .module []
        (outline.exchange (entry.counts - target.label.counts)
          (fun siblings => (siblings ++ [Outline.ofEntry entry]).eraseIdx index) upper) := by
      refine tracks.depicts.swapped regular above way parentDepicts package swap
        (Outline.perm_eraseIdx below) ?_ ?_
      · rw [List.eraseIdx_append_of_lt_length (List.getElem?_eq_some_iff.mp below).1]
        exact List.perm_append_comm
      · simp [targetDepicts.contribution_eq regular, sound.2]
    have laterWords := words _ laterDepicts
    have balanced := tracks.depicts.balanced regular
    have laterBalanced := laterDepicts.balanced afterRegular
    have targetTally := (targetDepicts.balanced regular).tally.1
    have targetFits := balanced.inRange_at? tracks.words (Outline.at?_of_findWithin? found)
    have tally : entry.counts.IsTally := sound.2 ▸ sound.1.tally.2
    have fits : entry.counts.inRange := by
      have laterHere : (outline.exchange (entry.counts - target.label.counts)
          (fun siblings => (siblings ++ [Outline.ofEntry entry]).eraseIdx index) upper).at? upper =
            some ⟨parent.label.raise (entry.counts - target.label.counts),
              (parent.children ++ [Outline.ofEntry entry]).eraseIdx index⟩ :=
        Rose.at?_amend _ _ above
      have member : Outline.ofEntry entry ∈
          (parent.children ++ [Outline.ofEntry entry]).eraseIdx index := by
        rw [List.eraseIdx_append_of_lt_length (List.getElem?_eq_some_iff.mp below).1]
        simp
      obtain ⟨last, newHere⟩ := List.mem_iff_getElem?.mp member
      have inside := (laterBalanced.at? laterHere).inRange newHere
        (laterBalanced.inRange_at? laterWords laterHere)
      exact sound.2 ▸ inside.1
    refine ⟨fun position delta rippled => ?_, _, ?_, laterDepicts, ?_, laterWords⟩
    · obtain ⟨rfl, rfl⟩ : upper = position ∧ entry.counts - target.label.counts = delta := by
        simpa [Outline.ripple, named, found] using rippled
      refine ⟨Count.inRange_sub tally targetTally fits targetFits, ?_,
        Outline.spine_inRange above laterBalanced laterWords⟩
      rw [neg_sub]
      exact Count.inRange_sub targetTally tally targetFits fits
    · simp [Outline.mutate, Outline.update, named, found]
    · rw [Outline.label_exchange, Facts.raise_name, tracks.named]

/-- A new name for what was there before. -/
theorem Tracks.rename {previous : String} (regular : terrain.Regular) (afterRegular : after.Regular)
    (tracks : terrain.Tracks top outline) (known : terrain.Known top names)
    (sole : terrain.Sole top names previous)
    (agree : terrain.AgreeApart after names [previous, name])
    (gone : after (names ++ [previous]) = none) (free : terrain (names ++ [name]) = none)
    (stays : terrain (names ++ [previous]) = none → after (names ++ [name]) = none)
    (moved : ∀ target, terrain.Depicts .package (names ++ [previous]) target →
      after.Depicts .package (names ++ [name]) ⟨{ target.label with name }, target.children⟩) :
    LeadsTo outline (.rename (scope top names) previous name) top after := by
  rcases tracks.depicts.findWithin_cases regular tracks.named known sole with
    ⟨absent, nothing⟩ | ⟨kind, upper, parent, index, target, found, above, way, below, targetName,
      package, parentDepicts, targetDepicts⟩
  · refine tracks.idle regular afterRegular agree ?_ ?_ ?_
    · simp [nothing, gone, free, stays nothing]
    · simp [Outline.ripple]
    · simp [Outline.mutate, Outline.rename, absent]
  · have swap : terrain.Swap after names [previous, name] [target]
        [⟨{ target.label with name }, target.children⟩] := by
      refine ⟨agree, ?_, by simp [targetName], ?_, by simp, ?_⟩
      · simp [targetName, free]
      · simp [gone]
      · simp [moved target targetDepicts]
    have laterDepicts : after.Depicts .module []
        (outline.exchange 0 (·.modify index fun unit => ⟨{ unit.label with name }, unit.children⟩)
          upper) := by
      refine tracks.depicts.swapped regular above way parentDepicts package swap
        (Outline.perm_eraseIdx below) (Outline.modify_perm _ below) ?_
      simp [Facts.contribution]
    refine ⟨fun position delta rippled => ?_, _, ?_, laterDepicts, ?_, ?_⟩
    · cases rippled
    · simp only [Outline.mutate, Outline.rename, found]
      rw [Outline.amend_name]
    · rw [Outline.label_exchange, Facts.raise_name, tracks.named]
    · rw [Outline.label_exchange, Facts.raise_counts, add_zero]
      exact tracks.words

end Terrain

end CodeCensus
