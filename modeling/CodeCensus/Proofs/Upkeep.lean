import CodeCensus.Proofs.Lookup

/-!
# Upkeep of an outline

When a terrain changes under a few names in one place, an outline of it is brought up to date by
exchanging the units of these names in the package of the place, and by adding one difference to the
package and everything above it. Everything else in the outline still depicts what is elsewhere.
-/

namespace CodeCensus

namespace Terrain

variable {terrain after : Terrain} {names changed : List String} {name top : String}
  {kind : BranchKind} {outline unit : Outline} {position : Position} {delta : Count}
  {children kept removed added : List Outline}

/-- Two terrains agree but for what is under some names in one place. -/
def AgreeApart (terrain after : Terrain) (names changed : List String) : Prop :=
  ∀ place, (∀ name ∈ changed, ¬names ++ [name] <+: place) → after place = terrain place

/-- Nothing outside of a place is under a name in it. -/
theorem AgreeApart.outside (agree : terrain.AgreeApart after names changed) {place : List String}
    (outside : place = names ∨ ¬names <+: place) : after place = terrain place := by
  refine agree place fun name _ within => ?_
  rcases outside with rfl | apart
  · exact absurd within.length_le (by simp)
  · exact apart ((List.prefix_append _ _).trans within)

private theorem AgreeApart.beside (agree : terrain.AgreeApart after names changed)
    (unchanged : name ∉ changed) (lower : List String) :
    after (names ++ [name] ++ lower) = terrain (names ++ [name] ++ lower) := by
  refine agree _ fun other member within => unchanged ?_
  rw [List.append_assoc, List.prefix_append_right_inj, List.singleton_append,
    List.cons_prefix_cons] at within
  exact within.1 ▸ member

/-- A branch stays a branch when it counts in a terrain. -/
theorem Depicts.isBranch (regular : terrain.Regular)
    (depicts : terrain.Depicts kind names outline) : outline.label.kind.isLeaf = false := by
  cases depicts with
  | package => rfl
  | @source _ _ entry here =>
    obtain ⟨-, kind, -⟩ := regular.source _ _ here
    obtain ⟨_, name, counts, nested⟩ := entry
    obtain rfl := kind
    rw [Outline.ofEntry_branch]
    rfl

/-- The units under the changed names in a place, as they are removed and as they are added. -/
structure Swap (terrain after : Terrain) (names changed : List String)
    (removed added : List Outline) : Prop where
  agree : terrain.AgreeApart after names changed
  gone : ∀ name ∈ changed, terrain (names ++ [name]) ≠ none →
    ∃ child ∈ removed, child.label.name = name
  dropped : ∀ child ∈ removed, child.label.name ∈ changed
  new : ∀ name ∈ changed, after (names ++ [name]) ≠ none →
    ∃ child ∈ added, child.label.name = name
  distinct : (added.map fun child => child.label.name).Nodup
  each : ∀ child ∈ added, child.label.name ∈ changed ∧
    after.Depicts .package (names ++ [child.label.name]) child

/-- At most one unit of a name is swapped for at most one unit of the name. -/
theorem AgreeApart.swap (agree : terrain.AgreeApart after names [name])
    (old new : Option Outline)
    (gone : terrain (names ++ [name]) ≠ none → old.isSome)
    (dropped : ∀ child, old = some child → child.label.name = name)
    (arrived : after (names ++ [name]) ≠ none → new.isSome)
    (each : ∀ child, new = some child →
      child.label.name = name ∧ after.Depicts .package (names ++ [name]) child) :
    terrain.Swap after names [name] old.toList new.toList where
  agree := agree
  gone _ member present := by
    obtain rfl := List.mem_singleton.mp member
    obtain ⟨child, rfl⟩ := Option.isSome_iff_exists.mp (gone present)
    exact ⟨child, List.mem_singleton_self child, dropped child rfl⟩
  dropped child member := List.mem_singleton.mpr (dropped child (Option.mem_toList.mp member))
  new _ member present := by
    obtain rfl := List.mem_singleton.mp member
    obtain ⟨child, rfl⟩ := Option.isSome_iff_exists.mp (arrived present)
    exact ⟨child, List.mem_singleton_self child, (each child rfl).1⟩
  distinct := by cases new <;> simp
  each child member := by
    obtain ⟨rfl, depicts⟩ := each child (Option.mem_toList.mp member)
    exact ⟨List.mem_singleton_self _, depicts⟩

/-- What is directly in a place stays right when the units of the changed names are swapped. -/
theorem Inside.swapped {others : List Outline} (inside : terrain.Inside names children)
    (swap : terrain.Swap after names changed removed added)
    (before : children.Perm (removed ++ kept)) (later : others.Perm (added ++ kept)) :
    after.Inside names others := by
  obtain ⟨agree, gone, dropped, new, distinct, each⟩ := swap
  have allDistinct : ((removed ++ kept).map fun child => child.label.name).Nodup :=
    (before.map _).nodup_iff.mp inside.distinct
  rw [List.map_append, List.nodup_append] at allDistinct
  obtain ⟨-, keptDistinct, apart⟩ := allDistinct
  have keptMember : ∀ child ∈ kept, child ∈ children :=
    fun child member => before.symm.subset (List.mem_append_right _ member)
  have unchanged : ∀ child ∈ kept, child.label.name ∉ changed := by
    intro child member isChanged
    have present := (inside.each child (keptMember child member)).present
    obtain ⟨other, otherMember, same⟩ := gone _ isChanged present
    exact apart _ (List.mem_map_of_mem otherMember) _ (List.mem_map_of_mem member) same
  refine ⟨(later.map _).nodup_iff.mpr ?_, fun name => ?_, fun child member => ?_⟩
  · rw [List.map_append, List.nodup_append]
    refine ⟨distinct, keptDistinct, ?_⟩
    rintro _ addedName _ keptName rfl
    obtain ⟨child, member, same⟩ := List.mem_map.mp addedName
    obtain ⟨other, otherMember, rfl⟩ := List.mem_map.mp keptName
    exact unchanged other otherMember (same ▸ (each child member).1)
  · by_cases isChanged : name ∈ changed
    · refine ⟨fun present => ?_, ?_⟩
      · obtain ⟨child, member, named⟩ := new name isChanged present
        exact ⟨child, later.symm.subset (List.mem_append_left _ member), named⟩
      · rintro ⟨child, member, rfl⟩
        rcases List.mem_append.mp (later.subset member) with isAdded | isKept
        · exact (each child isAdded).2.present
        · exact absurd isChanged (unchanged child isKept)
    · have same := agree.beside isChanged []
      rw [List.append_nil] at same
      rw [same, inside.complete]
      refine exists_congr fun child => and_congr_left ?_
      rintro rfl
      rw [before.mem_iff, later.mem_iff, List.mem_append, List.mem_append]
      refine or_congr_left (iff_of_false (fun member => ?_) fun member => ?_)
      · exact isChanged (dropped child member)
      · exact isChanged (each child member).1
  · rcases List.mem_append.mp (later.subset member) with isAdded | isKept
    · exact (each child isAdded).2
    · exact (inside.each child (keptMember child isKept)).congr
        (agree.beside (unchanged child isKept))

/-- An outline depicts a changed terrain once the package of the place of change does. -/
theorem Depicts.exchange {change : List Outline → List Outline} (regular : terrain.Regular)
    (depicts : terrain.Depicts kind names outline) (here : outline.at? position = some unit)
    (package : terrain (names ++ outline.trail position) = some .package)
    (agree : terrain.AgreeApart after (names ++ outline.trail position) changed)
    (inside : after.Inside (names ++ outline.trail position) (change unit.children))
    (sum : ((change unit.children).map fun child => child.label.contribution).sum =
      (unit.children.map fun child => child.label.contribution).sum + delta) :
    after.Depicts kind names (outline.exchange delta change position) := by
  induction position generalizing outline names kind with
  | nil =>
    obtain rfl : outline = unit := Option.some.inj here
    rw [Outline.trail, List.append_nil] at package agree inside
    obtain ⟨isKind, -, counts⟩ := (depicts_package package).mp depicts
    refine (depicts_package ((agree.outside (.inl rfl)).trans package)).mpr ⟨isKind, inside, ?_⟩
    exact (congrArg (· + delta) counts).trans sum.symm
  | cons index rest inductionHypothesis =>
    obtain ⟨child, found, below⟩ := Option.bind_eq_some_iff.mp here
    rw [Outline.trail_cons rest found] at package agree inside
    have above : terrain names = some .package :=
      regular.package (package ▸ Option.some_ne_none _)
    obtain ⟨isKind, ⟨distinct, complete, each⟩, counts⟩ := (depicts_package above).mp depicts
    obtain ⟨⟨topKind, topName, topCounts⟩, children⟩ := outline
    obtain ⟨earlier, later, rfl, rfl⟩ := Rose.children_split found
    have childDepicts := each child (by simp)
    have childAfter : after.Depicts .package (names ++ [child.label.name])
        (Outline.exchange delta change rest child) := by
      refine inductionHypothesis childDepicts below ?_ ?_ ?_
      · rwa [List.append_assoc]
      · rwa [List.append_assoc]
      · rwa [List.append_assoc]
    have exchanged : Outline.exchange delta change (earlier.length :: rest)
        ⟨⟨topKind, topName, topCounts⟩, earlier ++ child :: later⟩ =
          ⟨⟨topKind, topName, topCounts + delta⟩,
            earlier ++ Outline.exchange delta change rest child :: later⟩ := by
      rw [Outline.exchange, Rose.amend, Rose.modify_split]
      rfl
    have stays : after names = terrain names := by
      refine agree.outside (.inr fun within => ?_)
      exact absurd within.length_le (by simp)
    rw [exchanged]
    refine (depicts_package (stays.trans above)).mpr ⟨isKind, ⟨?_, ?_, ?_⟩, ?_⟩
    · simpa using distinct
    · intro name
      have direct : after (names ++ [name]) = terrain (names ++ [name]) := by
        refine agree.outside ?_
        by_cases within : names ++ child.label.name :: Outline.trail child rest <+: names ++ [name]
        · left
          rw [List.prefix_append_right_inj, List.cons_prefix_cons] at within
          obtain ⟨rfl, nothing⟩ := within
          rw [List.prefix_nil.mp nothing]
        · exact .inr within
      have asNames : ∀ units : List Outline, (∃ child ∈ units, child.label.name = name) ↔
          name ∈ units.map fun child => child.label.name := fun _ => List.mem_map.symm
      rw [direct, complete, asNames, asNames]
      simp
    · intro other member
      have beside : ∀ sibling ∈ earlier ++ later, after.Depicts .package
          (names ++ [sibling.label.name]) sibling := by
        intro sibling siblingMember
        have isChild : sibling ∈ earlier ++ child :: later := by
          simp only [List.mem_append, List.mem_cons] at siblingMember ⊢
          tauto
        have apart : sibling.label.name ≠ child.label.name := by
          intro same
          have middle := List.nodup_middle.mp (by simpa using distinct)
          refine (List.nodup_cons.mp middle).1 ?_
          rw [← same, ← List.map_append]
          exact List.mem_map_of_mem siblingMember
        refine (each sibling isChild).congr fun lower => agree.outside (.inr fun within => ?_)
        rw [List.append_assoc, List.prefix_append_right_inj, List.singleton_append,
          List.cons_prefix_cons] at within
        exact apart within.1.symm
      rcases List.mem_append.mp member with isEarlier | isLater
      · exact beside other (List.mem_append_left _ isEarlier)
      · rcases List.mem_cons.mp isLater with rfl | isLater
        · rwa [Outline.label_exchange]
        · exact beside other (List.mem_append_right _ isLater)
    · have raised := Facts.contribution_raise (childDepicts.isBranch regular) delta
      simp only [List.map_append, List.map_cons, List.sum_append, List.sum_cons,
        Outline.label_exchange, raised] at counts ⊢
      rw [counts]
      abel

/-- An outline follows a terrain when the units of the changed names are swapped in the package of
the place, and counted there and above. -/
theorem Depicts.swapped {change : List Outline → List Outline} {unitKind : BranchKind}
    (regular : terrain.Regular) (depicts : terrain.Depicts kind [] outline)
    (here : outline.at? position = some unit) (way : outline.trail position = names)
    (unitDepicts : terrain.Depicts unitKind names unit) (package : terrain names = some .package)
    (swap : terrain.Swap after names changed removed added)
    (before : unit.children.Perm (removed ++ kept))
    (later : (change unit.children).Perm (added ++ kept))
    (difference : (added.map fun child => child.label.contribution).sum =
      (removed.map fun child => child.label.contribution).sum + delta) :
    after.Depicts kind [] (outline.exchange delta change position) := by
  obtain rfl := way
  have inside := ((depicts_package package).mp unitDepicts).2.1
  refine depicts.exchange regular here package swap.agree (inside.swapped swap before later) ?_
  rw [((later.map _).sum_eq), ((before.map _).sum_eq), List.map_append, List.map_append,
    List.sum_append, List.sum_append, difference]
  abel

end Terrain

end CodeCensus
