import CodeCensus.Proofs.Search
import CodeCensus.Proofs.Terrain

/-!
# Finding a unit by its name

Mutations name the unit they are about. When a name belongs to what counts at one place alone, the
first unit with the name is the one that counts there, and there is none if nothing does. This is
all that the upkeep of an outline needs to know about names.
-/

namespace CodeCensus

namespace Outline

variable {outline unit : Outline} {position : Position} {name : String}

/-- What is found under a name stands where it is found and has the name. -/
theorem find?_eq_some (found : outline.find? name = some (position, unit)) :
    outline.at? position = some unit ∧ unit.label.name = name :=
  ⟨Rose.at?_of_locate? found, by simpa using List.find?_some found⟩

/-- A unit with a name keeps the search for the name from failing. -/
theorem find?_ne_none (here : outline.at? position = some unit) (named : unit.label.name = name) :
    outline.find? name ≠ none := by
  refine Option.isSome_iff_ne_none.mp (List.find?_isSome.mpr ⟨(position, unit), ?_, ?_⟩)
  · exact Rose.mem_nodes.mpr here
  · simpa using named

/-- An exchange of the children of a unit does not hide the unit. -/
theorem find?_exchange (delta : Count) (change : List Outline → List Outline)
    (found : outline.find? name = some (position, unit)) :
    (outline.exchange delta change position).find? name =
      some (position, ⟨unit.label.raise delta, change unit.children⟩) := by
  refine Rose.locate?_amend (fun facts => rfl) found ?_
  rw [Facts.raise_name, (find?_eq_some found).2, beq_self_eq_true]

/-- The top is the first unit with its name. -/
theorem find?_top (outline : Outline) : outline.find? outline.label.name = some ([], outline) := by
  obtain ⟨label, children⟩ := outline
  simp [find?, Rose.locate?, Rose.nodes]

end Outline

namespace Terrain

variable {terrain smaller : Terrain} {names : List String} {name top : String}
  {kind : BranchKind} {outline : Outline}

/-- A name that nothing has but what counts under it at one place. -/
structure Sole (terrain : Terrain) (top : String) (names : List String) (name : String) : Prop where
  notTop : name ≠ top
  once : ∀ upper, terrain (upper ++ [name]) ≠ none → upper = names
  notInner : ∀ place entry, terrain place = some (.source entry) → name ∉ entry.innerNames

/-- A name stays alone when less counts. -/
theorem Sole.anti (sole : terrain.Sole top names name)
    (less : ∀ place, smaller place = none ∨ smaller place = terrain place) :
    smaller.Sole top names name where
  notTop := sole.notTop
  once upper present := by
    refine sole.once upper ?_
    rcases less (upper ++ [name]) with absent | same
    · exact absurd absent present
    · rwa [← same]
  notInner place entry source := by
    refine sole.notInner place entry ?_
    rcases less place with absent | same
    · rw [absent] at source
      cases source
    · rwa [← same]

/-- Below another place, a name alone finds what counts under it, or nothing. -/
theorem Depicts.find_cases {upper : List String} (regular : terrain.Regular)
    (depicts : terrain.Depicts kind upper outline) (sole : terrain.Sole top names name)
    (notSelf : outline.label.name ≠ name) (within : upper <+: names) :
    (outline.find? name = none ∧ terrain (names ++ [name]) = none) ∨
    ∃ position unit unitKind, outline.find? name = some (position, unit) ∧
      outline.at? position = some unit ∧ upper ++ outline.trail position = names ++ [name] ∧
      terrain.Depicts unitKind (names ++ [name]) unit := by
  cases found : outline.find? name with
  | none =>
    refine .inl ⟨rfl, ?_⟩
    by_contra present
    obtain ⟨lower, rfl⟩ := within
    rw [List.append_assoc] at present
    obtain ⟨position, unit, here, trail⟩ := depicts.reach regular present
    have below : position ≠ [] := by
      rintro rfl
      simp [Outline.trail] at trail
    have named := Outline.trail_getLast? here below
    rw [trail, List.getLast?_concat] at named
    exact Outline.find?_ne_none here (Option.some.inj named).symm found
  | some result =>
    obtain ⟨position, unit⟩ := result
    obtain ⟨here, named⟩ := Outline.find?_eq_some found
    rcases depicts.at? here with ⟨unitKind, counts⟩ | ⟨lower, entry, source, inner⟩
    · have below : position ≠ [] := by
        rintro rfl
        obtain rfl : outline = unit := Option.some.inj here
        exact notSelf named
      obtain ⟨way, trail⟩ := List.getLast?_eq_some_iff.mp (Outline.trail_getLast? here below)
      rw [named] at trail
      rw [trail, ← List.append_assoc] at counts
      obtain same : upper ++ way = names := sole.once _ counts.present
      rw [same] at counts
      refine .inr ⟨position, unit, unitKind, rfl, here, ?_, counts⟩
      rw [trail, ← List.append_assoc, same]
    · exact absurd (named ▸ inner) (sole.notInner _ entry source)

/-- The name that a package goes by: its last name, or that of the project. -/
def scope (top : String) (names : List String) : String :=
  names.getLast?.getD top

/-- The names of packages find them, or nothing. -/
theorem Depicts.scope_cases (regular : terrain.Regular) (depicts : terrain.Depicts kind [] outline)
    (named : outline.label.name = top)
    (alone : ∀ upper last, names = upper ++ [last] → terrain.Sole top upper last) :
    (outline.find? (scope top names) = none ∧ terrain names = none) ∨
    ∃ position unit unitKind, outline.find? (scope top names) = some (position, unit) ∧
      outline.at? position = some unit ∧ outline.trail position = names ∧
      terrain.Depicts unitKind names unit ∧ unit.label.name = scope top names := by
  cases names using List.reverseRecOn with
  | nil =>
    refine .inr ⟨[], outline, kind, ?_, rfl, rfl, depicts, named⟩
    rw [scope, List.getLast?_nil, Option.getD_none, ← named, Outline.find?_top]
  | append_singleton upper last =>
    have sole := alone upper last rfl
    have scopeName : scope top (upper ++ [last]) = last := by simp [scope]
    rw [scopeName]
    have notSelf : outline.label.name ≠ last := named ▸ sole.notTop.symm
    rcases depicts.find_cases regular sole notSelf (List.nil_prefix) with
      absent | ⟨position, unit, unitKind, found, here, trail, counts⟩
    · exact .inl absent
    · exact .inr ⟨position, unit, unitKind, found, here, trail, counts,
        (Outline.find?_eq_some found).2⟩

/-- A unit that its name finds in the package of a place, directly in the unit of the package. -/
structure Located (terrain : Terrain) (outline : Outline) (top : String) (names : List String)
    (name : String) (kind : BranchKind) (upper : Position) (parent : Outline) (index : Nat)
    (target : Outline) : Prop where
  found : outline.findWithin? (scope top names) name = some (upper ++ [index], target)
  above : outline.at? upper = some parent
  way : outline.trail upper = names
  below : parent.children[index]? = some target
  named : target.label.name = name
  package : terrain names = some .package
  parentDepicts : terrain.Depicts kind names parent
  depicts : terrain.Depicts .package (names ++ [name]) target

/-- The name of a place, looked for in its package, finds what counts there, or nothing. -/
theorem Depicts.findWithin_cases (regular : terrain.Regular)
    (depicts : terrain.Depicts kind [] outline) (named : outline.label.name = top)
    (alone : ∀ upper last, names = upper ++ [last] → terrain.Sole top upper last)
    (sole : terrain.Sole top names name) :
    (outline.findWithin? (scope top names) name = none ∧ terrain (names ++ [name]) = none) ∨
    ∃ kind upper parent index target,
      terrain.Located outline top names name kind upper parent index target := by
  rcases depicts.scope_cases regular named alone with
    ⟨absent, nothing⟩ | ⟨upper, parent, parentKind, found, here, trail, counts, scopeName⟩
  · refine .inl ⟨by simp [Outline.findWithin?, absent], ?_⟩
    by_contra present
    rw [regular.above names name present] at nothing
    cases nothing
  · have notSelf : parent.label.name ≠ name := by
      rw [scopeName]
      intro same
      cases names using List.reverseRecOn with
      | nil => exact sole.notTop same.symm
      | append_singleton way last =>
        obtain rfl : last = name := by simpa [scope] using same
        have again := sole.once way counts.present
        simp at again
    rcases counts.find_cases regular sole notSelf (List.prefix_refl _) with
      ⟨absent, nothing⟩ | ⟨lower, target, _, below, there, lowerTrail, targetCounts⟩
    · exact .inl ⟨by simp [Outline.findWithin?, found, absent], nothing⟩
    · have oneStep : lower.length = 1 := by
        rw [← Outline.trail_length there, List.append_cancel_left lowerTrail, List.length_singleton]
      obtain ⟨index, rfl⟩ := List.length_eq_one_iff.mp oneStep
      have child : parent.children[index]? = some target := by
        simpa [Option.bind_eq_some_iff] using there
      have targetName := (Outline.find?_eq_some below).2
      have package := regular.above names name targetCounts.present
      have targetDepicts := ((depicts_package package).mp counts).2.1.each target
        (List.mem_of_getElem? child)
      refine .inr ⟨parentKind, upper, parent, index, target, ?_, here, trail, child, targetName,
        package, counts, targetName ▸ targetDepicts⟩
      simp [Outline.findWithin?, found, below]

end Terrain

end CodeCensus
