import CodeCensus.Proofs.Balance
import Mathlib.Data.List.Perm.Basic

/-!
# Depicting a terrain

A terrain says what counts at every place of a project: packages, and source files with what is
recognised in them. An outline depicts a terrain when it holds exactly what counts, each thing once
and in any order, under counters that sum up what is inside. Two outlines that depict one terrain
are alike: they differ in the order of siblings only.
-/

namespace CodeCensus

/-- What counts at a place. -/
inductive Ground
  /-- A directory that is not passed over. -/
  | package
  /-- A source file, with what is recognised in it. -/
  | source (entry : Entry)

/-- What counts at every place. A place is given by the names on the way down from the project. -/
abbrev Terrain := List String → Option Ground

/-- The names of the classes and functions in an entry. -/
def Entry.innerNames (entry : Entry) : List String :=
  ((Outline.ofEntry entry).children.flatMap Rose.labels).map Facts.name

namespace Outline

/-- Two outlines show the same units with siblings in any order. -/
inductive Alike : Outline → Outline → Prop
  | node {label : Facts} {children others : List Outline} (reordered : List Outline)
      (perm : reordered.Perm others) (each : List.Forall₂ Alike children reordered) :
      Alike ⟨label, children⟩ ⟨label, others⟩

private theorem Alike.refl (outline : Outline) : outline.Alike outline := by
  induction outline using Rose.induct with
  | node label children inductionHypothesis =>
    exact .node children (.refl _) (List.forall₂_same.mpr inductionHypothesis)

/-- The names on the way down to a position, without that of the top. -/
def trail (outline : Outline) : Position → List String
  | [] => []
  | index :: rest =>
    match outline.children[index]? with
    | some child => child.label.name :: trail child rest
    | none => []

/-- One step of a way passes the name of the child. -/
theorem trail_cons {outline child : Outline} {index : Nat} (rest : Position)
    (found : outline.children[index]? = some child) :
    outline.trail (index :: rest) = child.label.name :: trail child rest := by
  simp [trail, found]

/-- A trail has a name for each step of the way. -/
theorem trail_length {outline unit : Outline} {position : Position}
    (here : outline.at? position = some unit) : (outline.trail position).length = position.length := by
  induction position generalizing outline with
  | nil => rfl
  | cons index rest inductionHypothesis =>
    obtain ⟨child, found, below⟩ := Option.bind_eq_some_iff.mp here
    rw [trail_cons rest found, List.length_cons, List.length_cons, inductionHypothesis below]

/-- The way to a unit below the top ends with its name. -/
theorem trail_getLast? {outline unit : Outline} {position : Position}
    (here : outline.at? position = some unit) (below : position ≠ []) :
    (outline.trail position).getLast? = some unit.label.name := by
  induction position generalizing outline with
  | nil => exact absurd rfl below
  | cons index rest inductionHypothesis =>
    obtain ⟨child, found, further⟩ := Option.bind_eq_some_iff.mp here
    rw [trail_cons rest found]
    cases rest with
    | nil =>
      obtain rfl : child = unit := Option.some.inj further
      rfl
    | cons next rest =>
      have last := inductionHypothesis further (List.cons_ne_nil _ _)
      rw [List.getLast?_cons, last]
      rfl

end Outline

namespace Terrain

variable {terrain other : Terrain} {names lower : List String} {name : String}
  {kind : BranchKind} {outline unit : Outline} {position : Position} {entry : Entry}

/-- What counts lies in a package of the project, and source files are named and counted for what
they hold. -/
structure Regular (terrain : Terrain) : Prop where
  root : terrain [] = some .package
  above : ∀ names name, terrain (names ++ [name]) ≠ none → terrain names = some .package
  source : ∀ names entry, terrain names = some (.source entry) →
    names.getLast? = some entry.name ∧ entry.kind = .sourceFile ∧ Outline.Sound entry

/-- Whatever lies below a place lies in packages. -/
theorem Regular.package (regular : terrain.Regular)
    (present : terrain (names ++ name :: lower) ≠ none) : terrain names = some .package := by
  induction lower using List.reverseRecOn generalizing name with
  | nil => exact regular.above names name present
  | append_singleton lower last inductionHypothesis =>
    rw [← List.cons_append, ← List.append_assoc] at present
    exact inductionHypothesis (regular.above _ _ present ▸ Option.some_ne_none _)

/-- Where nothing counts, nothing below counts. -/
theorem Regular.nothing_below (regular : terrain.Regular) (absent : terrain names = none)
    (lower : List String) : terrain (names ++ lower) = none := by
  cases lower with
  | nil => rwa [List.append_nil]
  | cons name lower =>
    by_contra present
    rw [regular.package present] at absent
    cases absent

/-- An outline holds exactly what counts at a place and below. -/
inductive Depicts (terrain : Terrain) : BranchKind → List String → Outline → Prop
  | package {kind : BranchKind} {names : List String} {name : String} {counts : Count}
      {children : List Outline} (here : terrain names = some .package)
      (distinct : (children.map fun child => child.label.name).Nodup)
      (complete : ∀ name, terrain (names ++ [name]) ≠ none ↔
        ∃ child ∈ children, child.label.name = name)
      (each : ∀ child ∈ children, Depicts terrain .package (names ++ [child.label.name]) child)
      (sum : counts = (children.map fun child => child.label.contribution).sum) :
      Depicts terrain kind names ⟨⟨.branch kind, name, counts⟩, children⟩
  | source {kind : BranchKind} {names : List String} {entry : Entry}
      (here : terrain names = some (.source entry)) :
      Depicts terrain kind names (Outline.ofEntry entry)

/-- Some units are exactly what counts directly in a place. -/
structure Inside (terrain : Terrain) (names : List String) (children : List Outline) : Prop where
  distinct : (children.map fun child => child.label.name).Nodup
  complete : ∀ name, terrain (names ++ [name]) ≠ none ↔
    ∃ child ∈ children, child.label.name = name
  each : ∀ child ∈ children, terrain.Depicts .package (names ++ [child.label.name]) child

/-- Where something is depicted, there is something. -/
theorem Depicts.present (depicts : terrain.Depicts kind names outline) : terrain names ≠ none := by
  cases depicts with
  | package here => simp [here]
  | source here => simp [here]

/-- A package is depicted by a branch of what counts inside and its sum. -/
theorem depicts_package (here : terrain names = some .package) :
    terrain.Depicts kind names outline ↔ outline.label.kind = .branch kind ∧
      terrain.Inside names outline.children ∧
      outline.label.counts = (outline.children.map fun child => child.label.contribution).sum := by
  constructor
  · intro depicts
    cases depicts with
    | package _ distinct complete each sum => exact ⟨rfl, ⟨distinct, complete, each⟩, sum⟩
    | source found => rw [here] at found; cases found
  · obtain ⟨⟨_, name, counts⟩, children⟩ := outline
    rintro ⟨rfl, ⟨distinct, complete, each⟩, sum⟩
    exact .package here distinct complete each sum

/-- A source file is depicted by its entry alone. -/
theorem Depicts.eq_ofEntry (depicts : terrain.Depicts kind names outline)
    (here : terrain names = some (.source entry)) : outline = Outline.ofEntry entry := by
  cases depicts with
  | package found => rw [here] at found; cases found
  | source found =>
    rw [here] at found
    cases found
    rfl

/-- Only what lies at a place and below is depicted there. -/
theorem Depicts.congr {elsewhere : List String} (depicts : terrain.Depicts kind names outline)
    (same : ∀ lower, other (elsewhere ++ lower) = terrain (names ++ lower)) :
    other.Depicts kind elsewhere outline := by
  induction depicts generalizing elsewhere with
  | @package _ names _ _ _ here distinct complete each sum inductionHypothesis =>
    have top : other elsewhere = terrain names := by simpa using same []
    refine .package (top.trans here) distinct (fun name => ?_) (fun child member => ?_) sum
    · rw [same, complete]
    · refine inductionHypothesis child member fun lower => ?_
      rw [List.append_assoc, same, List.append_assoc]
  | @source _ names _ here =>
    have top : other elsewhere = terrain names := by simpa using same []
    exact .source (top.trans here)

/-- An outline that depicts a terrain is balanced. -/
theorem Depicts.balanced (regular : terrain.Regular)
    (depicts : terrain.Depicts kind names outline) : outline.Balanced := by
  induction depicts with
  | package _ _ _ _ sum inductionHypothesis => exact .branch sum inductionHypothesis
  | source here => exact (regular.source _ _ here).2.2.1

/-- Nothing is left behind by the counters of a package or a source file. -/
theorem Depicts.contribution_eq (regular : terrain.Regular)
    (depicts : terrain.Depicts .package names outline) :
    outline.label.contribution = outline.label.counts := by
  refine (Facts.contribution_eq_counts (depicts.balanced regular).bare).mpr ?_
  cases depicts with
  | package => rfl
  | @source _ _ entry here =>
    obtain ⟨-, kind, -⟩ := regular.source _ _ here
    obtain ⟨_, name, counts, nested⟩ := entry
    obtain rfl := kind
    rw [Outline.ofEntry_branch]
    rfl

/-! ### One depiction up to order -/

/-- Two listings of what counts in a place name the same units, in some order. -/
theorem Inside.matched {children others : List Outline} (inside : terrain.Inside names children)
    (otherwise : terrain.Inside names others) : ∃ reordered, reordered.Perm others ∧
      List.Forall₂ (fun child other : Outline => child ∈ children ∧ other ∈ others ∧
        child.label.name = other.label.name) children reordered := by
  have sameNames : (children.map fun child => child.label.name).Perm
      (others.map fun child => child.label.name) := by
    refine (List.perm_ext_iff_of_nodup inside.distinct otherwise.distinct).mpr fun name => ?_
    rw [List.mem_map, List.mem_map, ← inside.complete, otherwise.complete]
  have paired : List.Forall₂ (fun name (other : Outline) => other ∈ others ∧
      name = other.label.name) (others.map fun child => child.label.name) others := by
    rw [List.forall₂_map_left_iff]
    exact List.forall₂_same.mpr fun _ member => ⟨member, rfl⟩
  obtain ⟨reordered, along, perm⟩ := List.perm_comp_forall₂ sameNames paired
  exact ⟨reordered, perm,
    (List.forall₂_and_left _ _).mpr ⟨fun _ member => member, List.forall₂_map_left_iff.mp along⟩⟩

/-- Two outlines with one name that depict the same place are alike. -/
theorem Depicts.alike {again : Outline} (depicts : terrain.Depicts kind names outline)
    (anew : terrain.Depicts kind names again)
    (sameName : outline.label.name = again.label.name) :
    outline.label = again.label ∧ outline.Alike again := by
  induction depicts generalizing again with
  | @package kind names name counts children here distinct complete each sum
      inductionHypothesis =>
    obtain ⟨⟨otherKind, otherName, otherCounts⟩, others⟩ := again
    obtain ⟨rfl, otherwise, otherSum⟩ := (depicts_package here).mp anew
    obtain rfl : name = otherName := sameName
    obtain ⟨reordered, perm, matched⟩ := Inside.matched ⟨distinct, complete, each⟩ otherwise
    have paired : List.Forall₂ (fun child other : Outline =>
        child.label = other.label ∧ child.Alike other) children reordered := by
      refine matched.imp fun child other ⟨childMember, otherMember, named⟩ => ?_
      exact inductionHypothesis child childMember (named ▸ otherwise.each other otherMember) named
    have sameContributions : children.map (fun child => child.label.contribution) =
        reordered.map fun child => child.label.contribution := by
      rw [← List.forall₂_eq_eq_eq, List.forall₂_map_left_iff, List.forall₂_map_right_iff]
      exact paired.imp fun _ _ same => congrArg Facts.contribution same.1
    obtain rfl : counts = otherCounts := by
      rw [sum, sameContributions, (perm.map _).sum_eq]
      exact otherSum.symm
    exact ⟨rfl, .node reordered perm (paired.imp fun _ _ same => same.2)⟩
  | source here =>
    obtain rfl := anew.eq_ofEntry here
    exact ⟨rfl, .refl _⟩

/-! ### Where units are -/

/-- A unit of an outline counts in the terrain, or is a class or a function of some source file. -/
theorem Depicts.at? (depicts : terrain.Depicts kind names outline)
    (here : outline.at? position = some unit) :
    (∃ unitKind, terrain.Depicts unitKind (names ++ outline.trail position) unit) ∨
    ∃ lower entry, terrain (names ++ lower) = some (.source entry) ∧
      unit.label.name ∈ entry.innerNames := by
  induction position generalizing outline names kind with
  | nil =>
    obtain rfl : outline = unit := Option.some.inj here
    exact .inl ⟨kind, by rwa [Outline.trail, List.append_nil]⟩
  | cons index rest inductionHypothesis =>
    obtain ⟨child, found, below⟩ := Option.bind_eq_some_iff.mp here
    have member := List.mem_of_getElem? found
    cases depicts with
    | package _ _ _ each =>
      rw [Outline.trail_cons rest found]
      rcases inductionHypothesis (each child member) below with
        ⟨unitKind, counts⟩ | ⟨lower, entry, source, inner⟩
      · exact .inl ⟨unitKind, by rwa [List.append_assoc] at counts⟩
      · exact .inr ⟨child.label.name :: lower, entry, by rwa [List.append_assoc] at source, inner⟩
    | @source _ _ entry source =>
      refine .inr ⟨[], entry, by rwa [List.append_nil], ?_⟩
      exact List.mem_map_of_mem (List.mem_flatMap.mpr ⟨child, member, Rose.label_mem_of_at? below⟩)

/-- Whatever counts below a place is somewhere in the outline of the place. -/
theorem Depicts.reach (regular : terrain.Regular) (depicts : terrain.Depicts kind names outline)
    (present : terrain (names ++ lower) ≠ none) :
    ∃ position unit, outline.at? position = some unit ∧ outline.trail position = lower := by
  induction lower generalizing outline names kind with
  | nil => exact ⟨[], outline, rfl, rfl⟩
  | cons name lower inductionHypothesis =>
    have inside := (depicts_package (regular.package present)).mp depicts |>.2.1
    have counts : terrain (names ++ [name]) ≠ none := by
      cases lower with
      | nil => exact present
      | cons next lower =>
        have further : terrain ((names ++ [name]) ++ next :: lower) ≠ none := by
          rwa [List.append_assoc]
        rw [regular.package further]
        exact Option.some_ne_none _
    obtain ⟨child, member, rfl⟩ := (inside.complete name).mp counts
    obtain ⟨index, found⟩ := List.mem_iff_getElem?.mp member
    obtain ⟨rest, unit, below, trail⟩ := inductionHypothesis (inside.each child member)
      (by rwa [List.append_assoc])
    refine ⟨index :: rest, unit, by rw [Rose.at?_cons, found, Option.bind_some, below], ?_⟩
    rw [Outline.trail_cons rest found, trail]

end Terrain

end CodeCensus
