import CodeCensus.Files.Memory
import CodeCensus.Proofs.Paths
import Mathlib.Data.List.Nodup
import Mathlib.Data.String.Basic

/-!
# What files in memory hold

Files in memory are made by additions and removals at paths. Whatever lies below a location then
lies in a directory, and under a name of one component, so that joining a listed name to the path of
its directory leads there. A listing names each thing in a directory once.
-/

namespace CodeCensus

namespace Text

private theorem mem_insertInOrder {text other : String} {texts : List String} :
    other ∈ insertInOrder text texts ↔ other = text ∨ other ∈ texts := by
  induction texts with
  | nil => simp [insertInOrder]
  | cons head rest inductionHypothesis =>
    rw [insertInOrder]
    split
    · simp
    · split
      · next same => simp [same]
      · simp [inductionHypothesis, or_left_comm]

private theorem insertInOrder_sorted {text : String} {texts : List String}
    (sorted : texts.Pairwise (· < ·)) :
    (insertInOrder text texts).Pairwise (· < ·) := by
  induction texts with
  | nil => simp [insertInOrder]
  | cons head rest inductionHypothesis =>
    obtain ⟨before, restSorted⟩ := List.pairwise_cons.mp sorted
    rw [insertInOrder]
    split
    · next less =>
      refine List.pairwise_cons.mpr ⟨fun other member => ?_, sorted⟩
      rcases List.mem_cons.mp member with rfl | later
      · exact less
      · exact less.trans (before other later)
    · next notLess =>
      split
      · exact sorted
      · next different =>
        have greater : head < text :=
          lt_of_le_of_ne (not_lt.mp notLess) fun same => different same.symm
        refine List.pairwise_cons.mpr ⟨fun other member => ?_, inductionHypothesis restSorted⟩
        rcases mem_insertInOrder.mp member with rfl | later
        · exact greater
        · exact before other later

/-- Sorting keeps the texts. -/
theorem mem_sortDistinct {text : String} {texts : List String} :
    text ∈ sortDistinct texts ↔ text ∈ texts := by
  induction texts with
  | nil => exact Iff.rfl
  | cons head rest inductionHypothesis =>
    rw [List.mem_cons, ← inductionHypothesis]
    exact mem_insertInOrder

/-- Sorted texts stand in strict order. -/
theorem sorted_sortDistinct (texts : List String) : (sortDistinct texts).Pairwise (· < ·) := by
  induction texts with
  | nil => exact .nil
  | cons head rest inductionHypothesis => exact insertInOrder_sorted inductionHypothesis

private theorem nodup_sortDistinct (texts : List String) : (sortDistinct texts).Nodup :=
  (sorted_sortDistinct texts).imp fun less => less.ne

end Text

/-- Every name in a location but the first is a name of one component. -/
theorem Path.isName_of_location {path : Path} {upper lower : Location} {name : String}
    (here : path.location = upper ++ name :: lower) (inside : upper ≠ []) : IsName name := by
  have reversed : ∀ (components : List Component) (known : Location),
      (∀ text ∈ known.dropLast, IsName text) →
      (∀ text, .name text ∈ components → IsName text) →
      ∀ text ∈ (components.foldl Location.extend known).dropLast, IsName text := by
    intro components
    induction components with
    | nil => exact fun known each _ => each
    | cons component components inductionHypothesis =>
      intro known each named
      refine inductionHypothesis _ (fun text member => ?_) fun text member =>
        named text (List.mem_cons_of_mem _ member)
      cases component with
      | root => cases member
      | here => exact each text member
      | up =>
        simp only [Location.extend] at member
        split at member
        · exact each text member
        · rw [← List.tail_dropLast] at member
          exact each text (List.mem_of_mem_tail member)
      | name first =>
        cases known with
        | nil => cases member
        | cons last others =>
          rcases List.mem_cons.mp member with rfl | later
          · exact named _ List.mem_cons_self
          · exact each text later
  have names := reversed path.components [] (by simp) fun text => isName_of_mem_components
  refine names name ?_
  have turned : path.components.foldl Location.extend [] = lower.reverse ++ name :: upper.reverse := by
    rw [← List.reverse_reverse (path.components.foldl _ _), ← Path.location, here]
    simp
  rw [turned, List.dropLast_append_of_ne_nil (List.cons_ne_nil _ _),
    List.dropLast_cons_of_ne_nil (by simpa using inside)]
  simp

namespace MemoryFiles

variable {files : MemoryFiles} {location : Location} {name : String}

/-- Files made from nothing by additions and removals at paths. -/
inductive Built : MemoryFiles → Prop
  | empty : Built empty
  | addDirectory {files : MemoryFiles} (built : Built files) (path : Path) :
      Built (files.addDirectory path.location)
  | addFile {files : MemoryFiles} (built : Built files) (path : Path) (bytes : ByteArray) :
      Built (files.addFile path.location bytes)
  | remove {files : MemoryFiles} (built : Built files) (path : Path) :
      Built (files.remove path.location)
  | deny {files : MemoryFiles} (built : Built files) (path : Path) :
      Built (files.deny path.location)
  | allow {files : MemoryFiles} (built : Built files) (path : Path) :
      Built (files.allow path.location)

/-- Something is at a location. -/
def Holds (files : MemoryFiles) (location : Location) : Prop :=
  location ∈ files.directories ∨ ∃ bytes, files.bytesAt? location = some bytes

private theorem exists_bytesAt? : (∃ bytes, files.bytesAt? location = some bytes) ↔
    location ∈ files.contents.map Prod.fst := by
  rw [← Option.isSome_iff_exists, bytesAt?, Option.isSome_map, List.find?_isSome, List.mem_map]
  simp only [beq_iff_eq]

/-- A place is held if it is a directory or has contents. -/
theorem holds_iff : files.Holds location ↔
    location ∈ files.directories ++ files.contents.map Prod.fst := by
  rw [Holds, exists_bytesAt?, List.mem_append]

/-- What lies below a location lies in a directory, and has a name of one component. -/
def Closed (files : MemoryFiles) : Prop :=
  ∀ upper name, upper ≠ [] → files.Holds (upper ++ [name]) →
    upper ∈ files.directories ∧ IsName name

private theorem mem_levels {level : Location} : level ∈ location.levels ↔ level <+: location := by
  simp only [Location.levels, List.mem_map, List.mem_range, Nat.lt_succ_iff]
  constructor
  · rintro ⟨length, -, rfl⟩
    exact List.take_prefix length location
  · intro within
    exact ⟨level.length, within.length_le, (List.prefix_iff_eq_take.mp within).symm⟩

private theorem mem_addDirectory {level : Location} :
    level ∈ (files.addDirectory location).directories ↔
      level ∈ files.directories ∨ level <+: location := by
  have folded : ∀ levels known : List Location, level ∈ levels.foldl
      (fun known level => if known.contains level then known else level :: known) known ↔
        level ∈ known ∨ level ∈ levels := by
    intro levels
    induction levels with
    | nil => simp
    | cons first levels inductionHypothesis =>
      intro known
      rw [List.foldl_cons, inductionHypothesis]
      split
      · next already =>
        have present : first ∈ known := by simpa using already
        rw [List.mem_cons]
        constructor
        · tauto
        · rintro (old | rfl | later)
          · exact .inl old
          · exact .inl present
          · exact .inr later
      · rw [List.mem_cons, List.mem_cons]
        tauto
  rw [addDirectory, folded, mem_levels]

/-- A new directory is itself new at most, with what is above it. -/
theorem holds_addDirectory {level : Location} (held : (files.addDirectory location).Holds level) :
    files.Holds level ∨ level <+: location := by
  rcases held with directory | file
  · exact (mem_addDirectory.mp directory).imp .inl id
  · exact .inl (.inr file)

private theorem mem_addFile {level : Location} {bytes : ByteArray} :
    level ∈ (files.addFile location bytes).directories ↔
      level ∈ files.directories ∨ location ≠ [] ∧ level <+: location.dropLast := by
  unfold MemoryFiles.addFile
  cases location with
  | nil => simp
  | cons first rest => simp [mem_addDirectory]

/-- A new file is itself new at most, with what is above it. -/
theorem holds_addFile {level : Location} {bytes : ByteArray}
    (held : (files.addFile location bytes).Holds level) :
    files.Holds level ∨ level <+: location := by
  rcases held with directory | file
  · rcases mem_addFile.mp directory with directory | ⟨-, within⟩
    · exact .inl (.inl directory)
    · exact .inr (within.trans (List.dropLast_prefix _))
  · have sameContents : (files.addFile location bytes).contents =
        (location, bytes) :: files.contents.filter fun entry => entry.1 != location := by
      unfold MemoryFiles.addFile
      cases location <;> rfl
    rw [exists_bytesAt?, sameContents, List.map_cons, List.mem_cons] at file
    rcases file with rfl | later
    · exact .inr (List.prefix_refl _)
    · exact .inl (.inr (exists_bytesAt?.mpr (((List.filter_sublist).map _).subset later)))

/-- What is left after a removal was there before, and not below what was removed. -/
theorem holds_remove {level : Location} (held : (files.remove location).Holds level) :
    files.Holds level ∧ ¬location <+: level := by
  rw [holds_iff, MemoryFiles.remove] at held
  rw [holds_iff]
  simp only [List.mem_append, List.mem_filter, List.mem_map, Bool.not_eq_true',
    Bool.eq_false_iff, ne_eq, List.isPrefixOf_iff_prefix] at held ⊢
  rcases held with ⟨directory, apart⟩ | ⟨entry, ⟨member, apart⟩, same⟩
  · exact ⟨.inl directory, apart⟩
  · exact ⟨.inr ⟨entry, member, same⟩, same ▸ apart⟩

private theorem Closed.addDirectory (closed : files.Closed) (path : Path) :
    (files.addDirectory path.location).Closed := by
  intro upper name inside held
  rw [mem_addDirectory]
  rcases holds_addDirectory held with held | ⟨lower, same⟩
  · exact (closed upper name inside held).imp_left .inl
  · rw [List.append_assoc] at same
    exact ⟨.inr ⟨_, same⟩, Path.isName_of_location same.symm inside⟩

private theorem Closed.addFile (closed : files.Closed) (path : Path) (bytes : ByteArray) :
    (files.addFile path.location bytes).Closed := by
  intro upper name inside held
  rw [mem_addFile]
  rcases holds_addFile held with held | ⟨lower, same⟩
  · exact (closed upper name inside held).imp_left .inl
  · rw [List.append_assoc] at same
    refine ⟨.inr ⟨by simp [← same], ?_⟩, Path.isName_of_location same.symm inside⟩
    rw [← same, List.dropLast_append_of_ne_nil (by simp)]
    exact List.prefix_append _ _

private theorem Closed.remove (closed : files.Closed) (location : Location) :
    (files.remove location).Closed := by
  intro upper name inside held
  have kept := holds_remove held
  obtain ⟨directory, isName⟩ := closed upper name inside kept.1
  refine ⟨List.mem_filter.mpr ⟨directory, ?_⟩, isName⟩
  rw [Bool.not_eq_true', Bool.eq_false_iff, ne_eq, List.isPrefixOf_iff_prefix]
  exact fun within => kept.2 (within.trans (List.prefix_append _ _))

/-- Files that were built up have a directory above each of them. -/
theorem Built.closed (built : files.Built) : files.Closed := by
  induction built with
  | empty =>
    intro upper name _ held
    simp [holds_iff, MemoryFiles.empty] at held
  | addDirectory _ path inductionHypothesis => exact inductionHypothesis.addDirectory path
  | addFile _ path bytes inductionHypothesis => exact inductionHypothesis.addFile path bytes
  | remove _ path inductionHypothesis => exact inductionHypothesis.remove path.location
  | deny _ path inductionHypothesis => exact inductionHypothesis
  | allow _ path inductionHypothesis => exact inductionHypothesis

/-! ### Listings -/

/-- A listing names exactly what lies directly in a location. -/
theorem mem_childNames : name ∈ files.childNames location ↔ files.Holds (location ++ [name]) := by
  rw [childNames, Text.mem_sortDistinct, List.mem_filterMap, holds_iff]
  constructor
  · rintro ⟨known, held, named⟩
    unfold childName? at named
    split at named
    · next same =>
      obtain ⟨upper, rfl⟩ := List.getLast?_eq_some_iff.mp named
      rw [List.dropLast_concat] at same
      exact same ▸ held
    · cases named
  · intro held
    exact ⟨_, held, by simp [childName?]⟩

/-- The names in a directory stand in strict order. -/
theorem sorted_childNames (files : MemoryFiles) (location : Location) :
    (files.childNames location).Pairwise (· < ·) :=
  Text.sorted_sortDistinct _

/-- No name stands in a directory twice. -/
theorem nodup_childNames (files : MemoryFiles) (location : Location) :
    (files.childNames location).Nodup :=
  Text.nodup_sortDistinct _

/-- Nothing lies deeper than the longest location. -/
theorem length_le_longest (held : files.Holds location) : location.length ≤ files.longest := by
  have folded : ∀ (locations : List Location) (start : Nat),
      start ≤ locations.foldl (fun length location => max length location.length) start ∧
        ∀ location ∈ locations, location.length ≤
          locations.foldl (fun length location => max length location.length) start := by
    intro locations
    induction locations with
    | nil => exact fun start => ⟨Nat.le_refl start, by simp⟩
    | cons first locations inductionHypothesis =>
      intro start
      obtain ⟨more, each⟩ := inductionHypothesis (max start first.length)
      refine ⟨(Nat.le_max_left _ _).trans more, fun other member => ?_⟩
      rcases List.mem_cons.mp member with rfl | later
      · exact (Nat.le_max_right _ _).trans more
      · exact each other later
  exact (folded _ 0).2 location (holds_iff.mp held)

/-! ### Views of files -/

/-- What is seen as a directory is one. -/
theorem isDirectory_view {path : Path} :
    files.view.isDirectory path = true ↔ path.location ∈ files.directories := by
  simp [view]

/-- Where nothing is denied, a directory lists the names in it. -/
theorem list_view {path : Path} (undenied : files.denied = [])
    (directory : path.location ∈ files.directories) : files.view.list path =
      some ((files.childNames path.location).map fun name => path.join ⟨name⟩) := by
  simp [view, undenied, directory]

end MemoryFiles

end CodeCensus
