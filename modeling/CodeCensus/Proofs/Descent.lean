import CodeCensus.Proofs.Reading
import CodeCensus.Proofs.Scanning

/-!
# Descending through files in memory

What a directory lists lies one level deeper than the directory, and nothing lies deeper than the
longest location. So a descent through listings ends, wherever it begins, and the number of levels
that a reading is given is always enough: a reading is the recursion without that number.
-/

namespace CodeCensus

namespace Path

variable {path : Path} {name : String}

/-- A location is made of names, and of the top of the file system. -/
theorem isName_of_mem_location (member : name ∈ path.location) : name = "/" ∨ IsName name := by
  have folded : ∀ (components : List Component) (known : Location),
      (∀ text ∈ known, text = "/" ∨ IsName text) →
      (∀ text, .name text ∈ components → IsName text) →
      ∀ text ∈ components.foldl Location.extend known, text = "/" ∨ IsName text := by
    intro components
    induction components with
    | nil => exact fun known each _ => each
    | cons component components inductionHypothesis =>
      intro known each named
      refine inductionHypothesis _ (fun text inNext => ?_) fun text inRest =>
        named text (List.mem_cons_of_mem _ inRest)
      cases component with
      | root => exact .inl (List.mem_singleton.mp inNext)
      | here => exact each text inNext
      | up =>
        simp only [Location.extend] at inNext
        split at inNext
        · exact each text inNext
        · exact each text (List.mem_of_mem_tail inNext)
      | name first =>
        rcases List.mem_cons.mp inNext with rfl | earlier
        · exact .inr (named _ List.mem_cons_self)
        · exact each text earlier
  rw [Path.location, List.mem_reverse] at member
  exact folded path.components [] (by simp) (fun text => isName_of_mem_components) name member

/-- The path that some names lead to, one after the other. -/
def descend (path : Path) (names : List String) : Path :=
  names.foldl (fun upper name => upper.join ⟨name⟩) path

@[simp] theorem descend_nil (path : Path) : path.descend [] = path := rfl

@[simp] theorem descend_cons (path : Path) (name : String) (names : List String) :
    path.descend (name :: names) = (path.join ⟨name⟩).descend names := rfl

end Path

namespace MemoryFiles

variable {files : MemoryFiles} {path child : Path} {location upper lower : Location} {name : String}
  {names : List String}

/-- What files in memory hold is made of names, and of the top of the file system. -/
theorem Built.isName_of_mem (built : files.Built) (held : files.Holds location)
    (member : name ∈ location) : name = "/" ∨ IsName name := by
  have new : ∀ {path : Path}, location <+: path.location → name = "/" ∨ IsName name :=
    fun within => Path.isName_of_mem_location (within.subset member)
  induction built with
  | empty => simp [holds_iff, MemoryFiles.empty] at held
  | addDirectory _ path inductionHypothesis =>
    exact (holds_addDirectory held).elim inductionHypothesis new
  | addFile _ path bytes inductionHypothesis =>
    exact (holds_addFile held).elim inductionHypothesis new
  | remove _ path inductionHypothesis => exact inductionHypothesis (holds_remove held).1
  | deny _ path inductionHypothesis => exact inductionHypothesis held
  | allow _ path inductionHypothesis => exact inductionHypothesis held

/-- Whatever something lies below is a directory. -/
theorem Closed.directory_above (closed : files.Closed) (held : files.Holds (upper ++ lower))
    (inside : upper ≠ []) (strictly : lower ≠ []) : upper ∈ files.directories := by
  induction lower using List.reverseRecOn with
  | nil => exact absurd rfl strictly
  | append_singleton lower last inductionHypothesis =>
    rw [← List.append_assoc] at held
    have above := (closed (upper ++ lower) last (by simp [inside]) held).1
    by_cases deeper : lower = []
    · rwa [deeper, List.append_nil] at above
    · exact inductionHypothesis (.inl above) deeper

/-- What is above something held is held, the top aside. -/
theorem Closed.holds_above (closed : files.Closed) (held : files.Holds (upper ++ lower))
    (inside : upper ≠ []) : files.Holds upper := by
  by_cases last : lower = []
  · rwa [last, List.append_nil] at held
  · exact .inl (closed.directory_above held inside last)

/-- How a listed name goes on from a path: it leads one level down and is the file name there. Only
the top of the file system, which is listed at the empty location, has no file name. -/
structure Listed (path : Path) (name : String) : Prop where
  location : (path.join ⟨name⟩).location = path.location ++ [name]
  fileName : (path.join ⟨name⟩).fileName = if name = "/" then "" else name
  top : name = "/" → path.location = []
  written : name ≠ ""

/-- In files that were built up, a name held below a path goes on from the path. -/
theorem Built.listed (built : files.Built) (held : files.Holds (path.location ++ [name])) :
    Listed path name := by
  have named : IsName name → Listed path name := by
    intro isName
    have there : path.At ([] ++ [name]) (path.join ⟨name⟩) :=
      ⟨by simpa using Path.components_join_name isName⟩
    have notTop : name ≠ "/" := fun same => isName.2.1 (by simp [same])
    refine ⟨there.location, ?_, fun same => absurd same notTop, ?_⟩
    · rw [there.fileName, if_neg notTop]
    · exact fun empty => isName.1 (by simp [empty])
  by_cases top : path.location = []
  · rcases built.isName_of_mem held (by simp : name ∈ path.location ++ [name]) with rfl | isName
    · have joined : path.join ⟨"/"⟩ = ⟨"/"⟩ := by simp [Path.join, Path.isAbsolute]
      refine ⟨?_, ?_, fun _ => top, by decide⟩
      · rw [joined, top]
        decide +kernel
      · rw [joined]
        decide +kernel
    · exact named isName
  · exact named (built.closed _ _ top held).2

/-- Different names of one directory lead to different file names. -/
theorem Listed.injective {other : String} (here : Listed path name) (there : Listed path other)
    (same : (path.join ⟨name⟩).fileName = (path.join ⟨other⟩).fileName) : name = other := by
  rw [here.fileName, there.fileName] at same
  split at same
  · next isTop =>
    split at same
    · next otherTop => rw [isTop, otherTop]
    · exact absurd same.symm there.written
  · split at same
    · exact absurd same here.written
    · exact same

/-- Names lead to the location below that they spell, where anything is there. -/
theorem Built.location_descend (built : files.Built)
    (held : files.Holds (path.location ++ names)) :
    (path.descend names).location = path.location ++ names := by
  induction names generalizing path with
  | nil => simp
  | cons name names inductionHypothesis =>
    have spelled : files.Holds (path.location ++ [name] ++ names) := by rwa [List.append_assoc]
    have first := built.closed.holds_above spelled (by simp)
    have below := (built.listed first).location
    rw [Path.descend_cons, inductionHypothesis (by rwa [below, List.append_assoc]), below,
      List.append_assoc, List.singleton_append]

/-- A directory lists the names in it, joined to its path, unless it is denied. -/
theorem list_eq_some {children : List Path} : files.view.list path = some children ↔
    path.location ∈ files.directories ∧ path.location ∉ files.denied ∧
      children = (files.childNames path.location).map fun name => path.join ⟨name⟩ := by
  simp only [view, Option.ite_none_left_eq_some, Option.some.injEq, Bool.or_eq_true,
    Bool.not_eq_true', List.contains_eq_mem, decide_eq_true_eq, decide_eq_false_iff_not, not_or,
    not_not, eq_comm (a := children)]
  tauto

/-- One path is listed directly in another. -/
def Lists (files : MemoryFiles) (child path : Path) : Prop :=
  ∃ children, files.view.list path = some children ∧ child ∈ children

/-- What is listed lies one level deeper, where something is. -/
theorem Built.location_of_lists (built : files.Built) (lists : files.Lists child path) :
    files.Holds child.location ∧ child.location.length = path.location.length + 1 := by
  obtain ⟨children, listing, member⟩ := lists
  obtain ⟨-, -, rfl⟩ := list_eq_some.mp listing
  obtain ⟨name, listed, rfl⟩ := List.mem_map.mp member
  have held := mem_childNames.mp listed
  rw [(built.listed held).location]
  exact ⟨held, by simp⟩

/-- Every descent through listings ends. -/
theorem Built.descent_ends (built : files.Built) : WellFounded files.Lists := by
  refine Subrelation.wf (fun {child path} lists => ?_)
    (measure fun path : Path => files.longest + 1 - path.location.length).wf
  obtain ⟨held, deeper⟩ := built.location_of_lists lists
  have bound := length_le_longest held
  change files.longest + 1 - child.location.length < files.longest + 1 - path.location.length
  omega

end MemoryFiles

namespace Settings

variable {settings : Settings} {files : MemoryFiles} {path : Path}

/-- One step of a reading: what is listed in a directory is read in some other way. -/
def readOnce (settings : Settings) (files : Files) (inner : Path → Except Fault (Option Entry))
    (path : Path) : Except Fault (Option Entry) :=
  if settings.excludes files path then .ok none
  else if files.isDirectory path then
    match files.list path with
    | none => .ok none
    | some children => do
      let entries ← children.mapM inner
      let package ← Entry.aggregate .package path.fileName (entries.filterMap id)
      return some package
  else
    settings.readFile files path

private theorem readLevels_succ (settings : Settings) (files : Files) (levels : Nat) (path : Path) :
    settings.readLevels files (levels + 1) path =
      settings.readOnce files (settings.readLevels files levels) path := rfl

/-- A step asks only for what the directory lists. -/
theorem readOnce_congr {files : Files} {inner other : Path → Except Fault (Option Entry)}
    (same : ∀ children, files.list path = some children → ∀ child ∈ children,
      inner child = other child) :
    settings.readOnce files inner path = settings.readOnce files other path := by
  unfold readOnce
  split
  · rfl
  · split
    · split
      · rfl
      · next children listing => rw [Fault.mapM_congr (same children listing)]
    · rfl

/-- Where nothing is, nothing is read. -/
theorem readOnce_of_absent (absent : ¬files.Holds path.location)
    (inner : Path → Except Fault (Option Entry)) :
    settings.readOnce files.view inner path = .ok none := by
  rw [MemoryFiles.Holds, not_or, not_exists] at absent
  have noDirectory : files.view.isDirectory path = false :=
    Bool.eq_false_iff.mpr (mt MemoryFiles.isDirectory_view.mp absent.1)
  have noFile : files.view.isFile path = false := by
    simpa [MemoryFiles.view, Option.eq_none_iff_forall_ne_some] using absent.2
  simp [readOnce, excludes, readFile, noDirectory, noFile]

/-- With levels for all that lies deeper, their number does not matter. -/
theorem readLevels_of_deep (built : files.Built) {levels other : Nat}
    (deep : files.longest < path.location.length + levels)
    (otherDeep : files.longest < path.location.length + other) :
    settings.readLevels files.view levels path = settings.readLevels files.view other path := by
  induction levels generalizing other path with
  | zero =>
    have absent : ¬files.Holds path.location := fun held =>
      absurd (MemoryFiles.length_le_longest held) (Nat.not_le.mpr deep)
    cases other with
    | zero => rfl
    | succ other => rw [readLevels_succ, readOnce_of_absent absent]; rfl
  | succ levels inductionHypothesis =>
    cases other with
    | zero =>
      have absent : ¬files.Holds path.location := fun held =>
        absurd (MemoryFiles.length_le_longest held) (Nat.not_le.mpr otherDeep)
      rw [readLevels_succ, readOnce_of_absent absent]
      rfl
    | succ other =>
      rw [readLevels_succ, readLevels_succ]
      refine readOnce_congr fun children listing child member => ?_
      have deeper := (built.location_of_lists ⟨children, listing, member⟩).2
      exact inductionHypothesis (by omega) (by omega)

/-- A reading of files in memory is the recursion that its steps spell out. -/
theorem read_eq_readOnce (built : files.Built) (settings : Settings) (path : Path) :
    settings.read files.view path =
      settings.readOnce files.view (settings.read files.view) path := by
  have levels : files.view.depth = files.longest + 1 := rfl
  rw [read, readLevels_succ]
  refine readOnce_congr fun children listing child member => readLevels_of_deep built ?_ ?_ <;> omega

end Settings

end CodeCensus
