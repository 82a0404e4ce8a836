import CodeCensus.Path.Location
import Mathlib.Data.List.Basic
import Mathlib.Data.List.Induction

/-!
# Joining paths

A path below another has the components of both, and so leads to a location below the location of
the other. What a path tells of its last name and its parent depends on the components alone.
-/

namespace CodeCensus

namespace Text

/-- A separator splits a text for good. -/
theorem splitAll_append (separator : Char) (before after : List Char) :
    splitAll separator (before ++ separator :: after) =
      splitAll separator before ++ splitAll separator after := by
  induction before with
  | nil =>
    cases pieces : splitAll separator after with
    | nil => exact absurd pieces (splitAll_ne_nil separator after)
    | cons piece rest => simp [splitAll, pieces]
  | cons c before inductionHypothesis =>
    rw [List.cons_append, splitAll, inductionHypothesis, splitAll]
    cases pieces : splitAll separator before with
    | nil => exact absurd pieces (splitAll_ne_nil separator before)
    | cons piece rest =>
      simp only [List.cons_append]
      split <;> rfl

/-- A text without the separator is one piece. -/
theorem splitAll_of_not_mem {separator : Char} {text : List Char} (absent : separator ∉ text) :
    splitAll separator text = [text] := by
  induction text with
  | nil => rfl
  | cons c text inductionHypothesis =>
    rw [List.mem_cons, not_or] at absent
    rw [splitAll, inductionHypothesis absent.2]
    exact if_neg (Ne.symm absent.1)

/-- No piece holds the separator. -/
theorem not_mem_of_mem_splitAll {separator : Char} {text piece : List Char}
    (member : piece ∈ splitAll separator text) : separator ∉ piece := by
  induction text generalizing piece with
  | nil =>
    obtain rfl := List.mem_singleton.mp member
    exact List.not_mem_nil
  | cons c text inductionHypothesis =>
    rw [splitAll] at member
    cases pieces : splitAll separator text with
    | nil => exact absurd pieces (splitAll_ne_nil separator text)
    | cons first rest =>
      rw [pieces] at member inductionHypothesis
      simp only at member
      split at member
      · rcases List.mem_cons.mp member with rfl | later
        · exact List.not_mem_nil
        · exact inductionHypothesis later
      · next apart =>
        rcases List.mem_cons.mp member with rfl | later
        · rw [List.mem_cons, not_or]
          exact ⟨fun same => apart same.symm, inductionHypothesis List.mem_cons_self⟩
        · exact inductionHypothesis (List.mem_cons_of_mem _ later)

end Text

/-- A name of one component: not empty, without a slash, and none of the dots. -/
def IsName (name : String) : Prop :=
  name.toList ≠ [] ∧ '/' ∉ name.toList ∧ name.toList ≠ ['.'] ∧ name.toList ≠ ['.', '.']

namespace Path

open Text

/-- The components of a path after its start. -/
def pieces (path : Path) : List Component :=
  (splitAll '/' path.text.toList).filterMap component?

/-- What a path starts with, if anything. -/
def start (path : Path) : List Component :=
  if path.isAbsolute then [.root]
  else if (splitAll '/' path.text.toList).head? = some ['.'] then [.here]
  else []

private theorem components_eq (path : Path) : path.components = path.start ++ path.pieces := rfl

private theorem component?_eq_name {piece : List Char} {name : String}
    (meaning : component? piece = some (.name name)) :
    name = String.ofList piece ∧ piece ≠ [] ∧ piece ≠ ['.'] ∧ piece ≠ ['.', '.'] := by
  unfold component? at meaning
  split at meaning
  · cases meaning
  · next spoken =>
    rw [not_or] at spoken
    split at meaning
    · cases meaning
    · next notUp =>
      obtain rfl : String.ofList piece = name := by simpa using meaning
      exact ⟨rfl, spoken.1, spoken.2, notUp⟩

/-- The names in a path are names of one component. -/
theorem isName_of_mem_components {path : Path} {name : String}
    (member : .name name ∈ path.components) : IsName name := by
  rw [components_eq, List.mem_append] at member
  rcases member with early | late
  · unfold start at early
    split at early
    · simp at early
    · split at early <;> simp at early
  · obtain ⟨piece, pieceMember, meaning⟩ := List.mem_filterMap.mp late
    obtain ⟨rfl, notEmpty, notHere, notUp⟩ := component?_eq_name meaning
    rw [IsName, String.toList_ofList]
    exact ⟨notEmpty, not_mem_of_mem_splitAll pieceMember, notHere, notUp⟩

/-- A name is one component. -/
theorem components_of_isName {name : String} (isName : IsName name) :
    components ⟨name⟩ = [.name name] := by
  obtain ⟨notEmpty, noSlash, notHere, notUp⟩ := isName
  have absolute : isAbsolute ⟨name⟩ = false := by
    refine Bool.eq_false_iff.mpr fun absolute => noSlash (List.mem_of_mem_head? ?_)
    simpa [isAbsolute] using absolute
  have one : splitAll '/' name.toList = [name.toList] := splitAll_of_not_mem noSlash
  simp [components_eq, start, absolute, pieces, one, component?, notEmpty, notHere, notUp]

/-- What a path starts with is settled before its first slash. -/
theorem start_of_slash {one other : Path} {front below elsewhere : List Char}
    (oneText : one.text.toList = front ++ '/' :: below)
    (otherText : other.text.toList = front ++ '/' :: elsewhere) : one.start = other.start := by
  have absolute : one.isAbsolute = other.isAbsolute := by
    rw [isAbsolute, isAbsolute, oneText, otherText]
    cases front <;> rfl
  have first : (splitAll '/' one.text.toList).head? = (splitAll '/' other.text.toList).head? := by
    rw [oneText, otherText, splitAll_append, splitAll_append,
      List.head?_append_of_ne_nil _ (splitAll_ne_nil _ _),
      List.head?_append_of_ne_nil _ (splitAll_ne_nil _ _)]
  rw [start, start, absolute, first]

private theorem start_of_front {path front : Path} {below : List Char}
    (notEmpty : front.text.toList ≠ [])
    (text : path.text.toList = front.text.toList ++ '/' :: below) : path.start = front.start := by
  have absolute : path.isAbsolute = front.isAbsolute := by
    rw [isAbsolute, isAbsolute, text, List.head?_append_of_ne_nil _ notEmpty]
  have first : (splitAll '/' path.text.toList).head? = (splitAll '/' front.text.toList).head? := by
    rw [text, splitAll_append, List.head?_append_of_ne_nil _ (splitAll_ne_nil _ _)]
  rw [start, start, absolute, first]

/-- A relative path of names below another adds its components. -/
theorem components_join {base below : Path} {names : List String} (notEmpty : base.components ≠ [])
    (named : below.components = names.map .name) :
    (base.join below).components = base.components ++ names.map .name := by
  have relative : below.isAbsolute = false := by
    refine Bool.eq_false_iff.mpr fun absolute => ?_
    rw [components_eq, start, if_pos absolute] at named
    cases names <;> cases named
  have belowPieces : below.pieces = names.map .name := by
    have noStart : below.start = [] := by
      rw [start, relative]
      rw [components_eq, start, relative] at named
      by_cases dot : (splitAll '/' below.text.toList).head? = some ['.']
      · simp only [dot, if_true] at named
        cases names <;> cases named
      · simp [dot]
    rwa [components_eq, noStart, List.nil_append] at named
  have written : base.text.toList ≠ [] := by
    intro empty
    have absolute : base.isAbsolute = false := by simp [isAbsolute, empty]
    simp [components_eq, start, pieces, absolute, empty, splitAll, component?] at notEmpty
  have hasText : base.text.isEmpty = false := by
    simpa [String.isEmpty_iff, ← String.toList_eq_nil_iff] using written
  rw [join, relative, hasText]
  simp only [Bool.or_self, Bool.false_eq_true, if_false]
  split
  · next ends =>
    -- A final slash of the base separates already, and holds an empty piece apart.
    obtain ⟨front, same⟩ := List.getLast?_eq_some_iff.mp (by simpa using ends)
    have text : (base.text ++ below.text).toList = front ++ '/' :: below.text.toList := by
      rw [String.toList_append, same, List.append_assoc, List.singleton_append]
    rw [components_eq, components_eq, start_of_slash text same, List.append_assoc]
    congr 1
    rw [pieces, pieces, text, same, splitAll_append, splitAll_append, List.filterMap_append,
      List.filterMap_append, ← belowPieces]
    simp [splitAll, component?, pieces]
  · have text : (base.text ++ "/" ++ below.text).toList =
        base.text.toList ++ '/' :: below.text.toList := by
      simp [String.toList_append]
    rw [components_eq, components_eq, start_of_front written text,
      List.append_assoc]
    congr 1
    rw [pieces, text, splitAll_append, List.filterMap_append, ← belowPieces]
    rfl

section Names

variable {base : Path} {name : String}

/-- Only the empty path says nothing. -/
theorem components_ne_nil (written : base.text ≠ "") : base.components ≠ [] := by
  intro nothing
  rw [components_eq] at nothing
  obtain ⟨noStart, noPieces⟩ := List.append_eq_nil_iff.mp nothing
  cases text : base.text.toList with
  | nil => exact written (String.toList_eq_nil_iff.mp text)
  | cons first rest =>
    obtain ⟨piece, others, split⟩ := List.exists_cons_of_ne_nil (splitAll_ne_nil '/' rest)
    rw [start] at noStart
    split at noStart
    · cases noStart
    · next relative =>
      have notSlash : first ≠ '/' := by simpa [isAbsolute, text] using relative
      have front : splitAll '/' base.text.toList = (first :: piece) :: others := by
        simp [text, splitAll, split, notSlash]
      rw [front] at noStart
      split at noStart
      · cases noStart
      · next notHere =>
        -- The first piece is neither empty nor a dot, so it is a component.
        have silent : component? (first :: piece) = none :=
          List.filterMap_eq_nil_iff.mp noPieces _ (by simp [front])
        unfold component? at silent
        split at silent
        · simp_all
        · split at silent <;> cases silent

/-- A name below any path is its last component. -/
theorem components_join_name (isName : IsName name) :
    (base.join ⟨name⟩).components = base.components ++ [.name name] := by
  by_cases written : base.text = ""
  · have same : base.join ⟨name⟩ = ⟨name⟩ := by simp [join, written]
    have nothing : base.components = [] := by
      simp [components_eq, start, pieces, isAbsolute, written, splitAll, component?]
    rw [same, components_of_isName isName, nothing, List.nil_append]
  · have one : components ⟨name⟩ = [name].map .name := components_of_isName isName
    rw [components_join (components_ne_nil written) one, List.map_singleton]

/-- What lies directly at a path has the last name of the path as the name of its directory. -/
theorem parentName?_join (isName : IsName name) :
    (base.join ⟨name⟩).parentName? = base.fileName? := by
  rw [parentName?, components_join_name isName, List.dropLast_concat, fileName?]

end Names

/-! ### Paths below a project -/

/-- A path has the components of a project and then some names. -/
structure At (project : Path) (names : List String) (path : Path) : Prop where
  components : path.components = project.components ++ names.map .name

variable {project path : Path} {names : List String} {name : String}

/-- A name joined to a path at a place leads one place further. -/
theorem At.join (here : project.At names path) (isName : IsName name) :
    project.At (names ++ [name]) (path.join ⟨name⟩) := by
  constructor
  rw [components_join_name isName, here.components]
  simp

private theorem foldl_extend_names (reversed : Location) (names : List String) :
    (names.map Component.name).foldl Location.extend reversed = names.reverse ++ reversed := by
  induction names generalizing reversed with
  | nil => rfl
  | cons name names inductionHypothesis => simp [Location.extend, inductionHypothesis]

/-- Names lead down from the location of the project. -/
theorem At.location (here : project.At names path) :
    path.location = project.location ++ names := by
  rw [Path.location, here.components, List.foldl_append, foldl_extend_names, List.reverse_append,
    List.reverse_reverse, Path.location]

/-- A path at a place ends in the last name of the place. -/
theorem At.fileName? (here : project.At (names ++ [name]) path) : path.fileName? = some name := by
  simp [Path.fileName?, here.components, Component.name?]

/-- The file name of a path at a place is the last name of the place. -/
theorem At.fileName (here : project.At (names ++ [name]) path) : path.fileName = name := by
  rw [Path.fileName, here.fileName?, Option.getD_some]

/-- The last name of a place is the name of one component. -/
theorem At.isName (here : project.At (names ++ [name]) path) : IsName name := by
  have member : .name name ∈ path.components := by simp [here.components]
  exact isName_of_mem_components member

/-- The directory of a path is named by the name before the last, or is the project itself. -/
theorem At.parentName? (here : project.At (names ++ [name]) path) :
    path.parentName? = (names.getLast?.map some).getD project.fileName? := by
  rw [Path.parentName?, here.components, List.map_append, ← List.append_assoc, List.map_singleton,
    List.dropLast_concat]
  cases names using List.reverseRecOn with
  | nil => simp [Path.fileName?]
  | append_singleton names last => simp [Component.name?]

end Path

end CodeCensus
