import CodeCensus.Proofs.Recognition
import CodeCensus.Proofs.Scanning
import Mathlib.Algebra.Order.BigOperators.Group.List
import Mathlib.Algebra.Order.Group.Nat

/-!
# Readings of files that fit a word end

Every class and function that is read takes a byte of its own in the files below the path. Where all
files together hold fewer bytes than a counter can count, no counter leaves its word in a reading or
in a scan.
-/

namespace CodeCensus

namespace MemoryFiles

variable {files : MemoryFiles} {location : Location}

/-- How many bytes all files hold together. -/
def size (files : MemoryFiles) : Nat :=
  (files.contents.map fun entry => entry.2.size).sum

/-- How many bytes the files at a location and below it hold together. -/
def sizeBelow (files : MemoryFiles) (location : Location) : Nat :=
  (files.contents.map fun entry => if location <+: entry.1 then entry.2.size else 0).sum

private theorem sizeBelow_le_size (files : MemoryFiles) (location : Location) :
    files.sizeBelow location ≤ files.size := by
  refine List.sum_le_sum fun entry _ => ?_
  split
  · exact Nat.le_refl _
  · exact Nat.zero_le _

private theorem size_le_sizeBelow {bytes : ByteArray}
    (contained : files.bytesAt? location = some bytes) :
    bytes.size ≤ files.sizeBelow location := by
  obtain ⟨⟨place, _⟩, found, rfl⟩ := Option.map_eq_some_iff.mp contained
  obtain rfl : place = location := by simpa using List.find?_some found
  refine List.le_sum_of_mem (List.mem_map.mpr ⟨_, List.mem_of_find?_eq_some found, ?_⟩)
  exact if_pos (List.prefix_refl _)

/-- What lies below different names in a location is different. -/
theorem sum_sizeBelow {names : List String} (distinct : names.Nodup) :
    (names.map fun name => files.sizeBelow (location ++ [name])).sum ≤ files.sizeBelow location := by
  -- A file lies below one of the names at most.
  have once : ∀ (place : Location) (size : Nat),
      (names.map fun name => if location ++ [name] <+: place then size else 0).sum ≤
        if location <+: place then size else 0 := by
    intro place size
    induction distinct with
    | nil => exact Nat.zero_le _
    | @cons first names apart _ inductionHypothesis =>
      rw [List.map_cons, List.sum_cons]
      by_cases here : location ++ [first] <+: place
      · have elsewhere : ∀ name ∈ names, ¬location ++ [name] <+: place := by
          intro name member there
          have same := (List.prefix_of_prefix_length_le here there (by simp)).eq_of_length (by simp)
          exact apart name member (by simpa using same)
        have nothing : (names.map fun name =>
            if location ++ [name] <+: place then size else 0).sum = 0 := by
          refine List.sum_eq_zero fun amount member => ?_
          obtain ⟨name, named, rfl⟩ := List.mem_map.mp member
          exact if_neg (elsewhere name named)
        rw [nothing, if_pos here, if_pos ((List.prefix_append _ _).trans here), Nat.add_zero]
      · rw [if_neg here, Nat.zero_add]
        exact inductionHypothesis
  unfold sizeBelow
  induction files.contents with
  | nil => simp
  | cons entry contents inductionHypothesis =>
    simp only [List.map_cons, List.sum_cons, List.sum_map_add]
    exact Nat.add_le_add (once entry.1 entry.2.size) inductionHypothesis

end MemoryFiles

/-- A reading ends, with no more classes and functions than so many. -/
def Ends (done : Except Fault (Option Entry)) (bound : Nat) : Prop :=
  ∃ read, done = .ok read ∧ ∀ entry, read = some entry → entry.counts.UpTo bound

private theorem ends_nothing (bound : Nat) : Ends (.ok none) bound :=
  ⟨none, rfl, fun _ impossible => nomatch impossible⟩

/-- Readings that end find no more together than all of them may. -/
theorem Ends.all {α : Type} {compute : α → Except Fault (Option Entry)} {bound : α → Nat}
    {items : List α} (each : ∀ item ∈ items, Ends (compute item) (bound item)) :
    ∃ entries, items.mapM compute = .ok entries ∧
      (∀ inner ∈ entries.filterMap id, inner.counts.IsTally) ∧
      ((entries.filterMap id).map Entry.counts).sum.UpTo (items.map bound).sum := by
  induction items with
  | nil => exact ⟨[], rfl, by simp, Count.upTo_zero 0⟩
  | cons item items inductionHypothesis =>
    obtain ⟨read, first, upTo⟩ := each item (by simp)
    obtain ⟨entries, rest, tallies, sum⟩ :=
      inductionHypothesis fun other member => each other (List.mem_cons_of_mem _ member)
    refine ⟨read :: entries, ?_, ?_, ?_⟩
    · rw [List.mapM_cons, first, rest]
      rfl
    · cases read with
      | none => simpa using tallies
      | some entry =>
        intro inner member
        rcases List.mem_cons.mp member with rfl | later
        · exact (upTo inner rfl).tally
        · exact tallies inner later
    · rw [List.map_cons, List.sum_cons]
      cases read with
      | none => simpa using sum.mono (Nat.le_add_left _ _)
      | some entry => simpa using (upTo entry rfl).add sum

/-- A container of what does not leave a word together is made. -/
theorem Entry.aggregate_ends {kind : Kind} {name : String} {nested : List Entry} {bound : Nat}
    (each : ∀ inner ∈ nested, inner.counts.IsTally)
    (sum : (nested.map Entry.counts).sum.UpTo bound) (fits : bound < 2 ^ 63) :
    ∃ made, aggregate kind name nested = .ok made ∧ made.counts.UpTo bound := by
  have tallies : ∀ count ∈ nested.map Entry.counts, count.IsTally := by
    intro count member
    obtain ⟨inner, innerMember, rfl⟩ := List.mem_map.mp member
    exact each inner innerMember
  have total := Count.total_of_tallies tallies (sum.inRange fits)
  exact ⟨⟨kind, name, _, nested⟩, Fault.bind_eq_ok.mpr ⟨_, total, rfl⟩, sum⟩

namespace Settings

variable {settings : Settings} {files : MemoryFiles} {project path : Path} {names : List String}
  {name : String} {location : Location}

/-- Every source file below a project is recognised. -/
def Legible (settings : Settings) (project : Path) (files : MemoryFiles) : Prop :=
  ∀ names name bytes, files.bytesAt? (project.location ++ names ++ [name]) = some bytes →
    settings.supports ⟨name⟩ → ∃ contents entry, textOfBytes bytes = .ok contents ∧
      Source.recognize name contents = .ok (some entry)

/-- What is listed in a location makes a container if the readings of it end. -/
theorem listing_ends {compute : Path → Except Fault (Option Entry)} {kind : Kind}
    (fits : files.size < 2 ^ 63)
    (each : ∀ child, files.Holds (location ++ [child]) →
      Ends (compute (path.join ⟨child⟩)) (files.sizeBelow (location ++ [child]))) :
    ∃ entries made, ((files.childNames location).map fun child =>
        path.join ⟨child⟩).mapM compute = .ok entries ∧
      Entry.aggregate kind name (entries.filterMap id) = .ok made ∧
      made.counts.UpTo (files.sizeBelow location) := by
  rw [List.mapM_map]
  obtain ⟨entries, listed, tallies, sum⟩ := Ends.all fun child member =>
    each child (MemoryFiles.mem_childNames.mp member)
  have below := sum.mono (MemoryFiles.sum_sizeBelow (MemoryFiles.nodup_childNames files location))
  obtain ⟨made, aggregated, upTo⟩ := Entry.aggregate_ends tallies below
    ((MemoryFiles.sizeBelow_le_size files location).trans_lt fits)
  exact ⟨entries, made, listed, aggregated, upTo⟩

/-- A file of a project is read. -/
theorem readFile_ends (legible : settings.Legible project files) (undenied : files.denied = [])
    (here : project.At (names ++ [name]) path) :
    Ends (settings.readFile files.view path) (files.sizeBelow path.location) := by
  rw [readFile_view undenied here.isName here.fileName?]
  by_cases supported : settings.supports ⟨name⟩
  · rw [if_pos supported]
    cases contained : files.bytesAt? path.location with
    | none => exact ends_nothing _
    | some bytes =>
      have there : files.bytesAt? (project.location ++ names ++ [name]) = some bytes := by
        rw [List.append_assoc, ← here.location, contained]
      obtain ⟨contents, entry, text, recognized⟩ := legible names name bytes there supported
      simp only [text]
      refine ⟨some entry, recognized, ?_⟩
      rintro _ ⟨⟩
      exact (Source.recognize_size recognized).mono
        ((length_le_size text).trans (MemoryFiles.size_le_sizeBelow contained))
  · rw [if_neg supported]
    exact ends_nothing _

/-- A reading below a project ends. -/
theorem readLevels_ends (legible : settings.Legible project files) (closed : files.Closed)
    (undenied : files.denied = []) (fits : files.size < 2 ^ 63) (levels : Nat)
    (here : project.At (names ++ [name]) path) :
    Ends (settings.readLevels files.view levels path) (files.sizeBelow path.location) := by
  induction levels generalizing names name path with
  | zero => exact ends_nothing _
  | succ levels inductionHypothesis =>
    unfold readLevels
    split
    · exact ends_nothing _
    · split
      · next directory =>
        have listed := MemoryFiles.list_view undenied (MemoryFiles.isDirectory_view.mp directory)
        have each : ∀ child, files.Holds (path.location ++ [child]) →
            Ends (settings.readLevels files.view levels (path.join ⟨child⟩))
              (files.sizeBelow (path.location ++ [child])) := by
          intro child held
          have inside : path.location ≠ [] := by simp [here.location]
          have below := here.join (closed _ child inside held).2
          have same : (path.join ⟨child⟩).location = path.location ++ [child] := by
            rw [below.location, here.location, ← List.append_assoc]
          exact same ▸ inductionHypothesis below
        obtain ⟨entries, made, done, aggregated, upTo⟩ := listing_ends fits each
        rw [listed]
        refine ⟨some made, Fault.bind_eq_ok.mpr ⟨entries, done, Fault.bind_eq_ok.mpr
          ⟨made, aggregated, rfl⟩⟩, ?_⟩
        rintro _ ⟨⟩
        exact upTo
      · exact readFile_ends legible undenied here

/-- Reading ends wherever the files are legible and fit in a word, however deep they are nested. -/
theorem read_ends (legible : settings.Legible project files) (closed : files.Closed)
    (undenied : files.denied = []) (fits : files.size < 2 ^ 63)
    (here : project.At (names ++ [name]) path) :
    Ends (settings.read files.view path) (files.sizeBelow path.location) :=
  readLevels_ends legible closed undenied fits _ here

/-- A scan of a directory without configured modules ends with an entry. -/
theorem scan_ends (legible : settings.Legible project files) (closed : files.Closed)
    (undenied : files.denied = []) (fits : files.size < 2 ^ 63)
    (named : project.fileName?.isSome) (modules : settings.modules = [])
    (root : project.location ∈ files.directories) :
    ∃ entry, settings.scan files.view project = .ok (.ok entry) := by
  obtain ⟨top, ends⟩ := Option.isSome_iff_exists.mp named
  obtain ⟨-, located⟩ := location_ne_nil ends
  have isDirectory : files.view.isDirectory project = true :=
    MemoryFiles.isDirectory_view.mpr root
  have listed := MemoryFiles.list_view undenied root
  have each : ∀ child, files.Holds (project.location ++ [child]) →
      Ends (settings.read files.view (project.join ⟨child⟩))
        (files.sizeBelow (project.location ++ [child])) := by
    intro child held
    have top : project.At [] project := ⟨by simp⟩
    have below := top.join (closed _ child located held).2
    have same : (project.join ⟨child⟩).location = project.location ++ [child] := below.location
    exact same ▸ read_ends legible closed undenied fits below
  obtain ⟨entries, made, done, aggregated, -⟩ := listing_ends fits each
  refine ⟨made, ?_⟩
  unfold scan Files.present
  rw [isDirectory, Bool.true_or]
  simp only [Bool.not_true, Bool.false_eq_true, if_false]
  rw [readTop, if_pos (by simp [modules]), readChildren, listed]
  exact Fault.bind_eq_ok.mpr ⟨_, Fault.bind_eq_ok.mpr ⟨entries, done, rfl⟩,
    Fault.bind_eq_ok.mpr ⟨made, aggregated, rfl⟩⟩

end Settings

end CodeCensus
