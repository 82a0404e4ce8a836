import CodeCensus.Project.Reader
import CodeCensus.Proofs.Balance

/-!
# What is read is balanced

Every entry that comes from files asks for a balanced outline and contributes its counters. The
builders of entries derive counters from the nested entries, and only packages, source files and
modules are built at the top.
-/

namespace CodeCensus

open Outline (Balanced Sound)

namespace Entry

variable {entry : Entry} {nested : List Entry} {name : String}

/-- A unit other than a class or a function that sums up sound entries is sound, in words. -/
theorem aggregate_sound {kind : BranchKind} (plain : Kind.leavesRemainder (.branch kind) = false)
    (each : ∀ inner ∈ nested, Sound inner)
    (made : aggregate (.branch kind) name nested = .ok entry) :
    entry.name = name ∧ entry.kind = .branch kind ∧ Sound entry ∧ entry.counts.inRange := by
  obtain ⟨counts, totalled, same⟩ := Fault.bind_eq_ok.mp made
  obtain rfl : Entry.mk (.branch kind) name counts nested = entry := Except.ok.inj same
  obtain ⟨rfl, fits⟩ := Count.total_eq_ok totalled
  refine ⟨rfl, rfl, ⟨?_, ?_⟩, fits⟩
  · rw [Outline.ofEntry_branch]
    refine .branch ?_ fun child member => ?_
    · rw [List.map_map]
      exact congrArg List.sum (List.map_congr_left fun inner member => (each inner member).2.symm)
    · obtain ⟨inner, innerMember, rfl⟩ := List.mem_map.mp member
      exact (each inner innerMember).1
  · rw [Outline.ofEntry_branch]
    cases kind with
    | classLike => cases plain
    | _ => rfl

/-- A sound branch stays sound as a module. -/
theorem withKind_sound (sound : Sound entry) (branch : entry.kind.isLeaf = false) :
    Sound (entry.withKind .module) := by
  obtain ⟨kind, name, counts, nested⟩ := entry
  cases kind with
  | function => cases branch
  | branch kind =>
    obtain ⟨balanced, -⟩ := sound
    rw [Outline.ofEntry_branch, Outline.balanced_branch] at balanced
    refine ⟨?_, ?_⟩
    · rw [withKind, Outline.ofEntry_branch, Outline.balanced_branch]
      exact balanced
    · rw [withKind, Outline.ofEntry_branch]
      rfl

/-- A class with some methods is balanced, and contributes itself and its methods. -/
theorem ofClass_balanced (names : List String) :
    Balanced (Outline.ofEntry (.ofClass name (names.map .function))) ∧
      (Outline.ofEntry (.ofClass name (names.map .function))).label.contribution =
        ⟨1, names.length⟩ := by
  have methods : (names.map Entry.function).map Outline.ofEntry =
      names.map fun name => ⟨⟨.function, name, 0⟩, []⟩ := by
    simp [Entry.function, Function.comp_def]
  rw [ofClass, Outline.ofEntry_branch, methods]
  constructor
  · refine .branch ?_ fun child member => ?_
    · refine Count.ext ?_ ?_
      · rw [Count.sum_classes]
        simp [Function.comp_def, Facts.contribution]
      · rw [Count.sum_functions]
        simp [Function.comp_def, Facts.contribution]
    · obtain ⟨method, -, rfl⟩ := List.mem_map.mp member
      exact .function method
  · simp only [Facts.contribution, List.length_map]
    exact Count.ext (by simp) (by simp)

/-- A source file of classes is sound, and its counters are one class for each. -/
theorem sourceFile_sound
    (each : ∀ inner ∈ nested, ∃ (className : String) (names : List String),
      inner = .ofClass className (names.map .function))
    (made : sourceFile name nested = .ok entry) :
    entry.name = name ∧ entry.kind = .sourceFile ∧ Sound entry := by
  obtain ⟨functions, totalled, same⟩ := Fault.bind_eq_ok.mp made
  obtain rfl : Entry.mk .sourceFile name ⟨nested.length, functions.functions⟩ nested = entry :=
    Except.ok.inj same
  obtain ⟨rfl, -⟩ := Count.total_eq_ok totalled
  refine ⟨rfl, rfl, ?_, ?_⟩
  · rw [Outline.ofEntry_branch]
    have contributions : (nested.map Outline.ofEntry).map (fun child => child.label.contribution) =
        nested.map fun inner => (⟨1, inner.counts.functions⟩ : Count) := by
      rw [List.map_map]
      refine List.map_congr_left fun inner member => ?_
      obtain ⟨className, names, rfl⟩ := each inner member
      rw [Function.comp_apply, (ofClass_balanced names).2]
      simp [ofClass]
    refine .branch ?_ fun child member => ?_
    · rw [contributions]
      refine Count.ext ?_ ?_
      · simp [Count.sum_classes, Function.comp_def]
      · simp [Count.sum_functions, Function.comp_def]
    · obtain ⟨inner, innerMember, rfl⟩ := List.mem_map.mp member
      obtain ⟨className, names, rfl⟩ := each inner innerMember
      exact (ofClass_balanced names).1
  · rw [Outline.ofEntry_branch]
    rfl

end Entry

/-- What is recognised in a source file is sound. -/
theorem Source.recognize_sound {fileName contents : String} {entry : Entry}
    (recognized : recognize fileName contents = .ok (some entry)) :
    entry.name = fileName ∧ entry.kind = .sourceFile ∧ Sound entry := by
  unfold recognize at recognized
  split at recognized
  · cases recognized
  · next types _ =>
    obtain ⟨classes, each, rest⟩ := Fault.bind_eq_ok.mp recognized
    obtain ⟨made, built, same⟩ := Fault.bind_eq_ok.mp rest
    obtain rfl : made = entry := Option.some.inj (Except.ok.inj same)
    refine Entry.sourceFile_sound (fun inner member => ?_) built
    obtain ⟨type, -, typed⟩ := Fault.mapM_source each member
    obtain ⟨methods, -, same⟩ := Fault.bind_eq_ok.mp typed
    refine ⟨String.ofList type.declaration.name, methods.map String.ofList, ?_⟩
    rw [List.map_map]
    exact (Except.ok.inj same).symm

namespace Settings

variable {settings : Settings} {files : Files} {path : Path} {entry : Entry}

/-- What is read from a file is a source file in balance, under the name of the file. -/
theorem readFile_sound (done : settings.readFile files path = .ok (some entry)) :
    entry.name = path.fileName ∧ entry.kind = .sourceFile ∧ Sound entry := by
  unfold readFile at done
  split at done
  · split at done
    · exact Source.recognize_sound done
    · cases done
  · cases done

/-- Whatever is read is sound, named like its path, and a package or a source file. -/
theorem readLevels_sound {levels : Nat}
    (done : settings.readLevels files levels path = .ok (some entry)) :
    entry.name = path.fileName ∧ (entry.kind = .package ∨ entry.kind = .sourceFile) ∧
      Sound entry := by
  induction levels generalizing path entry with
  | zero => cases done
  | succ levels inductionHypothesis =>
    unfold readLevels at done
    split at done
    · cases done
    · split at done
      · split at done
        · cases done
        · next children _ =>
          obtain ⟨entries, each, rest⟩ := Fault.bind_eq_ok.mp done
          obtain ⟨package, made, same⟩ := Fault.bind_eq_ok.mp rest
          obtain rfl : package = entry := Option.some.inj (Except.ok.inj same)
          have nested : ∀ inner ∈ entries.filterMap id, Sound inner := by
            intro inner member
            obtain ⟨found, foundMember, rfl⟩ := List.mem_filterMap.mp member
            obtain ⟨child, -, read⟩ := Fault.mapM_source each foundMember
            exact (inductionHypothesis read).2.2
          obtain ⟨name, kind, sound, -⟩ := Entry.aggregate_sound rfl nested made
          exact ⟨name, .inl kind, sound⟩
      · obtain ⟨name, kind, sound⟩ := readFile_sound done
        exact ⟨name, .inr kind, sound⟩

/-- What is read from a path is in balance, under the name of the path. -/
theorem read_sound (done : settings.read files path = .ok (some entry)) :
    entry.name = path.fileName ∧ (entry.kind = .package ∨ entry.kind = .sourceFile) ∧
      Sound entry :=
  readLevels_sound done

private theorem readModule_sound (done : settings.readModule files path = .ok (some entry)) :
    Sound entry := by
  unfold readModule at done
  split at done
  · obtain ⟨found, read, same⟩ := Fault.bind_eq_ok.mp done
    obtain ⟨inner, rfl, rfl⟩ := Option.map_eq_some_iff.mp (Except.ok.inj same)
    obtain ⟨-, kind, sound⟩ := read_sound read
    refine Entry.withKind_sound sound ?_
    rcases kind with kind | kind <;> rw [kind] <;> rfl
  · cases done

private theorem readTop_sound {nested : List Entry}
    (done : settings.readTop files path = .ok (.ok nested)) : ∀ inner ∈ nested, Sound inner := by
  intro inner member
  unfold readTop at done
  split at done
  · unfold readChildren at done
    split at done
    · cases done
    · obtain ⟨entries, each, same⟩ := Fault.bind_eq_ok.mp done
      obtain rfl : entries.filterMap id = nested := Except.ok.inj (Except.ok.inj same)
      obtain ⟨found, foundMember, rfl⟩ := List.mem_filterMap.mp member
      obtain ⟨child, -, read⟩ := Fault.mapM_source each foundMember
      exact (read_sound read).2.2
  · obtain ⟨entries, each, same⟩ := Fault.bind_eq_ok.mp done
    obtain rfl : entries.filterMap id = nested := Except.ok.inj (Except.ok.inj same)
    obtain ⟨found, foundMember, rfl⟩ := List.mem_filterMap.mp member
    obtain ⟨name, -, read⟩ := Fault.mapM_source each foundMember
    exact readModule_sound read

/-- What a scan finds is a sound module named like the project, in words. -/
theorem scan_sound (done : settings.scan files path = .ok (.ok entry)) :
    entry.name = projectName path ∧ entry.kind = .module ∧ Sound entry ∧
      entry.counts.inRange := by
  unfold scan at done
  split at done
  · cases done
  · split at done
    · cases done
    · obtain ⟨top, read, rest⟩ := Fault.bind_eq_ok.mp done
      cases top with
      | error failure => cases rest
      | ok nested =>
        obtain ⟨scanned, made, same⟩ := Fault.bind_eq_ok.mp rest
        obtain rfl : scanned = entry := Except.ok.inj (Except.ok.inj same)
        exact Entry.aggregate_sound rfl (readTop_sound read) made

end Settings

end CodeCensus
