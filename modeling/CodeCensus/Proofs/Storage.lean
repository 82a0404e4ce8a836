import CodeCensus.Files.Memory
import CodeCensus.Proofs.Documents
import CodeCensus.Settings.Loading

/-!
# Settings stored and loaded

Settings stored as the global file are what is loaded: the file says something about every setting,
so nothing of the standard settings is left, and no later layer has a word. Only the expansion of
module paths comes after it, and it changes none without a dollar sign or a tilde at the front.
-/

namespace CodeCensus

variable {environment : Environment} {files : Files} {globalFile : Path} {settings : Settings}

/-! ### Environments without a word -/

/-- No variable of an environment speaks of settings: no name starts, capitals aside, as their names
do. -/
def Environment.Quiet (environment : Environment) : Prop :=
  ∀ named ∈ environment.bindings, ¬variableStart <+: named.1.toList.map smallForm

private theorem settingOf?_eq_none {name : String}
    (other : ¬variableStart <+: name.toList.map smallForm) :
    settingOf? name = none := by
  rw [settingOf?, Option.map_eq_none_iff]
  cases stripped : variableStart.isPrefixOf? (name.toList.map smallForm) with
  | none => rfl
  | some rest => exact absurd ⟨rest, List.isPrefixOf?_eq_some_iff_append_eq.mp stripped⟩ other

private theorem foldlM_placeVariable {bindings : List (String × String)}
    (quiet : ∀ named ∈ bindings, ¬variableStart <+: named.1.toList.map smallForm)
    (tree : VariableTree) : bindings.foldlM placeVariable tree = .ok tree := by
  induction bindings with
  | nil => rfl
  | cons named bindings inductionHypothesis =>
    obtain ⟨first, others⟩ := List.forall_mem_cons.mp quiet
    have unchanged : placeVariable tree named = .ok tree := by
      rw [placeVariable, settingOf?_eq_none first]
    rw [List.foldlM_cons, unchanged]
    exact inductionHypothesis others

/-- A quiet environment says nothing. -/
theorem Environment.Quiet.layer (quiet : environment.Quiet) :
    Layer.ofEnvironment environment = .ok .silent := by
  rw [Layer.ofEnvironment, Environment.settings, foldlM_placeVariable quiet]
  rfl

/-! ### Module paths without variables -/

namespace Path

private theorem substitute?_of_not_mem {text : List Char} {steps : Nat} (plain : '$' ∉ text)
    (enough : text.length < steps) : substitute? environment steps text = some text := by
  induction text generalizing steps with
  | nil =>
    obtain ⟨spare, rfl⟩ := Nat.exists_eq_add_of_lt enough
    rfl
  | cons c text inductionHypothesis =>
    obtain ⟨first, others⟩ := not_or.mp (mt List.mem_cons.mpr plain)
    obtain ⟨spare, rfl⟩ := Nat.exists_eq_add_of_lt enough
    rw [substitute?, if_neg (Ne.symm first), inductionHypothesis others (by simp; omega)]
    rfl

private theorem expandTilde_of_head {text : List Char} (front : text.head? ≠ some '~') :
    expandTilde environment text = text := by
  cases text with
  | nil => rfl
  | cons c text =>
    rw [expandTilde]
    simpa using front

/-- A path without dollar signs and without a tilde at the front stays as it is. -/
theorem expand_of_plain {text : String} (plain : '$' ∉ text.toList)
    (front : text.toList.head? ≠ some '~') : expand environment text = text := by
  rw [expand]
  simp only [substitute?_of_not_mem plain (Nat.lt_succ_self _), Bool.and_not_self,
    expandTilde_of_head front, String.ofList_toList]
  rfl

end Path

/-! ### The global file -/

namespace MemoryFiles

variable {stored : MemoryFiles} {location : Location}

private theorem bytesAt?_addFile (bytes : ByteArray) :
    (stored.addFile location bytes).bytesAt? location = some bytes := by
  simp [bytesAt?, addFile]

/-- A text that was stored under a path is there, and is read back unless this is denied. -/
theorem view_addFile (stored : MemoryFiles) (path : Path) (text : String)
    (allowed : path.location ∉ stored.denied) :
    (stored.addFile path.location text.toUTF8).view.present path = true ∧
      (stored.addFile path.location text.toUTF8).view.read path = .ok text := by
  have same : (stored.addFile path.location text.toUTF8).denied = stored.denied := by
    unfold addFile addDirectory
    split <;> rfl
  have decoded : String.fromUTF8? text.toUTF8 = some text := dif_pos text.isValidUTF8
  constructor
  · simp [Files.present, view, bytesAt?_addFile]
  · simp only [view, bytesAt?_addFile, same, List.contains_eq_mem, allowed, decide_false,
      textOfBytes, decoded]
    rfl

end MemoryFiles

namespace Settings

/-- No module path holds anything that is expanded. -/
def PlainModules (settings : Settings) : Prop :=
  ∀ text ∈ settings.modules, '$' ∉ text.toList ∧ text.toList.head? ≠ some '~'

private theorem PlainModules.expandModules (plain : settings.PlainModules) :
    settings.expandModules environment = settings := by
  have same : settings.modules.map (Path.expand environment) = settings.modules :=
    (List.map_congr_left fun text member =>
      Path.expand_of_plain (plain text member).1 (plain text member).2).trans (List.map_id _)
  rw [Settings.expandModules, same]

private theorem replaceBy_silent (settings : Settings) : settings.replaceBy .silent = settings :=
  rfl

/-- The global file holds a document, and nothing else speaks of settings: neither a file of the
project nor a variable. -/
structure HoldsOnly (files : Files) (environment : Environment) (globalFile : Path)
    (project : Option Path) (document : String) : Prop where
  there : files.present globalFile = true
  stored : files.read globalFile = .ok document
  alone : ∀ directory ∈ project, files.present (projectSettingsPath directory) = false
  quiet : environment.Quiet

private theorem ofFiles_document {project : Option Path} (there : files.present globalFile = true)
    (stored : files.read globalFile = .ok settings.document)
    (alone : ∀ directory ∈ project, files.present (projectSettingsPath directory) = false) :
    ofFiles files (some globalFile) project = .ok settings := by
  have shared : Layer.loadIfPresent files (some globalFile) = .ok settings.layer := by
    simp only [Layer.loadIfPresent, if_pos there, Layer.load, stored, parse?_document]
  have own : Layer.loadIfPresent files (project.map projectSettingsPath) = .ok .silent := by
    cases project with
    | none => rfl
    | some directory => simp [Layer.loadIfPresent, alone directory rfl]
  rw [ofFiles, shared, own]
  rfl

/-- What the files leave is loaded with the word of the environment over it, and expanded. -/
theorem load_of_files {project : Option Path} {spoken : Layer}
    (left : ofFiles files (some globalFile) project = .ok settings)
    (speaks : Layer.ofEnvironment environment = .ok spoken) :
    Settings.load files environment (some globalFile) project =
      .ok (.ok ((settings.replaceBy spoken).expandModules environment)) := by
  simp only [Settings.load, left, speaks]
  rfl

/-- Settings are shown as a document unless a text has more quotes of a kind in a row than the writer
counts. Stored as the global file, the document is loaded as the same settings, if module paths hold
nothing to expand and nothing else speaks of settings. -/
theorem stored_settings_are_loaded (settings : Settings) :
    (settings.toDocument = .error .quoteOverflow ↔ ∃ text ∈ settings.allTexts,
      ∃ mark ∈ ['\'', '"'], List.replicate (Toml.runLimit + 1) mark <:+: text.toList) ∧
    ((∀ text ∈ settings.allTexts, Toml.Quotable text) → ∃ document,
      settings.toDocument = .ok document ∧ (settings.PlainModules →
        ∀ files environment globalFile project,
          HoldsOnly files environment globalFile project document →
            Settings.load files environment (some globalFile) project = .ok (.ok settings))) := by
  rw [toDocument_eq]
  refine ⟨?_, fun quotable => ⟨settings.document, if_pos quotable, ?_⟩⟩
  · split
    · next quotable =>
      simp only [reduceCtorEq, false_iff]
      rintro ⟨text, member, mark, quote, row⟩
      exact quotable text member mark quote row
    · next overflows =>
      rw [eq_self, true_iff]
      simpa only [Toml.Quotable, Classical.not_forall, Classical.not_not, exists_prop]
        using overflows
  · intro plain files environment globalFile project ⟨there, stored, alone, quiet⟩
    rw [load_of_files (ofFiles_document there stored alone) quiet.layer, replaceBy_silent,
      plain.expandModules]

/-- Texts with quotes of both kinds, line ends, control characters and letters beyond ASCII come back,
a text that stands twice does so twice, and an empty list stays empty. -/
theorem quotes_and_line_ends_come_back :
    let settings : Settings :=
      ⟨["java", "java"], [], ["it's", "a \"b\"\nc", "'größe'\x01"], ⟨false, true⟩⟩
    let environment : Environment := ⟨[("HOME", "/h"), ("LANG", "de")], none⟩
    let document := "supported_extensions = [\n    \"java\",\n    \"java\",\n]\n" ++
      "excluded_dirs = []\n" ++
      "modules = [\n    \"it's\",\n    \"\"\"\na \"b\"\nc\"\"\",\n    \"'größe'\\u0001\",\n]\n" ++
      "\n[render]\nshow_functions = false\nshow_counts = true\n"
    let files := (MemoryFiles.empty.addFile ["/", "g.toml"] document.toUTF8).view
    (∀ text ∈ settings.allTexts, Toml.Quotable text) ∧ settings.PlainModules ∧
      settings.toDocument = .ok document ∧
      HoldsOnly files environment ⟨"/g.toml"⟩ (some ⟨"/p"⟩) document ∧
      Settings.load files environment (some ⟨"/g.toml"⟩) (some ⟨"/p"⟩) = .ok (.ok settings) := by
  intro settings environment document files
  have quotable : ∀ text ∈ settings.allTexts, Toml.Quotable text := by decide +kernel
  have plain : settings.PlainModules := by unfold PlainModules; decide +kernel
  have computed : settings.toDocument.toOption = some document := by decide +kernel
  have quiet : environment.Quiet := by unfold Environment.Quiet; decide +kernel
  have alone : files.present (projectSettingsPath ⟨"/p"⟩) = false := by decide +kernel
  obtain ⟨there, stored⟩ := MemoryFiles.empty.view_addFile ⟨"/g.toml"⟩ document List.not_mem_nil
  have holds : HoldsOnly files environment ⟨"/g.toml"⟩ (some ⟨"/p"⟩) document :=
    ⟨there, stored, by rintro _ ⟨⟩; exact alone, quiet⟩
  obtain ⟨other, shown, loads⟩ := (stored_settings_are_loaded settings).2 quotable
  rw [shown] at computed
  obtain rfl : other = document := Option.some.inj computed
  exact ⟨quotable, plain, shown, holds, loads plain _ _ _ _ holds⟩

/-- A row of quotes that is too long keeps settings without a file from being shown, and a variable
with a small name changes the standard settings when they are loaded. -/
theorem long_row_and_small_name :
    let row := String.ofList (List.replicate 256 '"')
    let quotes : Settings := { standard with excludedDirs := [row] }
    let environment : Environment := ⟨[("strucount_modules", "core")], none⟩
    quotes.PlainModules ∧ quotes.toDocument = .error .quoteOverflow ∧
      standard.PlainModules ∧
      (∀ named ∈ environment.bindings, ¬"STRUCOUNT_".toList <+: named.1.toList) ∧
      ∃ document, standard.toDocument = .ok document ∧
        Settings.load (MemoryFiles.empty.addFile ["/", "g.toml"] document.toUTF8).view environment
          (some ⟨"/g.toml"⟩) none = .ok (.ok { standard with modules := ["core"] }) := by
  intro row quotes environment
  have uncounted : ¬∀ text ∈ quotes.allTexts, Toml.Quotable text := by
    intro quotable
    apply quotable row (by simp [quotes, allTexts]) '"' (by simp)
    rw [String.toList_ofList]
    exact List.infix_refl _
  have quotable : ∀ text ∈ standard.allTexts, Toml.Quotable text := by decide +kernel
  have speaks : Layer.ofEnvironment environment =
      .ok ⟨none, none, some ["core"], none, none⟩ := by rfl
  obtain ⟨there, stored⟩ :=
    MemoryFiles.empty.view_addFile ⟨"/g.toml"⟩ standard.document List.not_mem_nil
  have left : ofFiles _ _ none = _ := ofFiles_document there stored (by simp)
  exact ⟨by simp [PlainModules, quotes, standard], by rw [toDocument_eq, if_neg uncounted],
    by simp [PlainModules, standard], by decide +kernel, standard.document,
    by rw [toDocument_eq, if_pos quotable], load_of_files left speaks⟩

end Settings

end CodeCensus
