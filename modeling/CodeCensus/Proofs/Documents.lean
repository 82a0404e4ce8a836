import CodeCensus.Proofs.Quotation
import CodeCensus.Settings.Document

/-!
# Documents read back

The document that shows settings reads as these settings. Its arrays hold the texts in quotes, on one
line or on a line each; its keys need no quotes; and it has more characters than the reader needs
steps. There is no document exactly if a text has more quotes of a kind in a row than the writer
counts.
-/

namespace CodeCensus

namespace Toml

variable {item : String} {text rest : List Char} {steps nesting : Nat}

/-! ### Arrays of texts -/

private theorem readValue?_quoted (text : String) (unquoted : Unquoted rest) :
    readValue? (steps + 1) nesting ((quoted text).toList ++ rest) = some (.text text, rest) := by
  have reads := readQuoted?_quoted text unquoted
  obtain ⟨mark, body, shape, rfl | rfl⟩ := exists_quoted text <;>
    · rw [shape, List.cons_append] at reads ⊢
      simp only [readValue?, reads, Option.map_some, String.ofList_toList]

/-- In front of a quoted text there is nothing to skip. -/
theorem skipFiller_quoted (text : String) :
    skipFiller false ((quoted text).toList ++ rest) = (quoted text).toList ++ rest := by
  obtain ⟨mark, body, shape, rfl | rfl⟩ := exists_quoted text <;>
    simp [shape, skipFiller]

private theorem readItems?_close (front : skipFiller false text = ']' :: rest) :
    readItems? (steps + 1) nesting text = some ([], rest) := by
  simp only [readItems?, front]

private theorem readItems?_last
    (front : skipFiller false text = (quoted item).toList ++ ']' :: rest) :
    readItems? (steps + 2) nesting text = some ([.text item], rest) := by
  have value : readValue? (steps + 1) nesting ((quoted item).toList ++ ']' :: rest) = _ :=
    readValue?_quoted item (by simp [Unquoted])
  obtain ⟨mark, body, shape, rfl | rfl⟩ := exists_quoted item <;>
    · rw [shape, List.cons_append] at front value
      simp [readItems?, front, value, skipFiller]

private theorem readItems?_cons {values : List Value} {after : List Char}
    (front : skipFiller false text = (quoted item).toList ++ ',' :: rest)
    (more : readItems? (steps + 1) nesting rest = some (values, after)) :
    readItems? (steps + 2) nesting text = some (.text item :: values, after) := by
  have value : readValue? (steps + 1) nesting ((quoted item).toList ++ ',' :: rest) = _ :=
    readValue?_quoted item (by simp [Unquoted])
  obtain ⟨mark, body, shape, rfl | rfl⟩ := exists_quoted item <;>
    · rw [shape, List.cons_append] at front value
      rw [readItems?, front]
      simp [value, skipFiller, more]

/-- Quoted texts on lines of their own, each with a comma behind it. -/
def rows (texts : List String) : List Char :=
  texts.flatMap fun text => ("    " ++ quoted text ++ ",\n").toList

private theorem readItems?_rows (texts : List String) (enough : texts.length < steps) :
    readItems? steps nesting ('\n' :: (rows texts ++ ']' :: rest)) =
      some (texts.map .text, rest) := by
  induction texts generalizing steps with
  | nil =>
    obtain ⟨spare, rfl⟩ := Nat.exists_eq_add_of_lt enough
    exact readItems?_close (by simp [rows, skipFiller])
  | cons text texts inductionHypothesis =>
    have front : skipFiller false ('\n' :: (rows (text :: texts) ++ ']' :: rest)) =
        (quoted text).toList ++ ',' :: '\n' :: (rows texts ++ ']' :: rest) := by
      rw [← skipFiller_quoted]
      simp [rows, skipFiller]
    obtain ⟨spare, rfl⟩ := Nat.exists_eq_add_of_lt enough
    rw [List.length_cons, Nat.add_right_comm texts.length]
    exact readItems?_cons front (inductionHypothesis (by omega))

private theorem length_le_rows (texts : List String) : texts.length ≤ (rows texts).length := by
  induction texts with
  | nil => exact Nat.le_refl 0
  | cons text texts inductionHypothesis =>
    have front : 1 ≤ ("    " ++ quoted text ++ ",\n").toList.length := by simp
    rw [rows, List.flatMap_cons, List.length_append, List.length_cons, Nat.add_comm]
    exact Nat.add_le_add front inductionHypothesis

/-- An array is a pair of brackets, around nothing, around one text, or around the lines of more. -/
theorem toList_layOutArray (texts : List String) : ∃ inside,
    (layOutArray (texts.map quoted)).toList = '[' :: (inside ++ [']']) ∧
      ((texts = [] ∧ inside = []) ∨ (∃ text, texts = [text] ∧ inside = (quoted text).toList) ∨
        inside = '\n' :: rows texts) := by
  match texts with
  | [] => exact ⟨[], rfl, .inl ⟨rfl, rfl⟩⟩
  | [text] => exact ⟨_, by simp [layOutArray], .inr (.inl ⟨text, rfl, rfl⟩)⟩
  | first :: second :: more =>
    refine ⟨_, ?_, .inr (.inr rfl)⟩
    simp [layOutArray, rows, String.toList_join, List.flatMap_map]

/-- A written value reads back in enough steps, whatever follows it, and starts with no blank. -/
structure Writes (written : String) (value : Value) (enough : Nat) : Prop where
  tight : ∀ rest, Text.skipSpace (written.toList ++ rest) = written.toList ++ rest
  reads : ∀ steps, enough ≤ steps → ∀ rest,
    readValue? steps 0 (written.toList ++ rest) = some (value, rest)

private theorem readValue?_array {items : List Value}
    (reads : readItems? steps 1 text = some (items, rest)) :
    readValue? (steps + 1) 0 ('[' :: text) = some (.array false items, rest) := by
  rw [readValue?, if_pos (by decide), reads]
  rfl

/-- An array of quoted texts reads back as these texts. -/
theorem writes_layOutArray (texts : List String) :
    Writes (layOutArray (texts.map quoted)) (.array false (texts.map .text)) (texts.length + 3) where
  tight rest := by
    obtain ⟨inside, shape, -⟩ := toList_layOutArray texts
    rw [shape]
    rfl
  reads steps enough rest := by
    obtain ⟨spare, rfl⟩ := Nat.exists_eq_add_of_le' enough
    obtain ⟨inside, shape, content⟩ := toList_layOutArray texts
    rw [shape, List.cons_append, List.append_assoc, ← Nat.add_assoc]
    apply readValue?_array
    rcases content with ⟨rfl, rfl⟩ | ⟨text, rfl, rfl⟩ | rfl
    · exact readItems?_close rfl
    · exact readItems?_last (skipFiller_quoted text)
    · exact readItems?_rows texts (by omega)

private theorem writes_boolean (value : Bool) : Writes (writeBoolean value) (.boolean value) 1 where
  tight rest := by cases value <;> rfl
  reads steps enough rest := by
    obtain ⟨spare, rfl⟩ := Nat.exists_eq_add_of_le' enough
    cases value <;> simp [writeBoolean, readValue?]

private theorem length_le_layOutArray (texts : List String) :
    texts.length ≤ (layOutArray (texts.map quoted)).toList.length := by
  obtain ⟨inside, shape, content⟩ := toList_layOutArray texts
  rw [shape]
  rcases content with ⟨rfl, -⟩ | ⟨text, rfl, -⟩ | rfl
  · simp
  · simp
  · have many := length_le_rows texts
    rw [List.length_cons, List.length_append, List.length_cons]
    omega

/-! ### Lines -/

/-- A key that needs no quotes. -/
def Bare (key : String) : Prop :=
  key ≠ "" ∧ key.toList.all isBareKey = true

instance (key : String) : Decidable (Bare key) :=
  inferInstanceAs (Decidable (_ ∧ _))

private theorem Bare.isBareKey {key : String} (bare : Bare key) :
    ∀ c ∈ key.toList, isBareKey c = true :=
  List.all_eq_true.mp bare.2

/-- A bare key starts with a character that no blank, comment, quote or bracket starts with. -/
theorem Bare.exists_cons {key : String} (bare : Bare key) : ∃ c more, key.toList = c :: more ∧
    c ∉ [' ', '\t', '\n', '\r', '#', '"', '\'', '['] := by
  cases shape : key.toList with
  | nil => exact absurd (String.toList_eq_nil_iff.mp shape) bare.1
  | cons c more =>
    have others : ([' ', '\t', '\n', '\r', '#', '"', '\'', '['].any Toml.isBareKey) = false := by
      decide
    refine ⟨c, more, rfl, fun member => ?_⟩
    exact List.any_eq_false.mp others c member (bare.isBareKey c (by simp [shape]))

private theorem readKeyPart?_bare {key : String} (bare : Bare key)
    (follows : ∀ c ∈ rest.head?, isBareKey c = false) :
    readKeyPart? (key.toList ++ rest) = some (key, rest) := by
  have spans : (key.toList ++ rest).takeWhile isBareKey = key.toList ∧
      (key.toList ++ rest).dropWhile isBareKey = rest := by
    rw [List.takeWhile_append_of_pos bare.isBareKey, List.dropWhile_append_of_pos bare.isBareKey]
    cases rest with
    | nil => simp
    | cons c rest => simp [follows c rfl]
  obtain ⟨c, more, shape, apart⟩ := bare.exists_cons
  simp only [List.mem_cons, not_or] at apart
  rw [readKeyPart?, spans.1, spans.2]
  · simp [bare.1]
  · simp [shape, apart]
  · simp [shape, apart]

/-- A bare key is one part, up to the next character that no key has and that no dot is. -/
theorem readKey?_bare {key : String} (bare : Bare key)
    (follows : ∀ c ∈ rest.head?, isBareKey c = false)
    (last : ∀ more, Text.skipSpace rest ≠ '.' :: more) :
    readKey? (key.toList ++ rest) = some ([key], Text.skipSpace rest) := by
  have tight : Text.skipSpace (key.toList ++ rest) = key.toList ++ rest := by
    obtain ⟨c, more, shape, apart⟩ := bare.exists_cons
    simp only [List.mem_cons, not_or] at apart
    simp [shape, Text.skipSpace, apart]
  rw [readKey?, nestingLimit, readKeyParts?, tight, readKeyPart?_bare bare follows]
  cases after : Text.skipSpace rest with
  | nil => simp [after]
  | cons c more =>
    have dot : c ≠ '.' := by
      rintro rfl
      exact last more after
    simp [after, dot]

/-- A line that gives a key a value. -/
def pairLine (key written : String) : String :=
  key ++ " = " ++ written ++ "\n"

private theorem endLine?_newline : endLine? ('\n' :: rest) = some rest :=
  rfl

private theorem readLine?_pairLine {key written : String} {value : Value} {enough : Nat}
    (bare : Bare key)
    (writes : Writes written value enough) (affords : enough ≤ steps) :
    readLine? steps ((pairLine key written).toList ++ rest) = some (.pair [key] value, rest) := by
  have shown : (pairLine key written).toList ++ rest =
      key.toList ++ ' ' :: '=' :: ' ' :: (written.toList ++ '\n' :: rest) := by
    simp [pairLine]
  have named : readKey? (key.toList ++ ' ' :: '=' :: ' ' :: (written.toList ++ '\n' :: rest)) =
      some ([key], '=' :: ' ' :: (written.toList ++ '\n' :: rest)) :=
    readKey?_bare bare (by simp; decide) (by simp [Text.skipSpace])
  have spaced : Text.skipSpace (' ' :: (written.toList ++ '\n' :: rest)) =
      written.toList ++ '\n' :: rest := writes.tight _
  obtain ⟨c, more, shape, apart⟩ := bare.exists_cons
  simp only [List.mem_cons, not_or] at apart
  rw [shown, readLine?, named]
  · simp [expect?, spaced, writes.reads steps affords, endLine?_newline]
  · simp [shape, apart]
  · simp [shape, apart]

private theorem readLine?_header {key : String} (bare : Bare key) :
    readLine? steps (("[" ++ key ++ "]\n").toList ++ rest) = some (.table [key], rest) := by
  have named : readKey? (key.toList ++ ']' :: '\n' :: rest) =
      some ([key], ']' :: '\n' :: rest) :=
    readKey?_bare bare (by simp; decide) (by simp [Text.skipSpace])
  have shown : ("[" ++ key ++ "]\n").toList ++ rest =
      '[' :: (key.toList ++ ']' :: '\n' :: rest) := by
    simp
  obtain ⟨c, more, shape, apart⟩ := bare.exists_cons
  simp only [List.mem_cons, not_or] at apart
  rw [shown, readLine?, named]
  · simp [expect?, endLine?_newline]
  · simp [shape, apart]

private theorem readLines?_cons {line : Line} {lines : List Line} {start : List Char}
    (nonempty : start ≠ []) (front : skipFiller false text = start)
    (reads : readLine? (2 * steps + 2) start = some (line, rest))
    (more : readLines? steps rest = some lines) :
    readLines? (steps + 1) text = some (line :: lines) := by
  rw [readLines?, front]
  cases start with
  | nil => exact absurd rfl nonempty
  | cons => simp [reads, more]

private theorem readLines?_pairLine {key written : String} {value : Value} {enough : Nat}
    {lines : List Line} (bare : Bare key) (writes : Writes written value enough)
    (affords : enough ≤ 2 * steps + 2) (more : readLines? steps rest = some lines) :
    readLines? (steps + 1) ((pairLine key written).toList ++ rest) =
      some (.pair [key] value :: lines) := by
  refine readLines?_cons (by simp [pairLine]) ?_ (readLine?_pairLine bare writes affords) more
  obtain ⟨c, more, shape, apart⟩ := bare.exists_cons
  simp only [List.mem_cons, not_or] at apart
  simp [pairLine, shape, skipFiller, apart]

/-- A header may stand after an empty line. -/
theorem readLines?_header {key : String} {lines : List Line} (bare : Bare key)
    (more : readLines? steps rest = some lines) :
    readLines? (steps + 1) (("\n[" ++ key ++ "]\n").toList ++ rest) =
      some (.table [key] :: lines) := by
  refine readLines?_cons ?_ ?_ (readLine?_header bare) more
  · simp
  · simp [skipFiller]

/-! ### Arrays of any texts -/

private theorem mapM_quoteText (texts : List String) :
    texts.mapM quoteText = if ∀ text ∈ texts, Quotable text then .ok (texts.map quoted)
      else .error .quoteOverflow := by
  induction texts with
  | nil => simp; rfl
  | cons text texts inductionHypothesis =>
    simp only [List.mapM_cons, quoteText_eq, inductionHypothesis, List.forall_mem_cons]
    by_cases first : Quotable text
    · by_cases others : ∀ text ∈ texts, Quotable text
      · rw [if_pos first, if_pos others, if_pos ⟨first, others⟩]
        rfl
      · rw [if_pos first, if_neg others, if_neg (mt And.right others)]
        rfl
    · rw [if_neg first, if_neg (mt And.left first)]
      rfl

private theorem writeTexts_eq (texts : List String) :
    writeTexts texts = if ∀ text ∈ texts, Quotable text then .ok (layOutArray (texts.map quoted))
      else .error .quoteOverflow := by
  rw [writeTexts, mapM_quoteText]
  split <;> rfl

end Toml

namespace Settings

open Toml

variable {settings : Settings}

/-- The texts that settings hold. -/
def allTexts (settings : Settings) : List String :=
  settings.supportedExtensions ++ settings.excludedDirs ++ settings.modules

/-- The document that settings are shown as. -/
def document (settings : Settings) : String :=
  pairLine "supported_extensions" (layOutArray (settings.supportedExtensions.map quoted)) ++
    pairLine "excluded_dirs" (layOutArray (settings.excludedDirs.map quoted)) ++
    pairLine "modules" (layOutArray (settings.modules.map quoted)) ++
    "\n[" ++ "render" ++ "]\n" ++
    pairLine "show_functions" (writeBoolean settings.drawing.showFunctions) ++
    pairLine "show_counts" (writeBoolean settings.drawing.showCounts)

/-- Settings are written exactly if all of their texts can be quoted. -/
theorem toDocument_eq (settings : Settings) : settings.toDocument =
    if ∀ text ∈ settings.allTexts, Quotable text then .ok settings.document
    else .error .quoteOverflow := by
  simp only [toDocument, writeTexts_eq, allTexts, List.forall_mem_append]
  by_cases extensions : ∀ text ∈ settings.supportedExtensions, Quotable text
  · by_cases directories : ∀ text ∈ settings.excludedDirs, Quotable text
    · by_cases modules : ∀ text ∈ settings.modules, Quotable text
      · rw [if_pos extensions, if_pos directories, if_pos modules,
          if_pos ⟨⟨extensions, directories⟩, modules⟩]
        exact congrArg Except.ok (String.toList_inj.mp (by simp [document, pairLine]))
      · rw [if_pos extensions, if_pos directories, if_neg modules, if_neg (mt And.right modules)]
        rfl
    · rw [if_pos extensions, if_neg directories, if_neg (mt (And.right ∘ And.left) directories)]
      rfl
  · rw [if_neg extensions, if_neg (mt (And.left ∘ And.left) extensions)]
    rfl

/-- The layer that says all that settings say. -/
def layer (settings : Settings) : Layer where
  supportedExtensions := some settings.supportedExtensions
  excludedDirs := some settings.excludedDirs
  modules := some settings.modules
  showFunctions := some settings.drawing.showFunctions
  showCounts := some settings.drawing.showCounts

/-- The document in lines. -/
theorem toList_document (settings : Settings) : settings.document.toList =
    (pairLine "supported_extensions"
      (layOutArray (settings.supportedExtensions.map quoted))).toList ++
    ((pairLine "excluded_dirs" (layOutArray (settings.excludedDirs.map quoted))).toList ++
    ((pairLine "modules" (layOutArray (settings.modules.map quoted))).toList ++
    (("\n[" ++ "render" ++ "]\n").toList ++
    ((pairLine "show_functions" (writeBoolean settings.drawing.showFunctions)).toList ++
    ((pairLine "show_counts" (writeBoolean settings.drawing.showCounts)).toList ++ []))))) := by
  simp only [document, String.toList_append, List.append_assoc, List.append_nil]

private theorem readLines?_document (settings : Settings) :
    readLines? (settings.document.toList.length + 1) settings.document.toList = some [
      .pair ["supported_extensions"] (.array false (settings.supportedExtensions.map .text)),
      .pair ["excluded_dirs"] (.array false (settings.excludedDirs.map .text)),
      .pair ["modules"] (.array false (settings.modules.map .text)),
      .table ["render"],
      .pair ["show_functions"] (.boolean settings.drawing.showFunctions),
      .pair ["show_counts"] (.boolean settings.drawing.showCounts)] := by
  have bare : ∀ key ∈ ["supported_extensions", "excluded_dirs", "modules", "render",
      "show_functions", "show_counts"], Bare key := by decide
  have extensions := length_le_layOutArray settings.supportedExtensions
  have directories := length_le_layOutArray settings.excludedDirs
  have modules := length_le_layOutArray settings.modules
  have long : settings.supportedExtensions.length + settings.excludedDirs.length +
      settings.modules.length + 6 ≤ settings.document.toList.length := by
    simp only [document, pairLine, String.toList_append, List.length_append]
    simp only [String.reduceToList, List.length_cons]
    omega
  obtain ⟨spare, length⟩ := Nat.exists_eq_add_of_le long
  rw [length, Nat.add_right_comm _ 6, toList_document]
  refine readLines?_pairLine (bare _ (by simp)) (writes_layOutArray _) (by omega) ?_
  refine readLines?_pairLine (bare _ (by simp)) (writes_layOutArray _) (by omega) ?_
  refine readLines?_pairLine (bare _ (by simp)) (writes_layOutArray _) (by omega) ?_
  refine readLines?_header (bare _ (by simp)) ?_
  refine readLines?_pairLine (bare _ (by simp)) (writes_boolean _) (by omega) ?_
  refine readLines?_pairLine (bare _ (by simp)) (writes_boolean _) (by omega) ?_
  rfl

/-- The lines of the document enter as a table of lists and a table of flags. -/
theorem toml_parse?_document (settings : Settings) : Toml.parse? settings.document = some [
    ("supported_extensions", .array false (settings.supportedExtensions.map .text)),
    ("excluded_dirs", .array false (settings.excludedDirs.map .text)),
    ("modules", .array false (settings.modules.map .text)),
    ("render", .table .header [
      ("show_functions", .boolean settings.drawing.showFunctions),
      ("show_counts", .boolean settings.drawing.showCounts)])] := by
  have unmarked : settings.document.toList.head? ≠ some '\uFEFF' := by
    simp [document, pairLine]
  rw [Toml.parse?]
  simp only [if_neg unmarked, readLines?_document]
  rfl

private theorem texts?_texts (appendable : Bool) (texts : List String) :
    Value.texts? (.array appendable (texts.map .text)) = some texts := by
  rw [Value.texts?]
  induction texts with
  | nil => rfl
  | cons text texts inductionHypothesis =>
    rw [List.map_cons, List.mapM_cons, inductionHypothesis]
    rfl

private theorem optional?_texts (texts : List String) :
    optional? Value.texts? (some (.array false (texts.map .text))) = some (some texts) := by
  rw [optional?, texts?_texts]
  rfl

/-- The document of settings holds the layer that says all that they say. -/
theorem parse?_document (settings : Settings) :
    Layer.parse? settings.document = some settings.layer := by
  rw [Layer.parse?, toml_parse?_document]
  change (do
    let extensions ← optional? Value.texts?
      (some (.array false (settings.supportedExtensions.map .text)))
    let directories ← optional? Value.texts? (some (.array false (settings.excludedDirs.map .text)))
    let modules ← optional? Value.texts? (some (.array false (settings.modules.map .text)))
    return ⟨extensions, directories, modules, some settings.drawing.showFunctions,
      some settings.drawing.showCounts⟩) = some settings.layer
  simp only [optional?_texts]
  rfl

end Settings

end CodeCensus
