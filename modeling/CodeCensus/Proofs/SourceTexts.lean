import CodeCensus.Proofs.Ledger
import CodeCensus.Proofs.Size
import CodeCensus.Proofs.SplitCharacter

/-!
# The texts a session goes through

A reading goes through the source texts that it finds at a path and below it, and through no other. It
ends unless one of them is split, and in a fault that tells so if one is. Nothing is asked of the files
but that these texts have fewer bytes together than a word can count. What a session does with its tree
afterwards is none of the texts' business: a mutation can only run out of its words.
-/

namespace CodeCensus

open Source (Splits)

/-! ### Mutations -/

private theorem Node.adjust_only (node : Node) (delta : Count) :
    Fault.Only .counterOverflow (node.adjust delta) := by
  unfold adjust
  split
  · exact (Count.checked_only _).bind fun _ _ => Fault.only_ok _
  · exact Fault.only_ok _

namespace Tree

private theorem adjust_only (tree : Tree) (delta : Count) (handle : Handle) :
    Fault.Only .counterOverflow (tree.adjust delta handle) := by
  unfold adjust
  split
  · exact Fault.only_ok _
  · next node _ => exact (node.adjust_only delta).bind fun _ _ => Fault.only_ok _

private theorem raise_only (tree : Tree) (start : Handle) (delta : Count) :
    Fault.Only .counterOverflow (tree.raise start delta) := by
  unfold raise
  split
  · exact Fault.only_ok _
  · exact Fault.Only.foldlM _ fun state handle _ => state.adjust_only delta handle

private theorem create_only (tree : Tree) (scope : String) (entry : Entry) :
    Fault.Only .counterOverflow (tree.create scope entry) := by
  unfold create
  split
  · exact Fault.only_ok _
  · split
    · exact Fault.only_ok _
    · exact (raise_only _ _ _).bind fun _ _ => Fault.only_ok _

private theorem update_only (tree : Tree) (scope : String) (entry : Entry) :
    Fault.Only .counterOverflow (tree.update scope entry) := by
  unfold update
  split
  · exact Fault.only_ok _
  split
  · exact Fault.only_ok _
  split
  · exact Fault.only_ok _
  apply (Count.checked_only _).bind
  intro decrease _
  split
  · exact Fault.only_ok _
  · apply (Count.checked_only _).bind
    intro increase _
    exact (raise_only _ _ _).bind fun _ _ => Fault.only_ok _

private theorem delete_only (tree : Tree) (scope name : String) :
    Fault.Only .counterOverflow (tree.delete scope name) := by
  unfold delete
  split
  · exact Fault.only_ok _
  split
  · exact Fault.only_ok _
  split
  · exact Fault.only_ok _
  apply (Count.checked_only _).bind
  intro decrease _
  exact (raise_only _ _ _).bind fun _ _ => Fault.only_ok _

/-- A mutation can only run out of the words for its counters. -/
theorem mutate_only (tree : Tree) (mutation : Mutation) :
    Fault.Only .counterOverflow (tree.mutate mutation) := by
  cases mutation with
  | create scope entry => exact tree.create_only scope entry
  | update scope entry => exact tree.update_only scope entry
  | rename scope previous name => exact Fault.only_ok _
  | delete scope name => exact tree.delete_only scope name

end Tree

/-! ### Going through texts -/

/-- How many bytes some texts have together. -/
def byteSize (texts : List String) : Nat :=
  (texts.map String.utf8ByteSize).sum

private theorem byteSize_flatMap {α : Type} (items : List α) (texts : α → List String) :
    byteSize (items.flatMap texts) = (items.map fun item => byteSize (texts item)).sum := by
  induction items with
  | nil => rfl
  | cons item items inductionHypothesis =>
    rw [List.flatMap_cons, List.map_cons, List.sum_cons, ← inductionHypothesis]
    simp [byteSize]

private theorem byteSize_le_flatMap {α : Type} {items : List α} {item : α} (texts : α → List String)
    (member : item ∈ items) : byteSize (texts item) ≤ byteSize (items.flatMap texts) := by
  rw [byteSize_flatMap]
  exact List.le_sum_of_mem (List.mem_map_of_mem member)

/-- A computation that goes through texts faults if one of them is split, and else ends with a result
of which something holds. -/
def Through {α : Type} (texts : List String) (computation : Except Fault α) (holds : α → Prop) :
    Prop :=
  (∃ text ∈ texts, Splits text) ∧ computation = .error .splitCharacter ∨
    (∀ text ∈ texts, ¬Splits text) ∧ ∃ result, computation = .ok result ∧ holds result

/-- A computation ends exactly when no text is split, and splits a character exactly when one is. -/
def EndsUnlessSplit {α : Type} (texts : List String) (computation : Except Fault α) : Prop :=
  ((∃ result, computation = .ok result) ↔ ∀ text ∈ texts, ¬Splits text) ∧
    (computation = .error .splitCharacter ↔ ∃ text ∈ texts, Splits text)

namespace Through

variable {α β : Type} {texts : List String} {first : Except Fault α} {next : α → Except Fault β}
  {holds : α → Prop} {later : β → Prop}

/-- Without texts there is nothing to split. -/
theorem nothing {result : α} (held : holds result) : Through [] (.ok result) holds :=
  .inr ⟨by simp, result, rfl, held⟩

private theorem only (through : Through texts first holds) : Fault.Only .splitCharacter first := by
  rcases through with ⟨-, rfl⟩ | ⟨-, result, rfl, -⟩
  · rintro _ ⟨⟩
    rfl
  · exact Fault.only_ok _

private theorem endsUnlessSplit (through : Through texts first holds) :
    EndsUnlessSplit texts first := by
  rcases through with ⟨split, rfl⟩ | ⟨whole, result, rfl, -⟩
  · obtain ⟨text, member, splits⟩ := split
    constructor
    · constructor
      · rintro ⟨_, impossible⟩
        cases impossible
      · intro whole
        exact absurd splits (whole text member)
    · exact iff_of_true rfl ⟨text, member, splits⟩
  · constructor
    · exact iff_of_true ⟨result, rfl⟩ whole
    · constructor
      · rintro ⟨⟩
      · rintro ⟨text, member, splits⟩
        exact absurd splits (whole text member)

/-- What comes after the texts does not depend on them. -/
theorem bind (through : Through texts first holds)
    (onward : ∀ value, holds value → ∃ result, next value = .ok result ∧ later result) :
    Through texts (first.bind next) later := by
  rcases through with ⟨split, rfl⟩ | ⟨whole, value, rfl, held⟩
  · exact .inl ⟨split, rfl⟩
  · exact .inr ⟨whole, onward value held⟩

end Through

/-- An entry that was read counts no more than so much. -/
def ReadUpTo (bound : Nat) (read : Option Entry) : Prop :=
  ∀ entry, read = some entry → entry.counts.UpTo bound

private theorem readUpTo_none (bound : Nat) : ReadUpTo bound none :=
  fun _ impossible => nomatch impossible

/-- Entries with tallies for counters, which make no more than so much together. -/
structure NestedUpTo (bound : Nat) (nested : List Entry) : Prop where
  tallies : ∀ inner ∈ nested, inner.counts.IsTally
  sum : (nested.map Entry.counts).sum.UpTo bound

/-- Readings one after the other go through the texts of each of them. -/
theorem Through.all {α : Type} {compute : α → Except Fault (Option Entry)} {items : List α}
    {texts : α → List String}
    (each : ∀ item ∈ items, Through (texts item) (compute item) (ReadUpTo (byteSize (texts item)))) :
    Through (items.flatMap texts) (items.mapM compute) fun entries =>
      NestedUpTo (byteSize (items.flatMap texts)) (entries.filterMap id) := by
  -- A reading that faults stops those after it, but none of those before it can fault otherwise.
  by_cases split : ∃ item ∈ items, ∃ text ∈ texts item, Splits text
  · obtain ⟨item, member, text, textMember, splits⟩ := split
    refine .inl ⟨⟨text, List.mem_flatMap.mpr ⟨item, member, textMember⟩, splits⟩, ?_⟩
    apply (Fault.Only.mapM_eq_error fun other otherMember => (each other otherMember).only).mpr
    exact ⟨item, member, (each item member).endsUnlessSplit.2.mpr ⟨text, textMember, splits⟩⟩
  · have ends : ∀ item ∈ items, Ends (compute item) (byteSize (texts item)) := by
      intro item member
      rcases each item member with ⟨⟨text, textMember, splits⟩, -⟩ | ⟨-, ended⟩
      · exact absurd ⟨item, member, text, textMember, splits⟩ split
      · exact ended
    obtain ⟨entries, done, tallies, sum⟩ := Ends.all ends
    rw [← byteSize_flatMap] at sum
    refine .inr ⟨?_, entries, done, tallies, sum⟩
    intro text member splits
    obtain ⟨item, itemMember, textMember⟩ := List.mem_flatMap.mp member
    exact split ⟨item, itemMember, text, textMember, splits⟩

/-- Recognising a text goes through that text. -/
theorem Source.recognize_through {contents : String} (fileName : String)
    (fits : contents.utf8ByteSize < 2 ^ 63) :
    Through [contents] (recognize fileName contents) (ReadUpTo (byteSize [contents])) := by
  by_cases splits : Splits contents
  · exact .inl ⟨⟨contents, List.mem_singleton_self contents, splits⟩, recognize_faults.mpr splits⟩
  · obtain ⟨read, recognized⟩ := recognize_ends fileName splits fits
    refine .inr ⟨by simpa using splits, read, recognized, ?_⟩
    rintro entry rfl
    apply (recognize_size recognized).mono
    simpa [byteSize] using length_le_byteSize contents

/-! ### Which texts a scan goes through -/

namespace Settings

variable {settings : Settings} {files : Files} {path project : Path}

/-- The source texts at a path and at most so many levels below it. -/
def textsWithin (settings : Settings) (files : Files) : Nat → Path → List String
  | 0, _ => []
  | levels + 1, path =>
    if settings.excludes files path then []
    else if files.isDirectory path then
      ((files.list path).getD []).flatMap (settings.textsWithin files levels)
    else if files.isFile path && settings.supports path then (files.read path).toOption.toList
    else []

/-- The source texts that a reading of a path goes through. -/
def texts (settings : Settings) (files : Files) (path : Path) : List String :=
  settings.textsWithin files (files.depth + 1) path

/-- The source texts that the reading of a module goes through. -/
def moduleTexts (settings : Settings) (files : Files) (path : Path) : List String :=
  if files.isDirectory path then settings.texts files path else []

/-- The source texts that the readings at the top of a project go through. -/
def topTexts (settings : Settings) (files : Files) (project : Path) : List String :=
  if settings.modules.isEmpty then ((files.list project).getD []).flatMap (settings.texts files)
  else settings.modules.flatMap fun name => settings.moduleTexts files (project.join ⟨name⟩)

/-- The source texts that a scan of a project goes through. -/
def scannedTexts (settings : Settings) (files : Files) (project : Path) : List String :=
  if files.isDirectory project then settings.topTexts files project else []

private theorem readLevels_through {levels : Nat}
    (fits : byteSize (settings.textsWithin files levels path) < 2 ^ 63) :
    Through (settings.textsWithin files levels path) (settings.readLevels files levels path)
      (ReadUpTo (byteSize (settings.textsWithin files levels path))) := by
  -- The texts of a child are among those of its directory, so they fit the bound as well.
  induction levels generalizing path with
  | zero => exact .nothing (readUpTo_none _)
  | succ levels inductionHypothesis =>
    unfold textsWithin at fits ⊢
    unfold readLevels
    split
    · exact .nothing (readUpTo_none _)
    · next included =>
      rw [if_neg included] at fits
      split
      · next directory =>
        rw [if_pos directory] at fits
        cases listed : files.list path with
        | none => exact .nothing (readUpTo_none _)
        | some children =>
          rw [listed, Option.getD_some] at fits
          have read := Through.all fun child member =>
            inductionHypothesis ((byteSize_le_flatMap _ member).trans_lt fits)
          apply read.bind
          rintro entries ⟨tallies, sum⟩
          obtain ⟨made, aggregated, upTo⟩ := Entry.aggregate_ends tallies sum fits
          refine ⟨some made, Fault.bind_eq_ok.mpr ⟨made, aggregated, rfl⟩, ?_⟩
          rintro _ ⟨⟩
          exact upTo
      · next noDirectory =>
        rw [if_neg noDirectory] at fits
        unfold readFile
        split
        · next source =>
          rw [if_pos source] at fits
          cases text : files.read path with
          | error cause => exact .nothing (readUpTo_none _)
          | ok contents =>
            rw [text] at fits
            exact Source.recognize_through path.fileName (by simpa [byteSize, Except.toOption] using fits)
        · exact .nothing (readUpTo_none _)

/-- A reading goes through the texts at its path and below. -/
theorem read_through (fits : byteSize (settings.texts files path) < 2 ^ 63) :
    Through (settings.texts files path) (settings.read files path)
      (ReadUpTo (byteSize (settings.texts files path))) :=
  readLevels_through fits

private theorem readModule_through (fits : byteSize (settings.moduleTexts files path) < 2 ^ 63) :
    Through (settings.moduleTexts files path) (settings.readModule files path)
      (ReadUpTo (byteSize (settings.moduleTexts files path))) := by
  unfold moduleTexts at fits ⊢
  unfold readModule
  split
  · next directory =>
    rw [if_pos directory] at fits
    apply (read_through fits).bind
    intro read upTo
    refine ⟨read.map (Entry.withKind .module), rfl, fun entry found => ?_⟩
    obtain ⟨inner, same, rfl⟩ := Option.map_eq_some_iff.mp found
    exact upTo inner same
  · exact .nothing (readUpTo_none _)

private theorem readTop_through (fits : byteSize (settings.topTexts files project) < 2 ^ 63) :
    Through (settings.topTexts files project) (settings.readTop files project) fun top =>
      ∀ nested, top = .ok nested → NestedUpTo (byteSize (settings.topTexts files project)) nested := by
  unfold topTexts at fits ⊢
  unfold readTop
  split
  · next everything =>
    rw [if_pos everything] at fits
    unfold readChildren
    cases listed : files.list project with
    | none => exact .nothing fun _ impossible => nomatch impossible
    | some children =>
      rw [listed, Option.getD_some] at fits
      have read := Through.all fun child member =>
        read_through ((byteSize_le_flatMap (settings.texts files) member).trans_lt fits)
      apply read.bind
      rintro entries nested
      exact ⟨_, rfl, fun _ same => Except.ok.inj same ▸ nested⟩
  · next configured =>
    rw [if_neg configured] at fits
    have read := Through.all fun name member => readModule_through
      ((byteSize_le_flatMap (fun name => settings.moduleTexts files (project.join ⟨name⟩))
        member).trans_lt fits)
    apply read.bind
    rintro entries nested
    exact ⟨_, rfl, fun _ same => Except.ok.inj same ▸ nested⟩

/-- A scan goes through the texts of its modules, or of all that lies in the project. -/
theorem scan_through (fits : byteSize (settings.scannedTexts files project) < 2 ^ 63) :
    Through (settings.scannedTexts files project) (settings.scan files project) fun _ => True := by
  unfold scannedTexts at fits ⊢
  unfold scan Files.present
  cases directory : files.isDirectory project with
  | false =>
    rw [if_neg Bool.false_ne_true]
    simp only [Bool.not_false, if_true]
    split <;> exact .nothing trivial
  | true =>
    rw [if_pos directory] at fits
    rw [if_pos rfl]
    simp only [Bool.true_or, Bool.not_true, Bool.false_eq_true, if_false]
    apply (readTop_through fits).bind
    intro top bounded
    cases top with
    | error failure => exact ⟨_, rfl, trivial⟩
    | ok nested =>
      obtain ⟨tallies, sum⟩ := bounded nested rfl
      obtain ⟨made, aggregated, -⟩ := Entry.aggregate_ends tallies sum fits
      exact ⟨_, Fault.bind_eq_ok.mpr ⟨made, aggregated, rfl⟩, trivial⟩

end Settings

namespace Session

variable {settings : Settings} {files : Files} {tree : Tree} {project path : Path}
  {session : Session} {event : FileEvent}

/-! ### Which texts a session goes through -/

private theorem freshTree_through (fits : byteSize (settings.scannedTexts files project) < 2 ^ 63) :
    Through (settings.scannedTexts files project) (freshTree settings files project)
      fun _ => True := by
  apply (Settings.scan_through fits).bind
  intro scanned _
  cases scanned with
  | error failure => exact ⟨_, rfl, trivial⟩
  | ok entry =>
    simp only [(Tree.ofEntry_shows entry).1]
    exact ⟨_, rfl, trivial⟩

/-- To open a session is to go through the texts of a scan. -/
theorem start_through (fits : byteSize (settings.scannedTexts files project) < 2 ^ 63) :
    Through (settings.scannedTexts files project) (start settings files project)
      fun _ => True := by
  apply (freshTree_through fits).bind
  intro fresh _
  cases fresh <;> exact ⟨_, rfl, trivial⟩

private theorem refresh_through
    (fits : byteSize (session.settings.scannedTexts files session.project) < 2 ^ 63) :
    Through (session.settings.scannedTexts files session.project) (session.refresh files)
      fun _ => True := by
  apply (freshTree_through fits).bind
  intro fresh _
  cases fresh <;> exact ⟨_, rfl, trivial⟩

/-- The source texts that the reading for an event goes through. -/
def eventTexts (session : Session) (files : Files) (event : FileEvent) : List String :=
  (source? session.settings event).elim [] (session.settings.texts files)

private theorem reading_through (fits : byteSize (session.eventTexts files event) < 2 ^ 63) :
    Through (session.eventTexts files event) (session.reading files event)
      (ReadUpTo (byteSize (session.eventTexts files event))) := by
  rw [reading_eq]
  unfold eventTexts at fits ⊢
  cases target : source? session.settings event with
  | none => exact .nothing (readUpTo_none _)
  | some path =>
    rw [target] at fits
    exact Settings.read_through fits

/-! ### Events whose texts are whole -/

private theorem bring_only (mutation : String → Entry → Mutation) {brought : Option Entry}
    (read : settings.read files path = .ok brought) :
    Fault.Only .counterOverflow (bring mutation settings files tree path) := by
  unfold bring
  split
  · exact Fault.only_ok _
  · rw [read]
    cases brought with
    | none => exact Fault.only_ok _
    | some entry => exact tree.mutate_only _

private theorem removePath_only (tree : Tree) (path : Path) :
    Fault.Only .counterOverflow (removePath tree path) := by
  unfold removePath
  split
  · exact Fault.only_ok _
  · exact tree.delete_only _ _

/-- An event whose reading ends can only run out of the words for counters. -/
theorem Applies.only {source? : Option Path} {computation : Except Fault Outcome}
    {brought : Option Entry} (applies : Applies settings files tree source? computation)
    (read : source?.elim (.ok none) (settings.read files) = .ok brought) :
    Fault.Only .counterOverflow computation := by
  cases applies with
  | idle => exact Fault.only_ok _
  | renames scope previous name => exact tree.mutate_only _
  | removes path => exact removePath_only tree path
  | brings mutation _ source =>
    subst source
    exact bring_only mutation read
  | moves departed source =>
    subst source
    apply (removePath_only tree departed).bind
    intro removed _
    split
    · exact Fault.only_ok _
    · exact bring_only .create read

private theorem dispatch_only {brought : Option Entry}
    (read : session.reading files event = .ok brought) :
    Fault.Only .counterOverflow (session.dispatch files event) := by
  rw [reading_eq] at read
  exact ((applies _ _ _ event).only read).bind fun _ _ => Fault.only_ok _

/-- No source text stops a recognition, a reading, the opening of a session or a new scan unless a
character of it is split, which takes a character of several bytes that belongs to no word. An event
whose texts are whole can only run out of the words for counters, and does not as long as the nodes
that were materialized are fewer than a word can count. -/
theorem only_split_texts_stop_a_session (fileName contents : String) (settings : Settings)
    (session : Session) (files : Files) (path project : Path) (event : FileEvent) :
    (contents.utf8ByteSize < 2 ^ 63 →
      EndsUnlessSplit [contents] (Source.recognize fileName contents)) ∧
    (Splits contents → ∃ c ∈ contents.toList,
      Text.isSingleByte c = false ∧ Source.isWordLetter c = false) ∧
    (byteSize (settings.texts files path) < 2 ^ 63 →
      EndsUnlessSplit (settings.texts files path) (settings.read files path)) ∧
    (byteSize (settings.scannedTexts files project) < 2 ^ 63 →
      EndsUnlessSplit (settings.scannedTexts files project) (start settings files project)) ∧
    (byteSize (session.settings.scannedTexts files session.project) < 2 ^ 63 →
      EndsUnlessSplit (session.settings.scannedTexts files session.project)
        (session.refresh files)) ∧
    (byteSize (session.eventTexts files event) < 2 ^ 63 →
      (∀ text ∈ session.eventTexts files event, ¬Splits text) →
      Fault.Only .counterOverflow (session.dispatch files event) ∧
      ∃ brought, session.reading files event = .ok brought ∧
        ∀ past, Ledger session past →
          (Tree.materialized ((session :: past).map Session.tree) fun _ => true).card +
            Entry.nodes brought < 2 ^ 63 - 1 →
          ∃ step, session.dispatch files event = .ok step) := by
  refine ⟨fun fits => (Source.recognize_through fileName fits).endsUnlessSplit, Splits.wide,
    fun fits => (Settings.read_through fits).endsUnlessSplit,
    fun fits => (start_through fits).endsUnlessSplit,
    fun fits => (refresh_through fits).endsUnlessSplit, ?_⟩
  intro fits whole
  obtain ⟨brought, read⟩ := (reading_through fits).endsUnlessSplit.1.mpr whole
  exact ⟨dispatch_only read, brought, read, fun past ledger room => ledger.dispatch_ends read room⟩

/-- A text with letters of several bytes before a method. -/
def wideLetters : String := "class A { Größe f() {} }"

/-- A text with a sign of several bytes before a call. -/
def wideSign : String := "class A { int n = 2 × f(); }"

/-- A project with one file. -/
def projectOfText (text : String) : Files :=
  (MemoryFiles.empty.addFile ["/", "p", "A.java"] text.toUTF8).view

/-- A project whose file has wide letters can be opened, can be scanned anew, and follows a change of
the file. -/
theorem wide_letters_are_read :
    (∃ read, Source.recognize "A.java" wideLetters = .ok read) ∧
    (∃ read, Settings.standard.read (projectOfText wideLetters) ⟨"/p/A.java"⟩ = .ok read) ∧
    (∃ opened, start .standard (projectOfText wideLetters) ⟨"/p"⟩ = .ok opened) ∧
    ∃ session, start .standard (projectOfText wideLetters) ⟨"/p"⟩ = .ok (.ok session) ∧
      (∃ step, session.refresh (projectOfText wideLetters) = .ok step) ∧
      ∃ step, session.dispatch (projectOfText wideLetters) (.contentChanged ⟨"/p/A.java"⟩) =
        .ok step := by
  have recognized : (Source.recognize "A.java" wideLetters).toOption.isSome = true := by
    decide +kernel
  have whole : ∀ text ∈ [wideLetters], ¬Splits text := by
    intro text member splits
    obtain rfl := List.mem_singleton.mp member
    rw [Source.recognize_faults.mpr splits] at recognized
    cases recognized
  have short : byteSize [wideLetters] < 2 ^ 63 := by decide +kernel
  have here : Settings.standard.texts (projectOfText wideLetters) ⟨"/p/A.java"⟩ = [wideLetters] := by
    decide +kernel
  have scanned : Settings.standard.scannedTexts (projectOfText wideLetters) ⟨"/p"⟩ = [wideLetters] := by
    decide +kernel
  have computed : (start .standard (projectOfText wideLetters) ⟨"/p"⟩).toOption.any (fun opened =>
      opened.toOption.any fun session =>
        decide (session.settings.scannedTexts (projectOfText wideLetters) session.project =
          [wideLetters]) &&
        decide (session.eventTexts (projectOfText wideLetters) (.contentChanged ⟨"/p/A.java"⟩) =
          [wideLetters]) &&
        (session.reading (projectOfText wideLetters) (.contentChanged ⟨"/p/A.java"⟩)).toOption.any
          fun brought => decide ((Tree.materialized [session.tree] fun _ => true).card +
            Entry.nodes brought < 2 ^ 63 - 1)) = true := by
    decide +kernel
  obtain ⟨opened, started, ready⟩ := Fault.ok_of_any computed
  obtain ⟨session, rfl, checks⟩ := Fault.ok_of_any ready
  simp only [Bool.and_eq_true, decide_eq_true_eq] at checks
  obtain ⟨⟨anew, changed⟩, roomy⟩ := checks
  obtain ⟨brought, read, room⟩ := Fault.ok_of_any roomy
  obtain ⟨recognizes, -, reads, opens, refreshes, dispatches⟩ :=
    only_split_texts_stop_a_session "A.java" wideLetters .standard session
      (projectOfText wideLetters) ⟨"/p/A.java"⟩ ⟨"/p"⟩ (.contentChanged ⟨"/p/A.java"⟩)
  refine ⟨?_, ?_, ?_, session, started, ?_, ?_⟩
  · exact (recognizes (by decide +kernel)).1.mpr whole
  · exact (reads (here ▸ short)).1.mpr (here ▸ whole)
  · exact (opens (scanned ▸ short)).1.mpr (scanned ▸ whole)
  · exact (refreshes (anew ▸ short)).1.mpr (anew ▸ whole)
  · obtain ⟨-, other, again, ends⟩ := dispatches (changed ▸ short) (changed ▸ whole)
    obtain rfl := Except.ok.inj (read.symm.trans again)
    exact ends [] (.started started) (of_decide_eq_true room)

/-- A project whose file has a wide sign stops whatever goes through it: the recognition, a reading,
the opening of a session, and a new scan or the news of the file in a session that was opened without
it. -/
theorem wide_sign_stops_a_session :
    Source.recognize "A.java" wideSign = .error .splitCharacter ∧
    Settings.standard.read (projectOfText wideSign) ⟨"/p/A.java"⟩ = .error .splitCharacter ∧
    start .standard (projectOfText wideSign) ⟨"/p"⟩ = .error .splitCharacter ∧
    ∃ session, start .standard (projectOfText wideLetters) ⟨"/p"⟩ = .ok (.ok session) ∧
      session.refresh (projectOfText wideSign) = .error .splitCharacter ∧
      session.dispatch (projectOfText wideSign) (.contentChanged ⟨"/p/A.java"⟩) =
        .error .splitCharacter := by
  have computed : (start .standard (projectOfText wideLetters) ⟨"/p"⟩).toOption.any (fun opened =>
      opened.toOption.any fun session =>
        decide (Fault.stop? (session.refresh (projectOfText wideSign)) = some .splitCharacter) &&
        decide (Fault.stop? (session.dispatch (projectOfText wideSign)
          (.contentChanged ⟨"/p/A.java"⟩)) = some .splitCharacter)) = true := by
    decide +kernel
  obtain ⟨opened, started, ready⟩ := Fault.ok_of_any computed
  obtain ⟨session, rfl, stops⟩ := Fault.ok_of_any ready
  simp only [Bool.and_eq_true, decide_eq_true_eq, Fault.stop?_eq_some] at stops
  refine ⟨?_, ?_, ?_, session, started, stops.1, stops.2⟩
  · exact Fault.stop?_eq_some.mp (by decide +kernel)
  · exact Fault.stop?_eq_some.mp (by decide +kernel)
  · exact Fault.stop?_eq_some.mp (by decide +kernel)

end Session

end CodeCensus
