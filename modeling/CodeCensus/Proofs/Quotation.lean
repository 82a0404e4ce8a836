import CodeCensus.Toml.Writer
import Mathlib.Data.List.Infix
import Mathlib.Order.MinMax

/-!
# Quoted texts read back

Whatever a text holds, its quoted form reads as the text again, and the reader stops where the quoted
form ends. Between double quotes each character is shown as itself or by an escape, and either reader
takes what shows it for the character. On several lines quotes may stand as they are, but never three
in a row, and the reader leaves the last three of a longer row as the closing ones.
-/

namespace CodeCensus.Toml

variable {onLines : Bool} {c : Char} {run : Nat} {text shown rest : List Char}

/-- A reading with more characters in front of what was read. -/
def prepend (front : List Char) (reading : Option (List Char × List Char)) :
    Option (List Char × List Char) :=
  reading.map fun (more, after) => (front ++ more, after)

@[simp] theorem prepend_some {front more after : List Char} :
    prepend front (some (more, after)) = some (front ++ more, after) :=
  rfl

private theorem prepend_prepend {front further : List Char}
    {reading : Option (List Char × List Char)} :
    prepend front (prepend further reading) = prepend (front ++ further) reading := by
  cases reading <;> simp [prepend]

/-- The readers put one character in front of what they read of the rest. -/
theorem do_prepend {reading : Option (List Char × List Char)} :
    (do let (more, after) ← reading; return (c :: more, after)) = prepend [c] reading := by
  cases reading <;> rfl

private theorem not_lineEnd_of_isPlain (plain : isPlain c = true) : c ≠ '\n' ∧ c ≠ '\r' := by
  constructor <;> rintro rfl <;> exact absurd plain (by decide)

/-- No quote stands at the front of a text. -/
def Unquoted (rest : List Char) : Prop :=
  ∀ c ∈ rest.head?, c ≠ '"' ∧ c ≠ '\''

private theorem Unquoted.ne_double (unquoted : Unquoted rest) (more : List Char) :
    rest ≠ '"' :: more := by
  rintro rfl
  exact (unquoted '"' rfl).1 rfl

private theorem Unquoted.ne_single (unquoted : Unquoted rest) (more : List Char) :
    rest ≠ '\'' :: more := by
  rintro rfl
  exact (unquoted '\'' rfl).2 rfl

/-! ### Characters between double quotes -/

/-- What may show a character between double quotes: the character itself, a backslash with a letter,
or a backslash with the code of the character. Line ends show themselves only on several lines. -/
inductive Shown (onLines : Bool) (c : Char) : List Char → Prop
  | plain (plain : isPlain c = true) (mark : c ≠ '"') (backslash : c ≠ '\\') : Shown onLines c [c]
  | lineEnd (lines : onLines = true) (same : c = '\n') : Shown onLines c ['\n']
  | letter {name : Char} (stands : escapedChar? name = some c)
      (letter : name ∉ [' ', '\t', '\n', '\r', 'u', 'U']) : Shown onLines c ['\\', name]
  | code {first second third fourth : Char}
      (stands : escapedCode? [first, second, third, fourth] = some c) :
      Shown onLines c ['\\', 'u', first, second, third, fourth]

private theorem needsEscape_lt (escape : needsEscape c = true) : c.toNat < 128 := by
  simp [needsEscape, isPlain] at escape
  omega

/-- The code of a control character stands for it. -/
theorem Shown.escapeCode (escape : needsEscape c = true) : Shown onLines c (escapeCode c) := by
  have codes : ∀ code < 128, escapedCode? ((Toml.escapeCode (Char.ofNat code)).drop 2) =
      some (Char.ofNat code) := by
    decide +kernel
  have stands := codes c.toNat (needsEscape_lt escape)
  rw [Char.ofNat_toNat] at stands
  exact .code stands

/-- Each character is written as something that shows it, but for quotes that stay as they are. -/
theorem exists_shown (escaped : ¬(c = '"' ∧ onLines = true ∧ run < 2)) :
    ∃ shown, Shown onLines c shown ∧ ∀ rest,
      writeEscaped onLines run (c :: rest) = shown ++ writeEscaped onLines 0 rest := by
  by_cases mark : c = '"'
  · refine ⟨['\\', '"'], .letter (by rw [mark]; rfl) (by decide), fun rest => ?_⟩
    rw [mark, writeEscaped, if_neg (by simpa [mark] using escaped)]
    rfl
  refine ⟨_, ?_, fun rest => by rw [writeEscaped]; exact mark⟩
  split_ifs with backslash backspace tab lineEnd lines formFeed carriageReturn escape
  · exact .letter (by rw [backslash]; rfl) (by decide)
  · exact .letter (by rw [backspace]; rfl) (by decide)
  · exact .letter (by rw [tab]; rfl) (by decide)
  · exact .lineEnd lines lineEnd
  · exact .letter (by rw [lineEnd]; rfl) (by decide)
  · exact .letter (by rw [formFeed]; rfl) (by decide)
  · exact .letter (by rw [carriageReturn]; rfl) (by decide)
  · exact .escapeCode escape
  · exact .plain (by simpa [needsEscape, lineEnd] using escape) mark backslash

/-- What shows a character starts with no quote, and on a line of its own with a line end only to
show a line end. -/
theorem Shown.head (shows : Shown onLines c shown) : ∃ first more, shown = first :: more ∧
    first ≠ '"' ∧ (c ≠ '\n' → first ≠ '\n' ∧ first ≠ '\r') := by
  cases shows with
  | plain plain mark => exact ⟨c, [], rfl, mark, fun _ => not_lineEnd_of_isPlain plain⟩
  | lineEnd _ same => exact ⟨'\n', [], rfl, by decide, fun other => absurd same other⟩
  | letter => exact ⟨'\\', _, rfl, by decide, fun _ => by decide⟩
  | code => exact ⟨'\\', _, rfl, by decide, fun _ => by decide⟩

/-- What shows a character reads as the character, on one line. -/
theorem Shown.readBasic? (shows : Shown false c shown) :
    readBasic? (shown ++ rest) = prepend [c] (readBasic? rest) := by
  cases shows with
  | plain plain mark backslash =>
    rw [List.singleton_append, Toml.readBasic?, if_pos (by simp [plain, backslash]), do_prepend] <;>
      simp [mark, backslash]
  | lineEnd impossible => cases impossible
  | letter stands letter =>
    simp only [List.mem_cons, not_or] at letter
    rw [List.cons_append, List.singleton_append, Toml.readBasic?, stands, ← do_prepend] <;>
      simp [letter]
  | code stands =>
    simp only [List.cons_append, List.nil_append, Toml.readBasic?, stands, ← do_prepend]
    rfl

/-- What shows a character reads as the character, on several lines. -/
theorem Shown.readBasicLines? (shows : Shown onLines c shown) :
    readBasicLines? .none (shown ++ rest) = prepend [c] (readBasicLines? .none rest) := by
  cases shows with
  | plain plain mark backslash =>
    rw [List.singleton_append, Toml.readBasicLines?, if_pos (by simp [plain, backslash]),
      do_prepend] <;> simp [mark, backslash, not_lineEnd_of_isPlain plain]
  | lineEnd lines same =>
    rw [same, List.singleton_append, Toml.readBasicLines?, do_prepend] <;> simp
  | letter stands letter =>
    simp only [List.mem_cons, not_or] at letter
    rw [List.cons_append, List.singleton_append, Toml.readBasicLines?, stands, ← do_prepend] <;>
      simp [letter]
  | code stands =>
    simp only [List.cons_append, List.nil_append, Toml.readBasicLines?, stands, ← do_prepend]
    rfl

/-! ### The four ways to quote -/

/-- A text with escapes on one line reads back. -/
theorem readBasic?_writeEscaped (text rest : List Char) (run : Nat) :
    readBasic? (writeEscaped false run text ++ '"' :: rest) = some (text, rest) := by
  induction text generalizing run with
  | nil => rfl
  | cons c text inductionHypothesis =>
    obtain ⟨shown, shows, written⟩ :
        ∃ shown, Shown false c shown ∧ ∀ rest, writeEscaped false run (c :: rest) = _ :=
      exists_shown (by simp)
    rw [written, List.append_assoc, shows.readBasic?, inductionHypothesis, prepend_some]
    rfl

/-- A literal text without single quotes reads back. -/
theorem readLiteral?_append {text : List Char} (plain : ∀ c ∈ text, isPlain c = true)
    (marks : '\'' ∉ text) (rest : List Char) :
    readLiteral? (text ++ '\'' :: rest) = some (text, rest) := by
  induction text with
  | nil => rfl
  | cons c text inductionHypothesis =>
    obtain ⟨mark, marks⟩ := not_or.mp (mt List.mem_cons.mpr marks)
    obtain ⟨first, plain⟩ := List.forall_mem_cons.mp plain
    rw [List.cons_append, readLiteral?, if_pos first, do_prepend, inductionHypothesis plain marks,
      prepend_some, List.singleton_append]
    exact Ne.symm mark

/-- A reader closes a text at three quotes. Up to two more directly before them belong to the text,
as do quotes that do not start three. -/
structure ClosesAt (mark : Char) (read? : List Char → Option (List Char × List Char)) : Prop where
  passes : ∀ rest, (∀ more, rest ≠ mark :: mark :: more) →
    read? (mark :: rest) = prepend [mark] (read? rest)
  closes : ∀ run ≤ 2, ∀ rest, (∀ more, rest ≠ mark :: more) →
    read? (List.replicate run mark ++ mark :: mark :: mark :: rest) =
      some (List.replicate run mark, rest)

/-- Up to two quotes before another character belong to the text. -/
theorem ClosesAt.passes_row {mark : Char} {read? : List Char → Option (List Char × List Char)}
    (reader : ClosesAt mark read?) (few : run ≤ 2) (other : c ≠ mark) :
    read? (List.replicate run mark ++ c :: rest) =
      prepend (List.replicate run mark) (read? (c :: rest)) := by
  have one : read? (mark :: c :: rest) = prepend [mark] (read? (c :: rest)) :=
    reader.passes _ (by simp [other])
  have two : read? (mark :: mark :: c :: rest) = prepend [mark] (read? (mark :: c :: rest)) :=
    reader.passes _ (by simp [other])
  match run with
  | 0 => cases reading : read? (c :: rest) <;> simp [reading, prepend]
  | 1 => exact one
  | 2 =>
    rw [one, prepend_prepend] at two
    exact two

private theorem closesAt_basic : ClosesAt '"' (readBasicLines? .none) where
  passes rest few := by
    rw [readBasicLines?, if_pos (by decide), do_prepend] <;> simp [few]
  closes run few rest other := by
    match run with
    | 0 | 1 => simp [readBasicLines?, other]
    | 2 => simp [readBasicLines?]

private theorem closesAt_literal : ClosesAt '\'' readLiteralLines? where
  passes rest few := by
    rw [readLiteralLines?, if_pos (by decide), do_prepend] <;> simp [few]
  closes run few rest other := by
    match run with
    | 0 | 1 => simp [readLiteralLines?, other]
    | 2 => simp [readLiteralLines?]

/-- A character that needs no escape and is no quote belongs to a literal text. -/
theorem readLiteralLines?_cons (plain : needsEscape c = false) (mark : c ≠ '\'') :
    readLiteralLines? (c :: rest) = prepend [c] (readLiteralLines? rest) := by
  by_cases lineEnd : c = '\n'
  · rw [lineEnd, readLiteralLines?, do_prepend]
  · have shows : isPlain c = true := by simpa [needsEscape, lineEnd] using plain
    rw [readLiteralLines?, if_pos shows, do_prepend] <;>
      simp [mark, not_lineEnd_of_isPlain shows]

/-- A text with escapes on several lines reads back. The quotes just passed count for the reader as
they do for the writer. -/
theorem readBasicLines?_writeEscaped (text : List Char) (few : run ≤ 2) (unquoted : Unquoted rest) :
    readBasicLines? .none (List.replicate run '"' ++ (writeEscaped true run text ++
      '"' :: '"' :: '"' :: rest)) = some (List.replicate run '"' ++ text, rest) := by
  induction text generalizing run with
  | nil =>
    rw [writeEscaped, List.nil_append, List.append_nil]
    exact closesAt_basic.closes run few rest unquoted.ne_double
  | cons c text inductionHypothesis =>
    by_cases stays : c = '"' ∧ true = true ∧ run < 2
    · obtain ⟨rfl, -, another⟩ := stays
      have reads := inductionHypothesis (Nat.succ_le_of_lt another)
      rw [List.replicate_succ', List.append_assoc, List.append_assoc] at reads
      rw [writeEscaped, if_pos (by simpa using another)]
      exact reads
    · obtain ⟨shown, shows, written⟩ := exists_shown stays
      obtain ⟨first, more, rfl, mark, -⟩ := shows.head
      have reads := inductionHypothesis (Nat.zero_le 2)
      rw [List.replicate_zero, List.nil_append, List.nil_append] at reads
      rw [written, List.append_assoc, List.cons_append, closesAt_basic.passes_row few mark,
        ← List.cons_append, shows.readBasicLines?, reads, prepend_some, prepend_some,
        List.singleton_append]

/-- A literal text on several lines reads back if it has no three single quotes in a row. The quotes
just passed belong to the row. -/
theorem readLiteralLines?_append {text : List Char} (plain : ∀ c ∈ text, needsEscape c = false)
    (rows : longestRun '\'' run text ≤ 2) (unquoted : Unquoted rest) :
    readLiteralLines? (List.replicate run '\'' ++ (text ++ '\'' :: '\'' :: '\'' :: rest)) =
      some (List.replicate run '\'' ++ text, rest) := by
  induction text generalizing run with
  | nil =>
    rw [List.nil_append, List.append_nil]
    exact closesAt_literal.closes run rows rest unquoted.ne_single
  | cons c text inductionHypothesis =>
    obtain ⟨first, others⟩ := List.forall_mem_cons.mp plain
    by_cases mark : c = '\''
    · rw [longestRun, if_pos mark] at rows
      have reads := inductionHypothesis others rows
      rw [List.replicate_succ', List.append_assoc, List.append_assoc] at reads
      rw [mark]
      exact reads
    · rw [longestRun, if_neg mark, Nat.max_le] at rows
      have reads := inductionHypothesis others rows.2
      rw [List.replicate_zero, List.nil_append, List.nil_append] at reads
      rw [List.cons_append, closesAt_literal.passes_row rows.1 mark,
        readLiteralLines?_cons first mark, reads, prepend_some, prepend_some,
        List.singleton_append]

/-! ### Rows of one character -/

private theorem replicate_infix_replicate {mark : Char} {less more : Nat} :
    List.replicate less mark <:+: List.replicate more mark ↔ less ≤ more := by
  constructor
  · intro inside
    simpa using inside.length_le
  · intro within
    obtain ⟨spare, rfl⟩ := Nat.exists_eq_add_of_le within
    rw [List.replicate_add]
    exact (List.prefix_append _ _).isInfix

/-- A row of one character does not reach over another. -/
theorem replicate_infix_append_cons {mark : Char} {count : Nat} {front : List Char}
    (other : c ≠ mark) : List.replicate count mark <:+: front ++ c :: rest ↔
      List.replicate count mark <:+: front ∨ List.replicate count mark <:+: rest := by
  constructor
  · intro inside
    -- Nothing that starts with the other character is part of the row.
    have empty : ∀ right, right <+: c :: rest → right <:+: List.replicate count mark →
        right = [] := by
      intro right starts part
      cases right with
      | nil => rfl
      | cons d right =>
        obtain ⟨rfl, -⟩ := List.cons_prefix_cons.mp starts
        exact absurd (List.eq_of_mem_replicate (part.mem List.mem_cons_self)) other
    rcases List.infix_append_iff.mp inside with before | behind | ⟨left, right, whole, ends, starts⟩
    · exact .inl before
    · rcases List.infix_cons_iff.mp behind with starts | behind
      · rw [empty _ starts (List.infix_refl _)]
        exact .inl (List.nil_infix)
      · exact .inr behind
    · obtain rfl := empty right starts (whole ▸ (List.suffix_append left right).isInfix)
      rw [whole, List.append_nil]
      exact .inl ends.isInfix
  · rintro (before | behind)
    · exact before.trans (List.prefix_append _ _).isInfix
    · exact behind.trans ((List.suffix_cons _ _).trans (List.suffix_append _ _)).isInfix

/-- The longest run of a character is longer than a limit exactly if a longer row of the character
stands somewhere. The characters just passed count for it. -/
theorem lt_longestRun_iff {mark : Char} {limit run : Nat} (text : List Char) :
    limit < longestRun mark run text ↔
      List.replicate (limit + 1) mark <:+: List.replicate run mark ++ text := by
  induction text generalizing run with
  | nil => rw [longestRun, List.append_nil, replicate_infix_replicate, Nat.succ_le_iff]
  | cons c text inductionHypothesis =>
    by_cases same : c = mark
    · have longer : List.replicate (run + 1) mark ++ text =
          List.replicate run mark ++ c :: text := by
        rw [List.replicate_succ', List.append_assoc, same, List.singleton_append]
      rw [longestRun, if_pos same, inductionHypothesis, longer]
    · rw [longestRun, if_neg same, lt_max_iff, inductionHypothesis, List.replicate_zero,
        List.nil_append, replicate_infix_append_cons same, replicate_infix_replicate,
        Nat.succ_le_iff]

/-! ### The choice of a quoting -/

private theorem not_mem_of_longestRun {mark : Char} (none_there : longestRun mark 0 text = 0) :
    mark ∉ text := by
  intro member
  obtain ⟨front, back, rfl⟩ := List.append_of_mem member
  have row : 0 < longestRun mark 0 (front ++ mark :: back) :=
    (lt_longestRun_iff _).mpr ⟨front, back, by simp⟩
  exact absurd none_there (Nat.ne_of_gt row)

/-- Literal texts on one line have neither line ends nor single quotes. -/
theorem of_quotingFor_literal (chosen : quotingFor text = .literal) :
    (∀ c ∈ text, isPlain c = true) ∧ '\'' ∉ text := by
  unfold quotingFor at chosen
  dsimp only at chosen
  split_ifs at chosen with _ literal
  simp only [Bool.and_eq_true, Bool.not_eq_true', beq_iff_eq, List.any_eq_false,
    List.contains_eq_mem, decide_eq_false_iff_not] at literal
  obtain ⟨⟨plain, marks⟩, lines⟩ := literal
  refine ⟨fun c member => ?_, not_mem_of_longestRun marks⟩
  have shows : c ≠ '\n' := fun lineEnd => lines (lineEnd ▸ member)
  simpa [needsEscape, shows] using plain c member

private theorem of_quotingFor_literalLines (chosen : quotingFor text = .literalLines) :
    (∀ c ∈ text, needsEscape c = false) ∧ longestRun '\'' 0 text ≤ 2 := by
  unfold quotingFor at chosen
  dsimp only at chosen
  split_ifs at chosen with _ _ _ literal
  simpa using literal

/-! ### Quoted texts -/

private theorem readQuoted?_basic {body : List Char} (few : ∀ more, body ≠ '"' :: '"' :: more) :
    readQuoted? ('"' :: body) = readBasic? body := by
  rw [readQuoted?]
  simp [few]

private theorem readQuoted?_literal {body : List Char} (few : ∀ more, body ≠ '\'' :: '\'' :: more) :
    readQuoted? ('\'' :: body) = readLiteral? body := by
  rw [readQuoted?]
  simp [few]

/-- The line end left out behind the opening quotes is the one that was put there, if any. -/
theorem dropLineEnd_append (onward : '\n' ∉ text → ∀ c ∈ shown.head?, c ≠ '\n' ∧ c ≠ '\r') :
    dropLineEnd ((if text.contains '\n' then ['\n'] else []) ++ shown) = shown := by
  split
  · rfl
  · next absent =>
    rw [List.nil_append]
    cases shown with
    | nil => rfl
    | cons c shown =>
      obtain ⟨lineFeed, carriageReturn⟩ := onward (by simpa using absent) c rfl
      rw [dropLineEnd] <;> simp [lineFeed, carriageReturn]

/-- Behind one double quote, a text with escapes on one line does not go on with two more. -/
theorem writeEscaped_append_ne (text : List Char) (unquoted : Unquoted rest) (more : List Char) :
    writeEscaped false 0 text ++ '"' :: rest ≠ '"' :: '"' :: more := by
  cases text with
  | nil => simpa [writeEscaped] using unquoted.ne_double more
  | cons c text =>
    obtain ⟨shown, shows, written⟩ :
        ∃ shown, Shown false c shown ∧ ∀ rest, writeEscaped false 0 (c :: rest) = _ :=
      exists_shown (by simp)
    obtain ⟨first, others, rfl, mark, -⟩ := shows.head
    simp [written, mark]

/-- A text with escapes that has no line ends does not start with one. -/
theorem head_writeEscaped (lines : '\n' ∉ text) :
    ∀ c ∈ (writeEscaped true 0 text ++ '"' :: rest).head?, c ≠ '\n' ∧ c ≠ '\r' := by
  cases text with
  | nil => simp [writeEscaped]
  | cons c text =>
    by_cases stays : c = '"' ∧ true = true ∧ 0 < 2
    · simp [stays.1, writeEscaped]
    · obtain ⟨shown, shows, written⟩ := exists_shown stays
      obtain ⟨first, others, rfl, -, onward⟩ := shows.head
      have other : c ≠ '\n' := fun lineEnd => lines (by simp [lineEnd])
      simpa [written] using onward other

/-- Every text reads back from its quoted form, unless a quote follows. -/
theorem readQuoted?_quote (text : List Char) (unquoted : Unquoted rest) :
    readQuoted? (quote text ++ rest) = some (text, rest) := by
  unfold quote
  dsimp only
  cases chosen : quotingFor text with
  | basic =>
    simp only [List.cons_append, List.append_assoc, List.nil_append]
    rw [readQuoted?_basic (writeEscaped_append_ne text unquoted)]
    exact readBasic?_writeEscaped text rest 0
  | literal =>
    obtain ⟨plain, marks⟩ := of_quotingFor_literal chosen
    simp only [List.cons_append, List.append_assoc, List.nil_append]
    rw [readQuoted?_literal]
    · exact readLiteral?_append plain marks rest
    · intro more
      cases text with
      | nil => simpa using unquoted.ne_single more
      | cons c text =>
        have other : c ≠ '\'' := fun mark => marks (by simp [mark])
        simp [other]
  | basicLines =>
    simp only [List.cons_append, List.append_assoc, List.nil_append]
    rw [readQuoted?, dropLineEnd_append head_writeEscaped]
    exact readBasicLines?_writeEscaped text (Nat.zero_le 2) unquoted
  | literalLines =>
    obtain ⟨plain, rows⟩ := of_quotingFor_literalLines chosen
    simp only [List.cons_append, List.append_assoc, List.nil_append]
    rw [readQuoted?, dropLineEnd_append]
    · exact readLiteralLines?_append plain rows unquoted
    · intro lines
      cases text with
      | nil => simp
      | cons c text =>
        have other : c ≠ '\n' := fun lineEnd => lines (by simp [lineEnd])
        have shows : isPlain c = true := by simpa [needsEscape, other] using plain c (by simp)
        simpa using not_lineEnd_of_isPlain shows

/-- A text in quotes. -/
def quoted (text : String) : String :=
  String.ofList (quote text.toList)

/-- A text in quotes begins with a quote. -/
theorem exists_quoted (text : String) :
    ∃ mark body, (quoted text).toList = mark :: body ∧ (mark = '"' ∨ mark = '\'') := by
  rw [quoted, String.toList_ofList, quote]
  cases quotingFor text.toList <;> simp

/-- A text is read back from between its quotes, whatever follows that is no quote. -/
theorem readQuoted?_quoted (text : String) (unquoted : Unquoted rest) :
    readQuoted? ((quoted text).toList ++ rest) = some (text.toList, rest) := by
  rw [quoted, String.toList_ofList]
  exact readQuoted?_quote text.toList unquoted

/-! ### Rows that can be counted -/

/-- No more quotes of a kind stand in a row than can be counted. -/
def Quotable (text : String) : Prop :=
  ∀ mark ∈ ['\'', '"'], ¬List.replicate (runLimit + 1) mark <:+: text.toList

private theorem quotable_iff (text : String) : Quotable text ↔
    (['\'', '"'].all fun mark => decide (longestRun mark 0 text.toList ≤ runLimit)) = true := by
  rw [List.all_eq_true]
  refine forall₂_congr fun mark _ => ?_
  rw [decide_eq_true_iff, ← Nat.not_lt, lt_longestRun_iff, List.replicate_zero, List.nil_append]

instance (text : String) : Decidable (Quotable text) :=
  decidable_of_iff' _ (quotable_iff text)

/-- A text is quoted exactly if it has no more quotes in a row than one byte counts. -/
theorem quoteText_eq (text : String) :
    quoteText text = if Quotable text then .ok (quoted text) else .error .quoteOverflow := by
  simp only [quoteText, quotable_iff]
  rfl

end CodeCensus.Toml
