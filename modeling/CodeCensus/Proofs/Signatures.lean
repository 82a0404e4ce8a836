import CodeCensus.Proofs.Members
import CodeCensus.Proofs.SplitCharacter

/-!
# What a method is told by

A name declares a method where three things come together: what stands before it admits a
declaration, it opens a list in parentheses that is closed again, and what stands behind the list
continues a declaration. The last two are read off the text from the name on and make up the
signature; the first one is all that depends on what was passed before.
-/

namespace CodeCensus.Source

open CodeCensus.Text

variable {c : Char} {text more rest passed behind name : List Char} {inner : Nat} {call : Call}

/-! ### Lists in parentheses -/

/-- A text without parentheses nests and closes them. -/
theorem paired_of_free (noOpening : '(' ∉ text) (noClosing : ')' ∉ text) : Paired text where
  nested front within := by
    have none_closed : ')' ∉ front := fun member => noClosing (within.mem member)
    simp [List.count_eq_zero.mpr none_closed]
  closed := by rw [List.count_eq_zero.mpr noOpening, List.count_eq_zero.mpr noClosing]

/-- Two texts that nest and close their parentheses do so one behind the other. -/
theorem Paired.append (first : Paired text) (later : Paired more) : Paired (text ++ more) where
  nested := first.nested_append later.nested
  closed := by
    rw [List.count_append, List.count_append, first.closed, later.closed]

/-- With so many parentheses open before it, the text nests its own and closes all of them. -/
structure PairedIn (inner : Nat) (text : List Char) : Prop where
  nested : ∀ front, front <+: text → front.count ')' ≤ front.count '(' + inner
  closed : text.count ')' = text.count '(' + inner

private theorem pairedIn_nil : PairedIn inner [] ↔ inner = 0 := by
  constructor
  · intro paired
    simpa using paired.closed.symm
  · rintro rfl
    exact ⟨fun front within => by simp [List.prefix_nil.mp within], rfl⟩

private theorem pairedIn_zero : PairedIn 0 text ↔ Paired text :=
  ⟨fun paired => ⟨paired.nested, paired.closed⟩, fun paired => ⟨paired.nested, paired.closed⟩⟩

/-- The first character is in every front of the text but the empty one. -/
theorem pairedIn_cons : PairedIn inner (c :: text) ↔
    (∀ front, front <+: text → (c :: front).count ')' ≤ (c :: front).count '(' + inner) ∧
      (c :: text).count ')' = (c :: text).count '(' + inner := by
  constructor
  · intro paired
    exact ⟨fun front within => paired.nested _ (List.cons_prefix_cons.mpr ⟨rfl, within⟩),
      paired.closed⟩
  · rintro ⟨nested, closed⟩
    refine ⟨fun front within => ?_, closed⟩
    cases front with
    | nil => exact Nat.zero_le _
    | cons d front =>
      obtain ⟨rfl, inside⟩ := List.cons_prefix_cons.mp within
      exact nested front inside

private theorem pairedIn_open : PairedIn inner ('(' :: text) ↔ PairedIn (inner + 1) text := by
  have deeper : ∀ front : List Char,
      ('(' :: front).count '(' + inner = front.count '(' + (inner + 1) := by
    intro front
    simp
    omega
  simp only [pairedIn_cons, deeper]
  exact ⟨fun ⟨nested, closed⟩ => ⟨by simpa using nested, by simpa using closed⟩,
    fun paired => ⟨by simpa using paired.nested, by simpa using paired.closed⟩⟩

private theorem pairedIn_close : PairedIn (inner + 1) (')' :: text) ↔ PairedIn inner text := by
  have less : ∀ front : List Char, (')' :: front).count '(' = front.count '(' := by
    intro front
    simp
  simp only [pairedIn_cons, List.count_cons_self, less, ← Nat.add_assoc, Nat.add_le_add_iff_right,
    Nat.add_right_cancel_iff]
  exact ⟨fun ⟨nested, closed⟩ => ⟨nested, closed⟩, fun paired => ⟨paired.nested, paired.closed⟩⟩

private theorem not_pairedIn_close : ¬PairedIn 0 (')' :: text) := by
  intro paired
  have first := (pairedIn_cons.mp paired).1 [] List.nil_prefix
  simp at first

private theorem pairedIn_other (notOpen : c ≠ '(') (notClose : c ≠ ')') :
    PairedIn inner (c :: text) ↔ PairedIn inner text := by
  simp only [pairedIn_cons, List.count_cons_of_ne notOpen, List.count_cons_of_ne notClose]
  exact ⟨fun ⟨nested, closed⟩ => ⟨nested, closed⟩, fun paired => ⟨paired.nested, paired.closed⟩⟩

/-- A text that nests and closes its parentheses does so in a list of its own. -/
theorem Paired.enclosed (paired : Paired text) : Paired ('(' :: (text ++ [')'])) := by
  have closed := paired.closed
  refine pairedIn_zero.mp (pairedIn_open.mpr ⟨fun front within => ?_, ?_⟩)
  · rcases List.prefix_concat_iff.mp within with rfl | inside
    · simp
      omega
    · have nested := paired.nested front inside
      omega
  · simp
    omega

/-- A list that is open, with so many lists open within it, is closed behind the first text that
nests its parentheses and closes those lists. -/
theorem afterClosing?_eq_some : afterClosing? inner text = some rest ↔
    ∃ list, text = list ++ ')' :: rest ∧ PairedIn inner list := by
  induction text generalizing inner with
  | nil => simp [afterClosing?]
  | cons c text inductionHypothesis =>
    -- The list closes right here, or its first character stands here.
    have parted : (∃ list, c :: text = list ++ ')' :: rest ∧ PairedIn inner list) ↔
        (c = ')' ∧ text = rest ∧ inner = 0) ∨
          ∃ list, text = list ++ ')' :: rest ∧ PairedIn inner (c :: list) := by
      constructor
      · rintro ⟨list, whole, paired⟩
        cases list with
        | nil =>
          obtain ⟨rfl, rfl⟩ := List.cons.inj whole
          exact .inl ⟨rfl, rfl, pairedIn_nil.mp paired⟩
        | cons d list =>
          obtain ⟨rfl, same⟩ := List.cons.inj whole
          exact .inr ⟨list, same, paired⟩
      · rintro (⟨rfl, rfl, none_open⟩ | ⟨list, rfl, paired⟩)
        · exact ⟨[], rfl, pairedIn_nil.mpr none_open⟩
        · exact ⟨c :: list, rfl, paired⟩
    rw [parted]
    by_cases opens : c = '('
    · subst opens
      simp [afterClosing?, inductionHypothesis, pairedIn_open]
    by_cases closes : c = ')'
    · subst closes
      cases inner with
      | zero => simp [afterClosing?, not_pairedIn_close]
      | succ inner => simp [afterClosing?, inductionHypothesis, pairedIn_close]
    · simp [afterClosing?_other opens closes, inductionHypothesis, closes,
        pairedIn_other opens closes]

private theorem afterClosing?_zero_eq_some : afterClosing? 0 text = some rest ↔
    ∃ list, text = list ++ ')' :: rest ∧ Paired list := by
  simp only [afterClosing?_eq_some, pairedIn_zero]

/-! ### Words before a name -/

instance : Decidable (IsName name) :=
  decidable_of_iff (name.head?.any isNameStart = true ∧ name.tail.all isNamePart = true) (by
    cases name <;> simp [IsName])

/-- A name all of whose characters are letters and numerals of a word, as looking back reads them. -/
structure Identifier where
  text : List Char
  isName : IsName text
  letters : ∀ c ∈ text, isWordLetter c = true

/-- An identifier is not empty. -/
theorem Identifier.text_ne_nil (identifier : Identifier) : identifier.text ≠ [] := by
  obtain ⟨first, others, spelled, -⟩ := identifier.isName
  simp [spelled]

/-- What is no letter of a word is in no identifier. -/
theorem Identifier.not_mem (identifier : Identifier) (noLetter : isWordLetter c = false) :
    c ∉ identifier.text := by
  intro member
  simp [identifier.letters c member] at noLetter

/-- An identifier holds no parenthesis, so none is left open. -/
theorem Identifier.paired (identifier : Identifier) : Paired identifier.text :=
  paired_of_free (identifier.not_mem (by decide +kernel)) (identifier.not_mem (by decide +kernel))

/-- Every character takes a single byte or belongs to words, so looking back splits none. -/
def Plain (text : List Char) : Prop :=
  ∀ c ∈ text, isSingleByte c = true ∨ isWordLetter c = true

instance : Decidable (Plain text) :=
  decidable_of_iff (text.all (fun c => isSingleByte c || isWordLetter c) = true) (by simp [Plain])

/-- Two plain texts are plain one behind the other. -/
theorem Plain.append (first : Plain text) (later : Plain more) : Plain (text ++ more) := by
  intro c member
  rcases List.mem_append.mp member with inside | inside
  · exact first c inside
  · exact later c inside

/-- An identifier is plain. -/
theorem Identifier.plain (identifier : Identifier) : Plain identifier.text :=
  fun c member => .inr (identifier.letters c member)

/-- Whether a text is plain does not depend on its direction. -/
theorem plain_reverse : Plain text.reverse ↔ Plain text := by
  simp [Plain]

/-- In a plain text, the word that ends it is found. -/
theorem Plain.trailingWord? (plain : Plain behind) : trailingWord? behind =
    .ok (if (trimFront behind).takeWhile isWordLetter = [] then none
      else some ⟨(trimFront behind).dropWhile isWordLetter,
        ((trimFront behind).takeWhile isWordLetter).reverse⟩) := by
  have single : ((trimFront behind).dropWhile isWordLetter).head?.all isSingleByte = true := by
    cases before : (trimFront behind).dropWhile isWordLetter with
    | nil => rfl
    | cons c rest =>
      obtain ⟨word, inside, -, stops⟩ := dropWhile_eq_iff.mp before
      obtain ⟨blanks, whole, -, -⟩ := dropWhile_eq_iff.mp inside
      exact (plain c (by simp [whole])).resolve_right (by simp [stops c rfl])
  simp [Source.trailingWord?, single]

private theorem trailingWord?_eq_ok {word? : Option TrailingWord}
    (found : trailingWord? behind = .ok word?) :
    word? = if (trimFront behind).takeWhile isWordLetter = [] then none
      else some ⟨(trimFront behind).dropWhile isWordLetter,
        ((trimFront behind).takeWhile isWordLetter).reverse⟩ := by
  unfold trailingWord? at found
  dsimp only at found
  split at found
  · simpa using (Except.ok.inj found).symm
  · cases found

/-- A text that begins with letters begins visibly. -/
theorem visible_of_letters {word : List Char} (filled : word ≠ [])
    (letters : ∀ c ∈ word, isWordLetter c = true) (rest : List Char) :
    ∀ c, (word ++ rest).head? = some c → isBlank c = false := by
  obtain ⟨first, others, rfl⟩ := List.exists_cons_of_ne_nil filled
  rintro c ⟨⟩
  exact isBlank_of_isWordLetter (letters first List.mem_cons_self)

/-- Behind a word a name may be declared unless the word is `new` or names an annotation. -/
theorem admits_behind_word {word before : List Char} (plain : Plain behind)
    (shown : trimFront behind = word.reverse ++ before) (filled : word ≠ [])
    (letters : ∀ c ∈ word, isWordLetter c = true)
    (stops : ∀ c, before.head? = some c → isWordLetter c = false) :
    admitsDeclaration behind = .ok (word != "new".toList && before.head? != some '@') := by
  have turned : ∀ c ∈ word.reverse, isWordLetter c = true := by simpa using letters
  obtain ⟨taken, dropped⟩ := span_before stops word.reverse
  rw [List.takeWhile_eq_self_iff.mpr turned] at taken
  rw [List.dropWhile_eq_nil_iff.mpr turned, List.nil_append] at dropped
  obtain ⟨c, others, spelled⟩ := List.exists_cons_of_ne_nil (List.reverse_ne_nil_iff.mpr filled)
  have letter : isWordLetter c = true := turned c (by simp [spelled])
  have visible : trimFront (word.reverse ++ before) = word.reverse ++ before :=
    dropWhile_eq_iff.mpr ⟨[], rfl, by simp,
      visible_of_letters (List.reverse_ne_nil_iff.mpr filled) turned before⟩
  have rest : Plain (word.reverse ++ before) := by
    have within : trimFront behind <:+ behind := List.dropWhile_suffix _
    exact fun d member => plain d (within.mem (shown ▸ member))
  have ends : trailingWord? (word.reverse ++ before) = .ok (some ⟨before, word⟩) := by
    rw [rest.trailingWord?, visible, taken, dropped, if_neg (List.reverse_ne_nil_iff.mpr filled),
      List.reverse_reverse]
  have noSign : ∀ sign ∈ [';', '}', '>', ']', ')'], isWordLetter sign = false :=
    none_passes (by decide +kernel)
  have other : ∀ sign ∈ [';', '}', '>', ']', ')'], c ≠ sign := by
    rintro sign listed rfl
    simp [noSign c listed] at letter
  rw [spelled, List.cons_append] at shown ends
  rw [admitsDeclaration, shown]
  simp [other ';' (by decide), other '}' (by decide), other '>' (by decide), other ']' (by decide),
    other ')' (by decide), ends, bind, pure, Except.bind, Except.pure]

/-- The text ends with a word right behind an at sign, blanks aside. -/
def NamesNote (text : List Char) : Prop :=
  ∃ before word blanks, text = before ++ '@' :: (word ++ blanks) ∧ word ≠ [] ∧
    (∀ c ∈ word, isWordLetter c = true) ∧ ∀ c ∈ blanks, isBlank c = true

/-- Where looking back splits no character, it tells whether the last word names an annotation. -/
theorem lastWord_marked {marked : Bool} (told : ((trailingWord? behind).bind fun word? =>
    .ok (word?.any fun word => word.behind.head? == some '@')) = .ok marked) :
    marked = true ↔ NamesNote behind.reverse := by
  obtain ⟨word?, found, same⟩ := Fault.bind_eq_ok.mp told
  rw [← Except.ok.inj same, trailingWord?_eq_ok found]
  have whole : (trimFront behind).takeWhile isWordLetter ++
      (trimFront behind).dropWhile isWordLetter = trimFront behind := List.takeWhile_append_dropWhile
  constructor
  · intro marked
    split at marked
    · cases marked
    · next filled =>
      obtain ⟨earlier, before⟩ := List.head?_eq_some_iff.mp (by simpa using marked)
      obtain ⟨blanks, same, blank, -⟩ := (@dropWhile_eq_iff isBlank behind _).mp rfl
      refine ⟨earlier.reverse, ((trimFront behind).takeWhile isWordLetter).reverse, blanks.reverse,
        ?_, by simpa using filled, ?_, by simpa using blank⟩
      · calc behind.reverse
          _ = (trimFront behind).reverse ++ blanks.reverse :=
            (congrArg List.reverse same).trans List.reverse_append
          _ = ((trimFront behind).takeWhile isWordLetter ++ '@' :: earlier).reverse ++
              blanks.reverse :=
            congrArg (·.reverse ++ blanks.reverse) (whole.symm.trans (by rw [before]))
          _ = _ := by simp
      · intro c member
        exact List.mem_takeWhile_imp (List.mem_reverse.mp member)
  · rintro ⟨before, word, blanks, same, filled, letters, blank⟩
    have turned : behind = blanks.reverse ++ (word.reverse ++ '@' :: before.reverse) := by
      rw [← List.reverse_reverse behind, same]
      simp
    have all : ∀ c ∈ word.reverse, isWordLetter c = true := by simpa using letters
    have trimmed : trimFront behind = word.reverse ++ '@' :: before.reverse :=
      dropWhile_eq_iff.mpr ⟨blanks.reverse, turned, by simpa using blank,
        visible_of_letters (List.reverse_ne_nil_iff.mpr filled) all _⟩
    have stops : ∀ c, ('@' :: before.reverse).head? = some c → isWordLetter c = false := by
      rintro c ⟨⟩
      decide +kernel
    obtain ⟨taken, dropped⟩ := span_before stops word.reverse
    rw [trimmed, taken, dropped, List.takeWhile_eq_self_iff.mpr all,
      List.dropWhile_eq_nil_iff.mpr all]
    simp [filled]

/-- A name stands at the front of a text visibly, and opens no list by itself. -/
theorem IsName.visible (isName : IsName name) (rest : List Char) :
    trimFront (name ++ rest) = name ++ rest ∧ ∀ ahead, name ++ rest ≠ '(' :: ahead := by
  obtain ⟨first, others, rfl, start, -⟩ := isName
  refine ⟨List.dropWhile_cons_of_neg (by simp [isBlank_of_isNameStart start]), ?_⟩
  rintro ahead same
  obtain ⟨rfl, -⟩ := List.cons.inj same
  exact absurd start (by decide)

/-- No call lies over a border behind which a name begins. -/
theorem apart_of_isName (isName : IsName name) (rest : List Char)
    (stops : ∀ c, passed.getLast? = some c → isNamePart c = false) :
    Apart passed (name ++ rest) where
  name c _ last _ := .inl (stops c last)
  call := by
    obtain ⟨visible, noList⟩ := isName.visible rest
    rw [visible]
    refine .inl fun opens => ?_
    obtain ⟨ahead, same⟩ := List.head?_eq_some_iff.mp opens
    exact noList ahead same

/-- A word is at the front of a text alone where a character follows that the word does not hold. -/
theorem prefix_append_iff {word : List Char} (apart : c ∉ word) :
    word <+: text ++ c :: more ↔ word <+: text := by
  refine ⟨fun within => ?_, fun within => within.trans (List.prefix_append text _)⟩
  rcases List.prefix_or_prefix_of_prefix within (List.prefix_append text _) with inside | beyond
  · exact inside
  · obtain ⟨tail, rfl⟩ := beyond
    cases tail with
    | nil => simp
    | cons d tail =>
      have first := (List.prefix_append_right_inj text).mp within
      obtain ⟨rfl, -⟩ := List.cons_prefix_cons.mp first
      exact absurd (by simp) apart

/-! ### Signatures -/

/-- No blank goes on a name. -/
theorem isNamePart_of_isBlank (blank : isBlank c = true) : isNamePart c = false := by
  have apart : allBlanks.all (fun blank => !isNamePart blank) = true := by decide +kernel
  simpa using List.all_eq_true.mp apart c (mem_allBlanks blank)

/-- What stands behind the opening parenthesis of a method: the rest of its list of parameters, and
what continues a declaration. -/
def EndsSignature (ahead : List Char) : Prop :=
  ∃ list after, ahead = list ++ ')' :: after ∧ Paired list ∧ continuesDeclaration after = true

/-- The text begins with the name of a method and its list of parameters, and goes on as a
declaration does. -/
def Signature (name text : List Char) : Prop :=
  ∃ gap ahead, text = name ++ (gap ++ '(' :: ahead) ∧ IsName name ∧ name ∉ reservedNames ∧
    (∀ c ∈ gap, isBlank c = true) ∧ EndsSignature ahead

/-- The list of parameters is closed where the search for its end stops. -/
theorem endsSignature_iff {ahead : List Char} : EndsSignature ahead ↔
    ∃ after, afterClosing? 0 ahead = some after ∧ continuesDeclaration after = true := by
  simp only [EndsSignature, afterClosing?_zero_eq_some]
  constructor
  · rintro ⟨list, after, whole, paired, continued⟩
    exact ⟨after, ⟨list, whole, paired⟩, continued⟩
  · rintro ⟨after, ⟨list, whole, paired⟩, continued⟩
    exact ⟨list, after, whole, paired, continued⟩

instance {ahead : List Char} : Decidable (EndsSignature ahead) :=
  decidable_of_iff ((afterClosing? 0 ahead).any continuesDeclaration = true) (by
    simp only [endsSignature_iff, Option.any_eq_true])

/-- What continues a declaration is looked for at the front of what a text shows, and of what stands
behind it from a visible character on. -/
theorem continuesDeclaration_border (visible : isBlank c = false) :
    continuesDeclaration (text ++ c :: more) = true ↔
      ∃ word ∈ [['{'], [';'], "throws".toList, "default".toList],
        word <+: trimFront text ++ c :: more := by
  have stops : ∀ d, (c :: more).head? = some d → isBlank d = false := by
    rintro d ⟨⟩
    exact visible
  have trimmed : trimFront (text ++ c :: more) = trimFront text ++ c :: more :=
    (span_before stops text).2
  simp only [continuesDeclaration, trimmed, List.any_eq_true, List.isPrefixOf_iff_prefix]

/-- A call declares a method exactly when its name may be declared where it stands and the end of a
signature stands behind its parenthesis. -/
theorem Call.method?_eq_some : call.method? = .ok (some name) ↔ call.name = name ∧
    name ∉ reservedNames ∧ admitsDeclaration call.behind = .ok true ∧ EndsSignature call.ahead := by
  rw [method?, endsSignature_iff]
  split
  · next reserved =>
    have known : call.name ∈ reservedNames := List.contains_iff_mem.mp reserved
    refine iff_of_false (by simp) ?_
    rintro ⟨rfl, free, -⟩
    exact free known
  · next free =>
    have unknown : call.name ∉ reservedNames := fun known =>
      free (List.contains_iff_mem.mpr known)
    refine Fault.bind_eq_ok.trans ?_
    constructor
    · rintro ⟨admitted, admits, told⟩
      cases admitted with
      | false => cases told
      | true =>
        cases closing : afterClosing? 0 call.ahead with
        | none =>
          rw [closing] at told
          cases told
        | some after =>
          rw [closing] at told
          cases continued : continuesDeclaration after with
          | false =>
            rw [if_pos rfl] at told
            simp [continued, pure, Except.pure] at told
          | true =>
            obtain rfl : call.name = name := by
              simpa [continued, pure, Except.pure] using told
            exact ⟨rfl, unknown, admits, after, rfl, continued⟩
    · rintro ⟨rfl, -, admits, after, closing, continued⟩
      exact ⟨true, admits, by simp [closing, continued, pure, Except.pure]⟩

/-- Where looking back splits no character, a call has an answer. -/
theorem Call.method?_ends {admitted : Bool} (admits : admitsDeclaration call.behind = .ok admitted) :
    ∃ method?, call.method? = .ok method? := by
  refine call.method?_only.ends.resolve_right fun faulted => ?_
  have splits := admitsDeclaration_faults.mpr (Call.method?_faults.mp faulted).2
  rw [admits] at splits
  cases splits

/-- A call that has an answer and a name that a method may have says whether its name may be
declared. -/
theorem Call.admits_of_told {method? : Option (List Char)} (told : call.method? = .ok method?)
    (free : call.name ∉ reservedNames) :
    ∃ admitted, admitsDeclaration call.behind = .ok admitted := by
  refine (admitsDeclaration_only call.behind).ends.resolve_right fun faulted => ?_
  rw [Call.method?_faults.mpr ⟨free, admitsDeclaration_faults.mp faulted⟩] at told
  cases told

/-- A call declares nothing where its name may not be declared. -/
theorem Call.method?_refused (refused : admitsDeclaration call.behind = .ok false) :
    call.method? = .ok none := by
  obtain ⟨method?, told⟩ := call.method?_ends refused
  cases method? with
  | none => exact told
  | some name =>
    obtain ⟨-, -, admits, -⟩ := method?_eq_some.mp told
    rw [refused] at admits
    cases admits

/-- The search finds a signature at its name. -/
theorem Signature.callsFrom (signature : Signature name text) (behind : List Char) :
    ∃ ahead rest, EndsSignature ahead ∧ callsFrom behind 0 text =
      ⟨behind, name, ahead⟩ :: callsFrom (name.reverse ++ behind) 0 rest := by
  obtain ⟨gap, ahead, rfl, isName, -, blank, ends⟩ := signature
  have stops : ∀ c, (gap ++ '(' :: ahead).head? = some c → isNamePart c = false := by
    intro c first
    cases gap with
    | nil =>
      obtain rfl : '(' = c := by simpa using first
      decide
    | cons d gap =>
      obtain rfl : d = c := by simpa using first
      exact isNamePart_of_isBlank (blank _ List.mem_cons_self)
  have opens : trimFront (gap ++ '(' :: ahead) = '(' :: ahead :=
    dropWhile_eq_iff.mpr ⟨gap, rfl, blank, by simp; decide⟩
  have here : callHere? behind name (gap ++ '(' :: ahead) = some ⟨behind, name, ahead⟩ :=
    callHere?_eq_some.mpr ⟨rfl, rfl, opens⟩
  exact ⟨ahead, _, ends, by rw [callsFrom_name isName stops, here]; rfl⟩

/-- A call that declares a method stands where a signature begins, and where the text before it
admits a declaration. -/
theorem exists_signature (member : call ∈ callsFrom passed 0 text)
    (declares : call.method? = .ok (some name)) : ∃ front more, text = front ++ more ∧
      call.behind = front.reverse ++ passed ∧ Signature name more ∧
      admitsDeclaration call.behind = .ok true := by
  obtain ⟨rfl, free, admits, ends⟩ := Call.method?_eq_some.mp declares
  obtain ⟨front, gap, before, isName, blank, whole⟩ := callsFrom_place member
  exact ⟨front, _, whole, before, ⟨gap, call.ahead, rfl, isName, free, blank, ends⟩, admits⟩

/-! ### Methods of a text -/

/-- The first of some calls puts its own method in front. -/
theorem methodsOf_cons {method? : Option (List Char)} (told : call.method? = .ok method?)
    (calls : List Call) : methodsOf (call :: calls) = do
      let others ← methodsOf calls
      return method?.toList ++ others := by
  have first : methodsOf [call] = .ok method?.toList := by
    cases method? <;> simp [methodsOf, told, bind, pure, Except.bind, Except.pure]
  rw [← List.singleton_append, methodsOf_append, first]
  rfl

/-- Where calls declare methods, each of them has an answer. -/
theorem methodsOf_told {calls : List Call} {names : List (List Char)}
    (found : methodsOf calls = .ok names) (member : call ∈ calls) :
    ∃ method?, call.method? = .ok method? := by
  obtain ⟨methods, done, -⟩ := Fault.bind_eq_ok.mp found
  obtain ⟨method?, -, told⟩ := Fault.mapM_mem done member
  exact ⟨method?, told⟩

/-- Calls declare no method exactly if each of them answers that it declares none. -/
theorem methodsOf_eq_nil {calls : List Call} :
    methodsOf calls = .ok [] ↔ ∀ call ∈ calls, call.method? = .ok none := by
  refine Fault.bind_eq_ok.trans ?_
  constructor
  · rintro ⟨methods, done, none_declared⟩ call member
    obtain ⟨method?, listed, told⟩ := Fault.mapM_mem done member
    cases method? with
    | none => exact told
    | some name =>
      have declared : name ∈ methods.filterMap id := List.mem_filterMap.mpr ⟨_, listed, rfl⟩
      rw [Except.ok.inj none_declared] at declared
      cases declared
  · intro each
    obtain ⟨methods, done⟩ := Fault.mapM_ends_iff.mpr fun call member => ⟨_, each call member⟩
    refine ⟨methods, done, congrArg Except.ok (List.filterMap_eq_nil_iff.mpr ?_)⟩
    intro method? listed
    obtain ⟨call, member, told⟩ := Fault.mapM_source done listed
    exact (Except.ok.inj ((each call member).symm.trans told)).symm

/-- Looking back over plain characters splits none. -/
theorem Plain.not_splits (plain : Plain text) (member : call ∈ calls text) : ¬call.Splits := by
  rintro ⟨-, splits⟩
  obtain ⟨c, inBehind, wide, noLetter⟩ := splits.wide
  have inText : c ∈ text :=
    (mem_callsFrom member (List.mem_reverse.mp inBehind)).resolve_left List.not_mem_nil
  rcases plain c inText with single | letter
  · simp [wide] at single
  · simp [noLetter] at letter

/-- A text without an opening parenthesis declares nothing. -/
theorem methodsIn_of_free (free : '(' ∉ text) : methodsIn text = .ok [] := by
  refine methodsOf_eq_nil.mpr fun call member => ?_
  obtain ⟨front, gap, -, -, -, whole⟩ := callsFrom_place member
  exact absurd (by simp [whole]) free

/-- Whole members in front of two texts leave it open whether both declare the same, unless looking
back splits a character in the members. -/
theorem Whole.methodsIn_congr {other : List Char} (whole : Whole passed) (opens : OpensFirst text)
    (otherOpens : OpensFirst other) : methodsIn (passed ++ text) = methodsIn (passed ++ other) ↔
      (∃ fault, methodsIn passed = .error fault) ∨ methodsIn text = methodsIn other := by
  rw [methodsIn_append whole opens, methodsIn_append whole otherOpens]
  cases methodsIn passed with
  | error fault => exact iff_of_true rfl (.inl ⟨fault, rfl⟩)
  | ok own =>
    refine Iff.trans ?_ (or_iff_right (by simp)).symm
    constructor
    · intro same
      cases there : methodsIn text <;> cases here : methodsIn other <;>
        simp [there, here, bind, pure, Except.bind, Except.pure] at same ⊢ <;> exact same
    · intro same
      rw [same]

end CodeCensus.Source
