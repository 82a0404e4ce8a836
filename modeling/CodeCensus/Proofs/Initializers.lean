import CodeCensus.Proofs.Signatures

/-!
# Initializers of fields

A call in the initializer of a field declares no method as long as an operator, a separator, an
opening parenthesis or the word `new` stands before it. One sign is taken for the end of a type
wherever it stands, and arrows and comparisons end with it too: behind that sign a call that ends the
initializer reads as a method. So an initializer declares nothing exactly where it holds no such call.
-/

namespace CodeCensus.Source

open CodeCensus.Text

/-! ### Expressions -/

/-- The signs of expressions: dots, commas, parentheses and the characters of operators. -/
def expressionSigns : List Char :=
  ['.', ',', '(', ')', '+', '-', '*', '/', '%', '&', '|', '^', '!', '~', '=', '<', '>', '?', ':']

/-- What expressions are built of. -/
inductive Symbol
  | name (identifier : Identifier)
  | sign (c : Char) (listed : c ∈ expressionSigns)

def Symbol.text : Symbol → List Char
  | .name identifier => identifier.text
  | .sign c _ => [c]

/-- A symbol and the gap before it. -/
structure Lexeme where
  gap : List Char
  symbol : Symbol
  spaced : ∀ c ∈ gap, isSpacing c = true

def Lexeme.text (lexeme : Lexeme) : List Char :=
  lexeme.gap ++ lexeme.symbol.text

/-- Of two names beside each other, the first is the word `new`, and a gap parts them. -/
def Beside (first later : Lexeme) : Prop :=
  match first.symbol, later.symbol with
  | .name word, .name _ => word.text = "new".toList ∧ later.gap ≠ []
  | _, _ => True

instance : DecidableRel Beside
  | ⟨_, .name word, _⟩, ⟨gap, .name _, _⟩ =>
    inferInstanceAs (Decidable (word.text = "new".toList ∧ gap ≠ []))
  | ⟨_, .name _, _⟩, ⟨_, .sign _ _, _⟩ => inferInstanceAs (Decidable True)
  | ⟨_, .sign _ _, _⟩, ⟨_, _, _⟩ => inferInstanceAs (Decidable True)

/-- An expression without braces: its symbols, and the gap behind the last of them. -/
structure Expression where
  lexemes : List Lexeme
  ending : List Char
  beside : lexemes.IsChain Beside
  spaced : ∀ c ∈ ending, isSpacing c = true
  paired : Paired (lexemes.flatMap Lexeme.text)

def Expression.text (expression : Expression) : List Char :=
  expression.lexemes.flatMap Lexeme.text ++ expression.ending

/-- A field without an initializer. -/
def bareField (type variableName : Identifier) : List Char :=
  type.text ++ ' ' :: (variableName.text ++ [';'])

/-- What stands in a field before its initializer. -/
def fieldHead (type variableName : Identifier) : List Char :=
  type.text ++ ' ' :: (variableName.text ++ " = ".toList)

/-- A field with an initializer. -/
def field (type variableName : Identifier) (initializer : Expression) : List Char :=
  fieldHead type variableName ++ (initializer.text ++ [';'])

variable {c : Char} {text rest behind ending name : List Char} {symbol : Symbol} {call : Call}

/-- Signs that are looked for behind and ahead of a call, and that expressions do not hold. -/
def foreignSigns : List Char :=
  ['@', ';', '{', '}', ']']

/-- A character of an expression: no foreign sign, and one byte long or a letter of a word. -/
def Native (c : Char) : Prop :=
  c ∉ foreignSigns ∧ (isSingleByte c = true ∨ isWordLetter c = true)

private theorem native_of_isWordLetter (letter : isWordLetter c = true) : Native c := by
  have apart : ∀ sign ∈ foreignSigns, isWordLetter sign = false := none_passes (by decide +kernel)
  refine ⟨fun foreign => ?_, .inr letter⟩
  simp [apart c foreign] at letter

private theorem native_of_isSpacing (spacing : isSpacing c = true) : Native c := by
  have apart : ∀ sign ∈ foreignSigns, isSpacing sign = false := none_passes (by decide)
  refine ⟨fun foreign => ?_, .inl (isSingleByte_of_isSpacing c spacing)⟩
  simp [apart c foreign] at spacing

private theorem native_of_listed (listed : c ∈ expressionSigns) : Native c := by
  have apart : ∀ sign ∈ expressionSigns, foreignSigns.contains sign = false :=
    none_passes (by decide)
  have single : ∀ sign ∈ expressionSigns, isSingleByte sign = true :=
    List.all_eq_true.mp (by decide)
  exact ⟨by simpa using apart c listed, .inl (single c listed)⟩

private theorem Identifier.native (identifier : Identifier) : ∀ c ∈ identifier.text, Native c :=
  fun c member => native_of_isWordLetter (identifier.letters c member)

private theorem Lexeme.native (lexeme : Lexeme) : ∀ c ∈ lexeme.text, Native c := by
  intro c member
  rcases List.mem_append.mp member with inGap | inSymbol
  · exact native_of_isSpacing (lexeme.spaced c inGap)
  · cases shape : lexeme.symbol with
    | name identifier => exact identifier.native c (by simpa [shape, Symbol.text] using inSymbol)
    | sign sign listed =>
      obtain rfl : c = sign := by simpa [shape, Symbol.text] using inSymbol
      exact native_of_listed listed

private theorem Expression.native (expression : Expression) : ∀ c ∈ expression.text, Native c := by
  intro c member
  rcases List.mem_append.mp member with inside | inEnding
  · obtain ⟨lexeme, -, within⟩ := List.mem_flatMap.mp inside
    exact lexeme.native c within
  · exact native_of_isSpacing (expression.spaced c inEnding)

private theorem plain_of_native (native : ∀ c ∈ text, Native c) : Plain text :=
  fun c member => (native c member).2

private theorem isNamePart_of_listed (listed : c ∈ expressionSigns) : isNamePart c = false := by
  have apart : ∀ sign ∈ expressionSigns, isNamePart sign = false := none_passes (by decide +kernel)
  exact apart c listed

private theorem isWordLetter_of_listed (listed : c ∈ expressionSigns) : isWordLetter c = false := by
  have apart : ∀ sign ∈ expressionSigns, isWordLetter sign = false :=
    none_passes (by decide +kernel)
  exact apart c listed

/-! ### What stands before a call -/

/-- The text passed ends with the symbol, gaps aside, and no letter stands before a name. -/
def StandsBehind (symbol : Symbol) (behind : List Char) : Prop :=
  ∃ gap before, behind = gap ++ (symbol.text.reverse ++ before) ∧
    (∀ c ∈ gap, isSpacing c = true) ∧
    ∀ identifier, symbol = .name identifier → ∀ c, before.head? = some c → isWordLetter c = false

private theorem StandsBehind.gap (stands : StandsBehind symbol behind) {gap : List Char}
    (spaced : ∀ c ∈ gap, isSpacing c = true) : StandsBehind symbol (gap.reverse ++ behind) := by
  obtain ⟨inner, before, rfl, innerSpaced, whole⟩ := stands
  refine ⟨gap.reverse ++ inner, before, by simp, ?_, whole⟩
  intro c member
  rcases List.mem_append.mp member with outside | inside
  · exact spaced c (List.mem_reverse.mp outside)
  · exact innerSpaced c inside

private theorem Symbol.text_ne_nil (symbol : Symbol) : symbol.text ≠ [] := by
  cases symbol with
  | name identifier => exact identifier.text_ne_nil
  | sign => exact List.cons_ne_nil _ _

private theorem Symbol.visible (symbol : Symbol) (before : List Char) :
    ∀ c, (symbol.text.reverse ++ before).head? = some c → isBlank c = false := by
  cases symbol with
  | name identifier =>
    exact visible_of_letters (List.reverse_ne_nil_iff.mpr identifier.text_ne_nil)
      (by simpa using identifier.letters) before
  | sign sign listed =>
    have visible : ∀ sign ∈ expressionSigns, isBlank sign = false := none_passes (by decide)
    rintro c ⟨⟩
    exact visible sign listed

private theorem StandsBehind.trimmed (stands : StandsBehind symbol behind) :
    ∃ before, trimFront behind = symbol.text.reverse ++ before ∧
      ∀ identifier, symbol = .name identifier →
        ∀ c, before.head? = some c → isWordLetter c = false := by
  obtain ⟨gap, before, rfl, spaced, whole⟩ := stands
  exact ⟨before, dropWhile_eq_iff.mpr ⟨gap, rfl,
    fun c member => isBlank_of_isSpacing c (spaced c member), symbol.visible before⟩, whole⟩

/-- Where no at sign was passed, no word names an annotation. -/
theorem lastWord_unmarked (plain : Plain behind) (unmarked : '@' ∉ behind) :
    ((trailingWord? behind).bind fun word? =>
      .ok (word?.any fun word => word.behind.head? == some '@')) = .ok false := by
  obtain ⟨marked, told⟩ : ∃ marked, ((trailingWord? behind).bind fun word? =>
      .ok (word?.any fun word => word.behind.head? == some '@')) = .ok marked := by
    rw [plain.trailingWord?]
    exact ⟨_, rfl⟩
  cases marked with
  | false => exact told
  | true =>
    obtain ⟨before, word, blanks, same, -⟩ := (lastWord_marked told).mp rfl
    exact absurd (by rw [← List.mem_reverse, same]; simp) unmarked

/-- A name may be declared behind a symbol of an expression exactly if the symbol is the sign that
ends a type. The one name that may stand before another is `new`. -/
theorem StandsBehind.admits (stands : StandsBehind symbol behind)
    (native : ∀ c ∈ behind, Native c)
    (after : ∀ identifier, symbol = .name identifier → identifier.text = "new".toList) :
    admitsDeclaration behind = .ok ((trimFront behind).head? == some '>') := by
  obtain ⟨before, trimmed, whole⟩ := stands.trimmed
  have within : trimFront behind <:+ behind := List.dropWhile_suffix _
  cases symbol with
  | name identifier =>
    rw [Symbol.text, after identifier rfl] at trimmed
    rw [admits_behind_word (plain_of_native native) trimmed (by decide)
      (List.all_eq_true.mp (by decide +kernel)) (whole identifier rfl), trimmed]
    rfl
  | sign c listed =>
    have spelled : trimFront behind = c :: before := trimmed
    have other : ∀ sign, sign ∉ expressionSigns → c ≠ sign := by
      rintro sign unlisted rfl
      exact unlisted listed
    have noLetter : isWordLetter c = false := isWordLetter_of_listed listed
    rw [admitsDeclaration, spelled]
    by_cases greater : c = '>'
    · simp [greater]
    by_cases closes : c = ')'
    · subst closes
      simp only [Char.reduceEq, or_self, if_false, if_true]
      cases list : before.dropWhile (· != '(') with
      | nil => rfl
      | cons opening earlier =>
        have suffix : earlier <:+ behind := by
          have inner : opening :: earlier <:+ before := list ▸ List.dropWhile_suffix _
          have outer : before <:+ behind := (List.suffix_cons _ _).trans (spelled ▸ within)
          exact (List.suffix_cons _ _).trans (inner.trans outer)
        have plain := plain_of_native fun c member => native c (suffix.mem member)
        exact lastWord_unmarked plain fun marked => (native '@' (suffix.mem marked)).1 (by decide)
    · have plain : Plain (c :: before) :=
        plain_of_native fun d member => native d (within.mem (spelled ▸ member))
      have trimmedAgain : trimFront (c :: before) = c :: before :=
        dropWhile_eq_iff.mpr ⟨[], rfl, by simp, Symbol.visible (.sign c listed) before⟩
      have noWord : trailingWord? (c :: before) = .ok none := by
        rw [plain.trailingWord?, trimmedAgain]
        simp [noLetter]
      simp [other ';' (by decide), other '}' (by decide), other ']' (by decide), greater, closes,
        noWord, bind, pure, Except.bind, Except.pure]

/-! ### The calls of an expression -/

/-- What goes on no name begins none. -/
theorem isNameStart_of_not_isNamePart (noPart : isNamePart c = false) : isNameStart c = false := by
  cases start : isNameStart c with
  | false => rfl
  | true => simp [isNamePart_of_isNameStart start] at noPart

private theorem Beside.names {first later : Lexeme} {word identifier : Identifier}
    (beside : Beside first later) (shape : first.symbol = .name word)
    (other : later.symbol = .name identifier) : word.text = "new".toList ∧ later.gap ≠ [] := by
  simpa only [Beside, shape, other] using beside

/-- A lexeme behind a name begins with what cannot go on the name. -/
theorem Beside.stops {first later : Lexeme} {word : Identifier} (beside : Beside first later)
    (shape : first.symbol = .name word) :
    ∀ c, later.text.head? = some c → isNamePart c = false := by
  intro c head
  cases gap : later.gap with
  | cons space others =>
    obtain rfl : space = c := by simpa [Lexeme.text, gap] using head
    exact isNamePart_of_isSpacing _ (later.spaced _ (by simp [gap]))
  | nil =>
    cases other : later.symbol with
    | name identifier => exact absurd gap (beside.names shape other).2
    | sign sign listed =>
      obtain rfl : sign = c := by simpa [Lexeme.text, gap, other, Symbol.text] using head
      exact isNamePart_of_listed listed

/-- Behind a lexeme that the next one stands beside, the next one is passed with no letter before its
name. -/
theorem StandsBehind.next {first later : Lexeme} (beside : Beside first later)
    (stands : StandsBehind first.symbol behind) :
    StandsBehind later.symbol (later.text.reverse ++ behind) := by
  refine ⟨[], later.gap.reverse ++ behind, by simp [Lexeme.text], by simp, ?_⟩
  intro identifier shape c head
  cases turned : later.gap.reverse with
  | cons space others =>
    obtain rfl : space = c := by simpa [turned] using head
    have member : space ∈ later.gap := by
      rw [← List.mem_reverse, turned]
      exact List.mem_cons_self
    exact isWordLetter_of_isSpacing _ (later.spaced _ member)
  | nil =>
    have noGap : later.gap = [] := List.reverse_eq_nil_iff.mp turned
    obtain ⟨gap, before, rfl, spaced, -⟩ := stands
    cases gap with
    | cons space others =>
      obtain rfl : space = c := by simpa [turned] using head
      exact isWordLetter_of_isSpacing _ (spaced _ List.mem_cons_self)
    | nil =>
      cases other : first.symbol with
      | name word => exact absurd noGap (beside.names other shape).2
      | sign sign listed =>
        obtain rfl : sign = c := by simpa [turned, other, Symbol.text] using head
        exact isWordLetter_of_listed listed

/-- Each call in a row of lexemes stands behind the lexeme before its name, so its name may be
declared exactly behind the sign that ends a type. -/
theorem admits_in_row {lexemes : List Lexeme} {previous : Lexeme}
    (beside : List.IsChain Beside (previous :: lexemes))
    (stands : StandsBehind previous.symbol behind) (native : ∀ c ∈ behind, Native c)
    (nameless : ∀ c ∈ ending, isNamePart c = false)
    (member : call ∈ callsFrom behind 0 (lexemes.flatMap Lexeme.text ++ ending)) :
    admitsDeclaration call.behind = .ok ((trimFront call.behind).head? == some '>') := by
  induction lexemes generalizing previous behind with
  | nil =>
    rw [List.flatMap_nil, List.nil_append, ← List.append_nil ending,
      callsFrom_passed fun c inEnding => isNameStart_of_not_isNamePart (nameless c inEnding)] at member
    cases member
  | cons lexeme lexemes inductionHypothesis =>
    obtain ⟨here, later⟩ := List.isChain_cons_cons.mp beside
    have nextNative : ∀ c ∈ lexeme.text.reverse ++ behind, Native c := by
      intro c inside
      rcases List.mem_append.mp inside with fresh | old
      · exact lexeme.native c (List.mem_reverse.mp fresh)
      · exact native c old
    have onward := inductionHypothesis later (stands.next here) nextNative
    have whole : (lexeme :: lexemes).flatMap Lexeme.text ++ ending = lexeme.gap ++
        (lexeme.symbol.text ++ (lexemes.flatMap Lexeme.text ++ ending)) := by
      simp [Lexeme.text]
    have passed : lexeme.text.reverse ++ behind =
        lexeme.symbol.text.reverse ++ (lexeme.gap.reverse ++ behind) := by
      simp [Lexeme.text]
    rw [passed] at onward
    rw [whole, callsFrom_passed fun c inGap => isNameStart_of_isSpacing c (lexeme.spaced c inGap)]
      at member
    cases shape : lexeme.symbol with
    | sign sign listed =>
      rw [shape] at member onward
      rw [callsFrom_passed] at member
      · exact onward member
      · intro c isSign
        obtain rfl : c = sign := List.mem_singleton.mp isSign
        exact isNameStart_of_not_isNamePart (isNamePart_of_listed listed)
    | name identifier =>
      rw [shape] at member onward
      have stops : ∀ c, (lexemes.flatMap Lexeme.text ++ ending).head? = some c →
          isNamePart c = false := by
        intro c head
        cases lexemes with
        | nil => exact nameless c (List.mem_of_mem_head? (by simpa using head))
        | cons next others =>
          have first := (List.isChain_cons_cons.mp later).1
          obtain ⟨d, more, spelled⟩ : ∃ d more, next.text = d :: more :=
            List.exists_cons_of_ne_nil fun nothing =>
              next.symbol.text_ne_nil (List.append_eq_nil_iff.mp nothing).2
          obtain rfl : d = c := by simpa [spelled] using head
          exact first.stops shape d (by simp [spelled])
      rw [Symbol.text, callsFrom_name identifier.isName stops] at member
      rcases List.mem_append.mp member with first | rest
      · obtain ⟨before, -, -⟩ := callHere?_eq_some.mp (Option.mem_toList.mp first)
        rw [before]
        refine (stands.gap lexeme.spaced).admits ?_ fun word isName => ?_
        · intro c inside
          exact nextNative c (by simp [Lexeme.text] at inside ⊢; tauto)
        · exact (here.names isName shape).1
      · exact onward rest

/-! ### The calls of a field -/

/-- An identifier that opens no list is passed over. -/
theorem callsFrom_identifier (identifier : Identifier)
    (stops : ∀ c, rest.head? = some c → isNamePart c = false)
    (closed : ∀ ahead, trimFront rest ≠ '(' :: ahead) (behind : List Char) :
    callsFrom behind 0 (identifier.text ++ rest) =
      callsFrom (identifier.text.reverse ++ behind) 0 rest := by
  rw [callsFrom_name identifier.isName stops, callHere?_eq_none closed]
  rfl

/-- Neither the type nor the name of a field is a call. -/
theorem callsFrom_fieldHead (type variableName : Identifier) (rest : List Char) :
    callsFrom [] 0 (fieldHead type variableName ++ rest) =
      callsFrom (fieldHead type variableName).reverse 0 rest := by
  have spaced : ∀ text, trimFront (' ' :: text) = trimFront text := fun text =>
    List.dropWhile_cons_of_pos (by decide)
  have equals : ∀ text, trimFront (' ' :: '=' :: text) = '=' :: text := fun text =>
    (spaced _).trans (List.dropWhile_cons_of_neg (by decide))
  have part : ∀ text c, (' ' :: text).head? = some c → isNamePart c = false := by
    rintro text c ⟨⟩
    decide +kernel
  have whole : fieldHead type variableName ++ rest =
      type.text ++ ' ' :: (variableName.text ++ ' ' :: '=' :: ' ' :: rest) := by
    simp [fieldHead]
  have turned : (fieldHead type variableName).reverse =
      " = ".toList.reverse ++ (variableName.text.reverse ++ ([' '] ++ type.text.reverse)) := by
    simp [fieldHead]
  obtain ⟨visible, noList⟩ := variableName.isName.visible (' ' :: '=' :: ' ' :: rest)
  have space : ∀ c ∈ [' '], isNameStart c = false := none_passes (by decide)
  have signs : ∀ c ∈ " = ".toList, isNameStart c = false := none_passes (by decide)
  rw [whole, turned, callsFrom_identifier type (part _) (by rwa [spaced, visible]),
    ← List.singleton_append, callsFrom_passed space,
    callsFrom_identifier variableName (part _) (by simp [equals])]
  exact (callsFrom_passed signs _ rest).trans (by simp)

private theorem calls_field (type variableName : Identifier) (initializer : Expression) :
    calls (field type variableName initializer) =
      callsFrom (fieldHead type variableName).reverse 0
        (initializer.lexemes.flatMap Lexeme.text ++ (initializer.ending ++ [';'])) := by
  rw [calls, field, callsFrom_fieldHead, Expression.text, List.append_assoc]

/-- A name is declared in a field exactly behind the sign that ends a type. -/
theorem admits_in_field {type variableName : Identifier} {initializer : Expression}
    (member : call ∈ calls (field type variableName initializer)) :
    admitsDeclaration call.behind = .ok ((trimFront call.behind).head? == some '>') := by
  let equals : Lexeme := ⟨[' '], .sign '=' (by decide), List.all_eq_true.mp (by decide)⟩
  have beside : List.IsChain Beside (equals :: initializer.lexemes) := by
    cases row : initializer.lexemes with
    | nil => exact .singleton _
    | cons first others => exact .cons_cons trivial (row ▸ initializer.beside)
  have turned : (fieldHead type variableName).reverse =
      [' '] ++ (['='] ++ (' ' :: (variableName.text.reverse ++ ' ' :: type.text.reverse))) := by
    simp [fieldHead]
  have stands : StandsBehind equals.symbol (fieldHead type variableName).reverse :=
    ⟨[' '], _, turned, List.all_eq_true.mp (by decide), nofun⟩
  have native : ∀ c ∈ (fieldHead type variableName).reverse, Native c := by
    intro c inside
    have listed : c ∈ variableName.text ∨ c ∈ type.text ∨ c ∈ [' ', '='] := by
      simp [turned] at inside ⊢
      tauto
    rcases listed with inName | inType | inSigns
    · exact variableName.native c inName
    · exact type.native c inType
    · rcases (by simpa using inSigns : c = ' ' ∨ c = '=') with rfl | rfl
      · exact native_of_isSpacing (by decide)
      · exact native_of_listed (by decide)
  have nameless : ∀ c ∈ initializer.ending ++ [';'], isNamePart c = false := by
    intro c inside
    rcases List.mem_append.mp inside with space | semicolon
    · exact isNamePart_of_isSpacing c (initializer.spaced c space)
    · obtain rfl : c = ';' := List.mem_singleton.mp semicolon
      decide +kernel
  rw [calls_field] at member
  exact admits_in_row beside stands native nameless member

/-! ### Leaks -/

/-- The text holds a call right behind the sign that ends a type, be it an arrow or a comparison, and
behind the list of the call it ends, or goes on as a clause of a method does. -/
def Leaks (initializer : List Char) : Prop :=
  ∃ front gap name space list after,
    initializer = front ++ '>' :: (gap ++ (name ++ (space ++ '(' :: (list ++ ')' :: after)))) ∧
    (∀ c ∈ gap, isBlank c = true) ∧ IsName name ∧ name ∉ reservedNames ∧
    (∀ c ∈ space, isBlank c = true) ∧ Paired list ∧
    (trimFront after = [] ∨ "throws".toList <+: trimFront after ∨
      "default".toList <+: trimFront after)

/-- At the end of a field, what ends the initializer or goes on as a clause continues a declaration. -/
theorem continuesDeclaration_end (native : ∀ c ∈ text, Native c) :
    continuesDeclaration (text ++ [';']) = true ↔ trimFront text = [] ∨
      "throws".toList <+: trimFront text ∨ "default".toList <+: trimFront text := by
  have throwsWord := @prefix_append_iff ';' (trimFront text) [] "throws".toList (by decide)
  have defaultWord := @prefix_append_iff ';' (trimFront text) [] "default".toList (by decide)
  have noSign : ∀ sign ∈ foreignSigns, ([sign] <+: trimFront text ++ [';'] ↔
      trimFront text = [] ∧ sign = ';') := by
    intro sign foreign
    cases shown : trimFront text with
    | nil => simp
    | cons c rest =>
      obtain ⟨blanks, whole, -, -⟩ := dropWhile_eq_iff.mp shown
      have here : Native c := native c (by simp [whole])
      refine iff_of_false ?_ (by simp)
      rintro ⟨tail, same⟩
      obtain ⟨rfl, -⟩ := List.cons.inj same
      exact here.1 foreign
  rw [continuesDeclaration_border (by decide)]
  simp only [List.mem_cons, List.not_mem_nil, or_false, exists_eq_or_imp, exists_eq_left, throwsWord,
    defaultWord, noSign '{' (by decide), noSign ';' (by decide), and_true, Char.reduceEq, and_false,
    false_or]

/-- What leaks from an initializer is a method of the field. -/
theorem Leaks.declares {initializer : Expression} (leaks : Leaks initializer.text)
    (type variableName : Identifier) : ∃ call ∈ calls (field type variableName initializer),
      ∃ name, call.method? = .ok (some name) := by
  obtain ⟨front, gap, name, space, list, after, whole, gapBlank, isName, free, spaceBlank, paired,
    continued⟩ := leaks
  have native : ∀ c ∈ after, Native c := fun c member =>
    initializer.native c (by simp [whole, member])
  let passed := fieldHead type variableName ++ (front ++ '>' :: gap)
  let more := name ++ (space ++ '(' :: (list ++ ')' :: (after ++ [';'])))
  have parted : field type variableName initializer = passed ++ more := by
    simp [field, whole, passed, more]
  have signature : Signature name more :=
    ⟨space, list ++ ')' :: (after ++ [';']), rfl, isName, free, spaceBlank, list, after ++ [';'], rfl,
      paired, (continuesDeclaration_end native).mpr continued⟩
  have apart : Apart passed more := by
    refine apart_of_isName isName _ fun c last => ?_
    have ended : ('>' :: gap).getLast? = some c := by
      simpa [passed, List.getLast?_append, List.getLast?_cons] using last
    rcases List.mem_cons.mp (List.mem_of_getLast? ended) with rfl | inGap
    · decide +kernel
    · exact isNamePart_of_isBlank (gapBlank c inGap)
  have admits : admitsDeclaration passed.reverse = .ok true := by
    have trimmed : trimFront passed.reverse =
        '>' :: (front.reverse ++ (fieldHead type variableName).reverse) :=
      dropWhile_eq_iff.mpr ⟨gap.reverse, by simp [passed], by simpa using gapBlank, by
        rintro c ⟨⟩
        decide⟩
    rw [admitsDeclaration, trimmed]
    rfl
  obtain ⟨ahead, rest, ends, found⟩ := signature.callsFrom []
  refine ⟨Call.after passed ⟨[], name, ahead⟩, ?_, name, ?_⟩
  · rw [parted, calls_append apart]
    refine List.mem_append_right _ (List.mem_map_of_mem ?_)
    rw [calls, found]
    exact List.mem_cons_self
  · exact Call.method?_eq_some.mpr ⟨rfl, free, by simpa [Call.after] using admits, ends⟩

/-- A method of a field is what leaks from its initializer. -/
theorem leaks_of_declares {type variableName : Identifier} {initializer : Expression}
    (member : call ∈ calls (field type variableName initializer))
    (declares : call.method? = .ok (some name)) : Leaks initializer.text := by
  have admits := admits_in_field member
  rw [calls_field] at member
  obtain ⟨front, more, whole, before, signature, admitted⟩ := exists_signature member declares
  have greater : (trimFront call.behind).head? = some '>' := by
    rw [admits] at admitted
    simpa using admitted
  obtain ⟨earlier, trimmed⟩ := List.head?_eq_some_iff.mp greater
  -- The sign stands in the initializer, as an equals sign ends what is before it.
  have equals : trimFront (fieldHead type variableName).reverse =
      '=' :: ' ' :: (variableName.text.reverse ++ ' ' :: type.text.reverse) :=
    dropWhile_eq_iff.mpr ⟨[' '], by simp [fieldHead], List.all_eq_true.mp (by decide), by
      rintro c ⟨⟩
      decide⟩
  obtain ⟨inner, found⟩ := trimFront_within (before ▸ trimmed) (by simp [equals])
  obtain ⟨gap, turned, gapBlank, -⟩ := dropWhile_eq_iff.mp found
  have spelled : front = inner.reverse ++ '>' :: gap.reverse := by
    rw [← List.reverse_reverse front, turned]
    simp
  obtain ⟨space, -, rfl, isName, free, spaceBlank, list, after, rfl, paired, continued⟩ := signature
  rw [← List.append_assoc, ← Expression.text, spelled] at whole
  rcases List.eq_nil_or_concat after with rfl | ⟨others, last, rfl⟩
  · exact absurd continued (by decide)
  · have regrouped : initializer.text ++ [';'] = inner.reverse ++ '>' :: (gap.reverse ++
        (name ++ (space ++ '(' :: (list ++ ')' :: others)))) ++ [last] := by
      simp [whole]
    obtain ⟨same, final⟩ := List.append_inj' regrouped rfl
    obtain rfl : ';' = last := List.singleton_inj.mp final
    have native : ∀ c ∈ others, Native c := fun c member =>
      initializer.native c (by simp [same, member])
    exact ⟨_, _, _, _, _, _, same, by simpa using gapBlank, isName, free, spaceBlank, paired,
      (continuesDeclaration_end native).mp (by simpa using continued)⟩

/-- An initializer splits no character, and declares nothing exactly if nothing leaks from it. -/
theorem methodsIn_field (type variableName : Identifier) (initializer : Expression) :
    ∃ names, methodsIn (field type variableName initializer) = .ok names ∧
      (names = [] ↔ ¬Leaks initializer.text) := by
  obtain ⟨methods, done⟩ : ∃ methods,
      (calls (field type variableName initializer)).mapM Call.method? = .ok methods :=
    Fault.mapM_ends_iff.mpr fun call member => call.method?_ends (admits_in_field member)
  have found : methodsIn (field type variableName initializer) = .ok (methods.filterMap id) :=
    Fault.bind_eq_ok.mpr ⟨methods, done, rfl⟩
  refine ⟨_, found, ?_⟩
  rw [← Except.ok.injEq, ← found]
  refine Iff.trans methodsOf_eq_nil ?_
  constructor
  · intro silent leaks
    obtain ⟨call, member, name, declares⟩ := leaks.declares type variableName
    rw [silent call member] at declares
    cases declares
  · intro tight call member
    obtain ⟨method?, told⟩ := call.method?_ends (admits_in_field member)
    cases method? with
    | none => exact told
    | some name => exact absurd (leaks_of_declares member told) tight

/-! ### Fields among members -/

private theorem Expression.paired_text (expression : Expression) : Paired expression.text := by
  refine expression.paired.append (paired_of_free ?_ ?_)
  · exact fun opening => absurd (expression.spaced _ opening) (by decide)
  · exact fun closing => absurd (expression.spaced _ closing) (by decide)

private theorem ends_semicolon (text : List Char) : Ends (text ++ [';']) := by
  intro c last
  obtain rfl : ';' = c := by simpa using last
  rfl

private theorem whole_bareField (type variableName : Identifier) :
    Whole (bareField type variableName) := by
  have paired : Paired (bareField type variableName) :=
    type.paired.append ((by decide : Paired [' ']).append
      (variableName.paired.append (by decide : Paired [';'])))
  have ended : bareField type variableName = (type.text ++ ' ' :: variableName.text) ++ [';'] := by
    simp [bareField]
  exact ⟨paired, ended ▸ ends_semicolon _⟩

private theorem whole_field (type variableName : Identifier) (initializer : Expression) :
    Whole (field type variableName initializer) := by
  have head : Paired (fieldHead type variableName) :=
    type.paired.append ((by decide : Paired [' ']).append
      (variableName.paired.append (by decide : Paired " = ".toList)))
  have paired : Paired (field type variableName initializer) :=
    head.append (initializer.paired_text.append (by decide : Paired [';']))
  have ended : field type variableName initializer =
      (fieldHead type variableName ++ initializer.text) ++ [';'] := by
    simp [field]
  exact ⟨paired, ended ▸ ends_semicolon _⟩

private theorem methodsIn_bareField (type variableName : Identifier) :
    methodsIn (bareField type variableName) = .ok [] := by
  have inType : '(' ∉ type.text := type.not_mem (by decide +kernel)
  have inName : '(' ∉ variableName.text := variableName.not_mem (by decide +kernel)
  exact methodsIn_of_free (by simp [bareField, inType, inName])

/-- A field of a type that is no enumeration declares with an initializer what it declares without
one, exactly as long as no call leaks from the initializer: none stands right behind a sign `>` with
its list at the end of the initializer or before a clause of a method. Where looking back splits a
character in other members, it does so with the initializer and without. What follows the field opens
a parenthesis first, as a list that only ends there is taken for the last one before it, be it in the
initializer or in the members before the field. -/
theorem initializer_is_silent_iff {declaration : Declaration}
    (free : declaration.keyword ≠ .enumWord) {members rest : List Char} (whole : Whole members)
    (opens : OpensFirst rest) (type variableName : Identifier) (initializer : Expression) :
    TypeBody.methods ⟨declaration, members ++ (field type variableName initializer ++ rest)⟩ =
        TypeBody.methods ⟨declaration, members ++ (bareField type variableName ++ rest)⟩ ↔
      ¬Leaks initializer.text ∨ ∃ fault, TypeBody.methods
        ⟨declaration, members ++ (bareField type variableName ++ rest)⟩ = .error fault := by
  have fieldOpens := (whole_field type variableName initializer).opensFirst_append opens
  have bareOpens := (whole_bareField type variableName).opensFirst_append opens
  obtain ⟨names, found, silent⟩ := methodsIn_field type variableName initializer
  rw [methods_eq free, methods_eq free, whole.methodsIn_congr fieldOpens bareOpens,
    methodsIn_append whole bareOpens, methodsIn_append (whole_field _ _ _) opens,
    methodsIn_append (whole_bareField _ _) opens, found, methodsIn_bareField, ← silent]
  cases methodsIn members with
  | error fault => exact iff_of_true (.inl ⟨fault, rfl⟩) (.inr ⟨fault, rfl⟩)
  | ok own =>
    cases methodsIn rest with
    | error fault => exact iff_of_true (.inr rfl) (.inr ⟨fault, rfl⟩)
    | ok later => simp [bind, pure, Except.bind, Except.pure]

/-- A word of a lexeme, with a blank before it or without. -/
def wordLexeme (spaced : Bool) (text : List Char) (isName : IsName text)
    (letters : text.all isWordLetter = true) : Lexeme :=
  ⟨if spaced then [' '] else [], .name ⟨text, isName, List.all_eq_true.mp letters⟩,
    by cases spaced <;> exact List.all_eq_true.mp (by decide)⟩

/-- A sign of a lexeme, with a blank before it or without. -/
def signLexeme (spaced : Bool) (sign : Char) (listed : sign ∈ expressionSigns) : Lexeme :=
  ⟨if spaced then [' '] else [], .sign sign listed,
    by cases spaced <;> exact List.all_eq_true.mp (by decide)⟩

/-- A construction, and a call on what it made. -/
def construction : Expression where
  lexemes :=
    [wordLexeme false "new".toList (by decide +kernel) (by decide +kernel),
      wordLexeme true "Pair".toList (by decide +kernel) (by decide +kernel),
      signLexeme false '(' (by decide),
      wordLexeme false "left".toList (by decide +kernel) (by decide +kernel),
      signLexeme false ')' (by decide), signLexeme true '.' (by decide),
      wordLexeme false "sum".toList (by decide +kernel) (by decide +kernel),
      signLexeme false '(' (by decide), signLexeme false ')' (by decide)]
  ending := [' ']
  beside := by decide
  spaced := List.all_eq_true.mp (by decide)
  paired := by decide

/-- A construction declares nothing in a field, behind a member with an annotation and before a
method. -/
theorem construction_is_silent : ∃ (declaration : Declaration) (type variableName : Identifier)
    (members rest : List Char), declaration.keyword ≠ .enumWord ∧ Whole members ∧ OpensFirst rest ∧
      ¬Leaks construction.text ∧
      TypeBody.methods ⟨declaration, members ++ (bareField type variableName ++ rest)⟩ =
        .ok ["size".toList] ∧
      TypeBody.methods ⟨declaration, members ++ (field type variableName construction ++ rest)⟩ =
        .ok ["size".toList] := by
  let declaration : Declaration := ⟨.classWord, "Ledger".toList⟩
  let type : Identifier := ⟨"int".toList, by decide +kernel, List.all_eq_true.mp (by decide +kernel)⟩
  let variableName : Identifier :=
    ⟨"total".toList, by decide +kernel, List.all_eq_true.mp (by decide +kernel)⟩
  let members := "@Max(9) int left;".toList
  let rest := " int size();".toList
  have free : declaration.keyword ≠ .enumWord := by decide
  have whole : Whole members := by decide +kernel
  have opens : OpensFirst rest := Nested.opensFirst (by decide +kernel)
  have tight : ¬Leaks construction.text := by
    have unsigned : '>' ∉ construction.text := by decide +kernel
    rintro ⟨front, gap, name, space, list, after, same, -⟩
    exact unsigned (by simp [same])
  have bare : TypeBody.methods ⟨declaration, members ++ (bareField type variableName ++ rest)⟩ =
      .ok ["size".toList] := by decide +kernel
  have silent := (initializer_is_silent_iff free whole opens type variableName construction).mpr
    (.inl tight)
  exact ⟨declaration, type, variableName, members, rest, free, whole, opens, tight, bare,
    silent.trans bare⟩

/-- An action that calls one method. -/
def action : Expression where
  lexemes :=
    [signLexeme false '(' (by decide), signLexeme false ')' (by decide),
      signLexeme true '-' (by decide), signLexeme false '>' (by decide),
      wordLexeme true "run".toList (by decide +kernel) (by decide +kernel),
      signLexeme false '(' (by decide), signLexeme false ')' (by decide)]
  ending := []
  beside := by decide
  spaced := List.all_eq_true.mp (by decide)
  paired := by decide

/-- The call in an action is counted as a method of the type that keeps the action in a field. -/
theorem actions_leak : ∃ (declaration : Declaration) (type variableName : Identifier),
    declaration.keyword ≠ .enumWord ∧ Whole [] ∧ Nested [] ∧
      field type variableName action = "Runnable task = () -> run();".toList ∧
      TypeBody.methods ⟨declaration, [] ++ (field type variableName action ++ [])⟩ =
        .ok ["run".toList] ∧
      TypeBody.methods ⟨declaration, [] ++ (bareField type variableName ++ [])⟩ = .ok [] :=
  ⟨⟨.classWord, "Worker".toList⟩,
    ⟨"Runnable".toList, by decide +kernel, List.all_eq_true.mp (by decide +kernel)⟩,
    ⟨"task".toList, by decide +kernel, List.all_eq_true.mp (by decide +kernel)⟩,
    by decide, by decide, by decide, by decide +kernel, by decide +kernel, by decide +kernel⟩

end CodeCensus.Source
