import CodeCensus.Proofs.Members
import CodeCensus.Proofs.Splitting
import CodeCensus.Proofs.Tokens

/-!
# Formatting

Two texts that differ only in their gaps, where each has some spaces, tabs or ends of lines, are read
as the same types with the same methods. The two readings go side by side: wherever the one stands in
its text the other stands in its own, with the same characters visible before and behind, and no step
of a reading counts the characters of a gap or tells one from another.
-/

namespace CodeCensus.Source

open CodeCensus.Text

/-- Two rows of items are the same but for their gaps: where the one has some spaces in a row, the
other has some. -/
inductive Reflowed {α : Type} (space : α → Bool) : List α → List α → Prop
  | ended : Reflowed space [] []
  | kept {item : α} {items others : List α} (solid : space item = false)
      (behind : Reflowed space items others) : Reflowed space (item :: items) (item :: others)
  | spaced {gap wide items others : List α} (gapSome : gap ≠ []) (wideSome : wide ≠ [])
      (gapSpace : ∀ item ∈ gap, space item = true) (wideSpace : ∀ item ∈ wide, space item = true)
      (behind : Reflowed space items others) : Reflowed space (gap ++ items) (wide ++ others)

namespace Reflowed

variable {α : Type} {space : α → Bool} {item : α} {items others rest : List α}

private theorem symm (reflowed : Reflowed space items others) : Reflowed space others items := by
  induction reflowed with
  | ended => exact .ended
  | kept solid _ inductionHypothesis => exact .kept solid inductionHypothesis
  | spaced gapSome wideSome gapSpace wideSpace _ inductionHypothesis =>
    exact .spaced wideSome gapSome wideSpace gapSpace inductionHypothesis

private theorem append {later further : List α} (reflowed : Reflowed space items others)
    (behind : Reflowed space later further) :
    Reflowed space (items ++ later) (others ++ further) := by
  induction reflowed with
  | ended => exact behind
  | kept solid _ inductionHypothesis => exact .kept solid inductionHypothesis
  | spaced gapSome wideSome gapSpace wideSpace _ inductionHypothesis =>
    rw [List.append_assoc, List.append_assoc]
    exact .spaced gapSome wideSome gapSpace wideSpace inductionHypothesis

private theorem refl (items : List α) : Reflowed space items items := by
  induction items with
  | nil => exact .ended
  | cons item items inductionHypothesis =>
    cases isSpace : space item with
    | false => exact .kept isSpace inductionHypothesis
    | true =>
      have one : ∀ other ∈ [item], space other = true := by simpa using isSpace
      exact .spaced (List.cons_ne_nil _ _) (List.cons_ne_nil _ _) one one inductionHypothesis

/-- A gap alone. -/
theorem gap {gap wide : List α} (gapSome : gap ≠ []) (wideSome : wide ≠ [])
    (gapSpace : ∀ item ∈ gap, space item = true) (wideSpace : ∀ item ∈ wide, space item = true) :
    Reflowed space gap wide := by
  simpa using Reflowed.spaced gapSome wideSome gapSpace wideSpace .ended

private theorem reverse (reflowed : Reflowed space items others) :
    Reflowed space items.reverse others.reverse := by
  induction reflowed with
  | ended => exact .ended
  | kept solid _ inductionHypothesis =>
    rw [List.reverse_cons, List.reverse_cons]
    exact inductionHypothesis.append (.kept solid .ended)
  | spaced gapSome wideSome gapSpace wideSpace _ inductionHypothesis =>
    rw [List.reverse_append, List.reverse_append]
    exact inductionHypothesis.append (gap (by simpa using gapSome) (by simpa using wideSome)
      (by simpa using gapSpace) (by simpa using wideSpace))

/-- Both rows start with the same item, or both with a space. -/
theorem head (reflowed : Reflowed space items others) : items.head? = others.head? ∨
    (∃ first, items.head? = some first ∧ space first = true) ∧
      ∃ first, others.head? = some first ∧ space first = true := by
  cases reflowed with
  | ended => exact .inl rfl
  | kept => exact .inl rfl
  | @spaced gap wide _ _ gapSome wideSome gapSpace wideSpace =>
    obtain ⟨first, gap, rfl⟩ := List.exists_cons_of_ne_nil gapSome
    obtain ⟨other, wide, rfl⟩ := List.exists_cons_of_ne_nil wideSome
    exact .inr ⟨⟨first, rfl, gapSpace _ List.mem_cons_self⟩,
      other, rfl, wideSpace _ List.mem_cons_self⟩

private theorem head_iff (reflowed : Reflowed space items others) (item : α)
    (solid : space item = false) :
    items.head? = some item ↔ others.head? = some item := by
  rcases reflowed.head with same | ⟨⟨first, here, isSpace⟩, other, there, otherSpace⟩
  · rw [same]
  · rw [here, there]
    constructor
    · rintro ⟨⟩
      simp [solid] at isSpace
    · rintro ⟨⟩
      simp [solid] at otherSpace

/-- What is asked of the first item has one answer if it has one for all spaces. -/
theorem head_eq {β : Type} (reflowed : Reflowed space items others) (ask : Option α → β)
    {answer : β}
    (alike : ∀ item, space item = true → ask (some item) = answer) :
    ask items.head? = ask others.head? := by
  rcases reflowed.head with same | ⟨⟨first, here, isSpace⟩, other, there, otherSpace⟩
  · rw [same]
  · rw [here, there, alike first isSpace, alike other otherSpace]

/-- What follows an item that is no space in the one row follows it in the other. -/
theorem tail (reflowed : Reflowed space (item :: items) others) (solid : space item = false) :
    ∃ rest, others = item :: rest ∧ Reflowed space items rest := by
  generalize whole : item :: items = row at reflowed
  cases reflowed with
  | ended => cases whole
  | kept _ behind =>
    obtain ⟨rfl, rfl⟩ := List.cons.inj whole
    exact ⟨_, rfl, behind⟩
  | @spaced gap _ _ _ gapSome _ gapSpace =>
    obtain ⟨first, gap, rfl⟩ := List.exists_cons_of_ne_nil gapSome
    obtain ⟨rfl, -⟩ := List.cons.inj whole
    have isSpace := gapSpace _ List.mem_cons_self
    simp [solid] at isSpace

/-- A row without spaces stands at the front of the one row where it stands at that of the other. -/
theorem of_append {front : List α} (reflowed : Reflowed space (front ++ items) others)
    (solid : ∀ item ∈ front, space item = false) :
    ∃ rest, others = front ++ rest ∧ Reflowed space items rest := by
  induction front generalizing others with
  | nil => exact ⟨others, rfl, reflowed⟩
  | cons item front inductionHypothesis =>
    obtain ⟨first, later⟩ := List.forall_mem_cons.mp solid
    obtain ⟨rest, rfl, behind⟩ := reflowed.tail first
    obtain ⟨rest, rfl, final⟩ := inductionHypothesis behind later
    exact ⟨rest, rfl, final⟩

private theorem eq_nil_iff (reflowed : Reflowed space items others) : items = [] ↔ others = [] := by
  cases reflowed with
  | ended => simp
  | kept => simp
  | spaced gapSome wideSome => simp [gapSome, wideSome]

/-- A test that treats spaces alike passes over the same items of both rows. -/
theorem dropWhile {test : α → Bool} {uniform : Bool} (reflowed : Reflowed space items others)
    (alike : ∀ item, space item = true → test item = uniform) :
    Reflowed space (items.dropWhile test) (others.dropWhile test) := by
  induction reflowed with
  | ended => exact .ended
  | @kept item _ _ solid behind inductionHypothesis =>
    cases passes : test item with
    | true => simpa [passes] using inductionHypothesis
    | false => simpa [passes] using kept solid behind
  | @spaced gap wide _ _ gapSome wideSome gapSpace wideSpace behind inductionHypothesis =>
    cases uniform with
    | true =>
      rw [List.dropWhile_append_of_pos fun item member => alike item (gapSpace item member),
        List.dropWhile_append_of_pos fun item member => alike item (wideSpace item member)]
      exact inductionHypothesis
    | false =>
      obtain ⟨first, gap, rfl⟩ := List.exists_cons_of_ne_nil gapSome
      obtain ⟨other, wide, rfl⟩ := List.exists_cons_of_ne_nil wideSome
      have stops := alike first (gapSpace _ List.mem_cons_self)
      have otherStops := alike other (wideSpace _ List.mem_cons_self)
      simpa [stops, otherStops] using spaced gapSome wideSome gapSpace wideSpace behind

/-- A test that no space passes takes the same items of both rows. -/
theorem takeWhile {test : α → Bool} (reflowed : Reflowed space items others)
    (solid : ∀ item, space item = true → test item = false) :
    items.takeWhile test = others.takeWhile test := by
  induction reflowed with
  | ended => rfl
  | @kept item _ _ _ _ inductionHypothesis =>
    rw [List.takeWhile_cons, List.takeWhile_cons, inductionHypothesis]
  | @spaced gap wide _ _ gapSome wideSome gapSpace wideSpace =>
    obtain ⟨first, gap, rfl⟩ := List.exists_cons_of_ne_nil gapSome
    obtain ⟨other, wide, rfl⟩ := List.exists_cons_of_ne_nil wideSome
    simp [solid first (gapSpace _ List.mem_cons_self), solid other (wideSpace _ List.mem_cons_self)]

/-- A word without spaces begins both rows or none. -/
theorem isPrefixOf [BEq α] [LawfulBEq α] {word : List α} (reflowed : Reflowed space items others)
    (solid : ∀ item ∈ word, space item = false) :
    word.isPrefixOf items = word.isPrefixOf others := by
  rw [Bool.eq_iff_iff, List.isPrefixOf_iff_prefix, List.isPrefixOf_iff_prefix]
  constructor
  · rintro ⟨rest, rfl⟩
    obtain ⟨more, rfl, -⟩ := reflowed.of_append solid
    exact List.prefix_append word more
  · rintro ⟨rest, rfl⟩
    obtain ⟨more, rfl, -⟩ := reflowed.symm.of_append solid
    exact List.prefix_append word more

end Reflowed

/-- Two texts that differ only in how they are spaced. -/
abbrev Reformatted : List Char → List Char → Prop :=
  Reflowed isSpacing

variable {c : Char} {text other header heading behind past gap word rest : List Char}
  {inName depth : Nat} {declaration : Declaration}

private theorem Reflowed.trimFront (reformatted : Reformatted text other) :
    Reformatted (trimFront text) (trimFront other) :=
  reformatted.dropWhile isBlank_of_isSpacing

/-! ### Declarations -/

private theorem IsName.solid (isName : IsName word) : ∀ c ∈ word, isSpacing c = false := by
  obtain ⟨first, others, rfl, start, each⟩ := isName
  intro c member
  have part : isNamePart c = true := by
    rcases List.mem_cons.mp member with rfl | later
    · exact isNamePart_of_isNameStart start
    · exact each c later
  cases spacing : isSpacing c with
  | false => rfl
  | true => simp [isNamePart_of_isSpacing c spacing] at part

private theorem spelling_solid (keyword : TypeKeyword) :
    ∀ c ∈ keyword.spelling, isSpacing c = false := by
  cases keyword <;> exact none_passes (by decide)

/-- A declaration at the front of the one text is at the front of the other. -/
theorem Opens.reformatted (opens : Opens text declaration rest)
    (reformatted : Reformatted text other) :
    ∃ more, Opens other declaration more ∧ Reformatted rest more := by
  obtain ⟨mark, blanks, rfl, marks, someBlank, each, isName, stops⟩ := opens
  have markSolid : ∀ c ∈ mark, isSpacing c = false := by
    rcases marks with rfl | rfl <;> exact none_passes (by decide)
  obtain ⟨marked, rfl, spelled⟩ := reformatted.of_append markSolid
  obtain ⟨spaced, rfl, behindKeyword⟩ := spelled.of_append (spelling_solid declaration.keyword)
  obtain ⟨blank, trimmed⟩ : _ ∧ trimFront (blanks ++ (declaration.name ++ rest)) = _ :=
    (spaced_iff isName).mpr ⟨blanks, someBlank, each, rfl⟩
  have named := behindKeyword.trimFront
  rw [trimmed] at named
  obtain ⟨more, same, behindName⟩ := named.of_append isName.solid
  have otherBlank : spaced.head?.any isBlank = true :=
    (behindKeyword.head_eq (Option.any isBlank) isBlank_of_isSpacing).symm.trans blank
  obtain ⟨gap, someGap, eachGap, rfl⟩ := (spaced_iff isName).mp ⟨otherBlank, same⟩
  refine ⟨more, ⟨mark, gap, rfl, marks, someGap, eachGap, isName, fun c first => ?_⟩, behindName⟩
  have ends : rest.head?.any isNamePart = more.head?.any isNamePart :=
    behindName.head_eq (Option.any isNamePart) isNamePart_of_isSpacing
  rw [first] at ends
  cases found : rest.head? with
  | none => simpa [found] using ends.symm
  | some d => simpa [found, stops d found] using ends.symm

/-- Both texts start with the same declaration, or none of them with any. -/
theorem Reflowed.declarationHere? (reformatted : Reformatted text other) :
    Option.Rel (fun found same => found.1 = same.1 ∧ Reformatted found.2 same.2)
      (declarationHere? text) (declarationHere? other) := by
  cases here : Source.declarationHere? text with
  | some found =>
    obtain ⟨more, opens, behind⟩ := (declarationHere?_eq_some.mp here).reformatted reformatted
    rw [declarationHere?_eq_some.mpr opens]
    exact .some ⟨rfl, behind⟩
  | none =>
    cases there : Source.declarationHere? other with
    | none => exact .none
    | some found =>
      obtain ⟨more, opens, -⟩ := (declarationHere?_eq_some.mp there).reformatted reformatted.symm
      exact absurd opens (not_opens here _ _)

/-- Behind a character that separates, all declarations of the rest are found. -/
theorem declarationsAfter_cons (c : Char) (text : List Char) : declarationsAfter 0 (c :: text) =
    if separates c = true then declarations text else declarationsAfter 0 text := by
  rw [declarationsAfter, declarations]
  split
  · split
    · next found => rw [(declarationHere?_eq_some.mp found).declarationsAfter_taken]
    · rfl
  · rfl

private theorem declarations_of_separates (separate : separates c = true) (text : List Char) :
    declarations (c :: text) = declarationsAfter 0 (c :: text) := by
  rw [declarations]
  split
  · next found =>
    have closed := (declarationHere?_eq_some.mp found).head
    simp [separate] at closed
  · rfl

private theorem declarationsAfter_gap (gapSome : gap ≠ []) (spaces : ∀ c ∈ gap, isSpacing c = true)
    (text : List Char) : declarationsAfter 0 (gap ++ text) = declarations text := by
  induction gap with
  | nil => exact absurd rfl gapSome
  | cons c gap inductionHypothesis =>
    obtain ⟨first, later⟩ := List.forall_mem_cons.mp spaces
    rw [List.cons_append, declarationsAfter_cons, if_pos (separates_of_isSpacing c first)]
    cases gap with
    | nil => rfl
    | cons d gap =>
      have separate := separates_of_isSpacing d (later d List.mem_cons_self)
      rw [List.cons_append, declarations_of_separates separate, ← List.cons_append]
      exact inductionHypothesis (List.cons_ne_nil d gap) later

/-- Where the same declarations follow a character that separates, the same are found from there. -/
theorem Reflowed.declarations_of (reformatted : Reformatted text other)
    (behind : ∀ {rest more}, rest.length ≤ text.length → Reformatted rest more →
      declarationsAfter 0 rest = declarationsAfter 0 more) :
    declarations text = declarations other := by
  have found := reformatted.declarationHere?
  rw [declarations, declarations]
  cases here : Source.declarationHere? text with
  | none =>
    rw [here] at found
    cases there : Source.declarationHere? other with
    | none => exact behind (Nat.le_refl _) reformatted
    | some => simp [there] at found
  | some pair =>
    rw [here] at found
    cases there : Source.declarationHere? other with
    | none => simp [there] at found
    | some same =>
      rw [there] at found
      cases found with
      | some both =>
        obtain ⟨front, whole⟩ := (declarationHere?_eq_some.mp here).suffix
        have shorter : pair.2.length ≤ text.length := by simp [whole]
        dsimp only
        rw [both.1, behind shorter both.2]

private theorem Reflowed.declarationsAfter (reformatted : Reformatted text other) :
    declarationsAfter 0 text = declarationsAfter 0 other := by
  -- By induction on the length, as a reading goes on behind a whole declaration at once.
  induction size : text.length using Nat.strong_induction_on generalizing text other with
  | _ length inductionHypothesis =>
    have shorter : ∀ {rest more : List Char}, rest.length < length → Reformatted rest more →
        Source.declarationsAfter 0 rest = Source.declarationsAfter 0 more :=
      fun less same => inductionHypothesis _ less same rfl
    cases reformatted with
    | ended => rfl
    | @kept c items others solid behind =>
      have less : items.length < length := by simp [← size]
      rw [declarationsAfter_cons, declarationsAfter_cons, shorter less behind,
        behind.declarations_of fun within same => shorter (Nat.lt_of_le_of_lt within less) same]
    | @spaced gap wide items others gapSome wideSome gapSpace wideSpace behind =>
      have less : items.length < length := by
        have := List.length_pos_of_ne_nil gapSome
        simp only [← size, List.length_append]
        omega
      rw [declarationsAfter_gap gapSome gapSpace, declarationsAfter_gap wideSome wideSpace]
      exact behind.declarations_of fun within same => shorter (Nat.lt_of_le_of_lt within less) same

private theorem Reflowed.lastDeclaration? (reformatted : Reformatted header heading) :
    lastDeclaration? header = lastDeclaration? heading := by
  rw [Source.lastDeclaration?, Source.lastDeclaration?,
    reformatted.declarations_of fun _ same => same.declarationsAfter]

/-! ### Bodies -/

/-- Two types that are declared alike and differ only in how their bodies are spaced. -/
def SameType (type other : TypeBody) : Prop :=
  type.declaration = other.declaration ∧ Reformatted type.body other.body

/-- A gap belongs to the header at the top, to the body one brace below, and to nothing deeper. -/
theorem splitFrom_gap (spaces : ∀ c ∈ gap, isSpacing c = true) (depth : Nat)
    (header text : List Char) : splitFrom depth header (gap ++ text) =
      (splitFrom depth (gap.reverse ++ header) text).map fun found =>
        (if depth = 1 then gap ++ found.1 else found.1, found.2) := by
  induction gap generalizing header with
  | nil => simp
  | cons c gap inductionHypothesis =>
    obtain ⟨first, later⟩ := List.forall_mem_cons.mp spaces
    have notOpen : c ≠ '{' := by simpa using ne_of_isSpacing '{' (by decide) c first
    have notClose : c ≠ '}' := by simpa using ne_of_isSpacing '}' (by decide) c first
    have notEnd : c ≠ ';' := by simpa using ne_of_isSpacing ';' (by decide) c first
    rw [List.cons_append, List.reverse_cons, List.append_assoc]
    match depth with
    | 0 => simp [splitFrom, inductionHypothesis later]
    | 1 =>
      rw [splitFrom_header 0 (gap.reverse ++ ([c] ++ header))]
      simp only [splitFrom, inductionHypothesis later, splitFrom_header 0 (gap.reverse ++ [])]
      cases splitFrom 1 [] text <;> simp
    | depth + 2 =>
      rw [splitFrom_header (depth + 1) (gap.reverse ++ ([c] ++ header))]
      simp [splitFrom, inductionHypothesis later, splitFrom_header (depth + 1) gap.reverse]

/-- What is made of two results that go together goes together. -/
theorem rel_map {α β γ δ : Type} {goes : α → β → Prop} {fits : γ → δ → Prop} {make : α → γ}
    {shape : β → δ} {found : Option α} {same : Option β} (together : Option.Rel goes found same)
    (keeps : ∀ first second, goes first second → fits (make first) (shape second)) :
    Option.Rel fits (found.map make) (same.map shape) := by
  cases together with
  | none => exact .none
  | some both => exact .some (keeps _ _ both)

/-- A brace at the top opens the body of the type that the header declares, if it declares one. -/
theorem splitFrom_top (header text : List Char) : splitFrom 0 header ('{' :: text) =
    (splitFrom 1 [] text).map fun found => ([], ((lastDeclaration? header.reverse).map
      fun declaration => ⟨declaration, found.1⟩).toList ++ found.2) := by
  rw [splitFrom]
  cases splitFrom 1 [] text with
  | none => rfl
  | some found => cases lastDeclaration? header.reverse <;> rfl

/-- A group in a body is shown as a pair of braces. -/
theorem splitFrom_inner (header text : List Char) : splitFrom 1 header ('{' :: text) =
    (splitFrom 2 [] text).map fun found => ('{' :: '}' :: found.1, found.2) := by
  rw [splitFrom]
  cases splitFrom 2 [] text <;> rfl

/-- A body holds the characters that are no braces. -/
theorem splitFrom_shown (notOpen : c ≠ '{') (notClose : c ≠ '}') (header text : List Char) :
    splitFrom 1 header (c :: text) =
      (splitFrom 1 [] text).map fun found => (c :: found.1, found.2) := by
  simp only [splitFrom]
  cases splitFrom 1 [] text <;> rfl

/-- Texts that differ only in how they are spaced are split alike. -/
theorem Reflowed.splitFrom (reformatted : Reformatted text other)
    (headers : Reformatted header heading) :
    Option.Rel (fun found same => Reformatted found.1 same.1 ∧
        List.Forall₂ SameType found.2 same.2)
      (splitFrom depth header text) (splitFrom depth heading other) := by
  induction reformatted generalizing depth header heading with
  | ended =>
    cases depth with
    | zero => exact .some ⟨.ended, .nil⟩
    | succ depth => exact .none
  | @kept c items others solid _ inductionHypothesis =>
    rcases brace_cases c with rfl | rfl | ⟨notOpen, notClose⟩
    · match depth with
      | 0 =>
        rw [splitFrom_top, splitFrom_top, headers.reverse.lastDeclaration?]
        refine rel_map (inductionHypothesis .ended) fun first second both => ⟨.ended, ?_⟩
        cases Source.lastDeclaration? heading.reverse with
        | none => exact both.2
        | some declaration => exact .cons ⟨rfl, both.1⟩ both.2
      | 1 =>
        rw [splitFrom_inner, splitFrom_inner]
        exact rel_map (inductionHypothesis .ended) fun first second both =>
          ⟨.kept (by decide) (.kept (by decide) both.1), both.2⟩
      | depth + 2 => exact inductionHypothesis .ended
    · match depth with
      | 0 => exact .none
      | 1 => exact inductionHypothesis .ended
      | depth + 2 => exact inductionHypothesis .ended
    · match depth with
      | 0 =>
        by_cases isEnd : c = ';'
        · subst isEnd
          exact inductionHypothesis .ended
        · simpa [Source.splitFrom] using inductionHypothesis (.kept solid headers)
      | 1 =>
        rw [splitFrom_shown notOpen notClose, splitFrom_shown notOpen notClose]
        exact rel_map (inductionHypothesis .ended) fun first second both =>
          ⟨.kept solid both.1, both.2⟩
      | depth + 2 => simpa [Source.splitFrom] using @inductionHypothesis _ _ (depth + 2) .ended
  | @spaced gap wide items others gapSome wideSome gapSpace wideSpace _ inductionHypothesis =>
    have turned : Reformatted (gap.reverse ++ header) (wide.reverse ++ heading) :=
      (Reflowed.gap gapSome wideSome gapSpace wideSpace).reverse.append headers
    rw [splitFrom_gap gapSpace, splitFrom_gap wideSpace]
    refine rel_map (inductionHypothesis turned) fun first second both => ⟨?_, both.2⟩
    dsimp only
    split
    · exact .spaced gapSome wideSome gapSpace wideSpace both.1
    · exact both.1

/-! ### Calls -/

/-- Two calls of the same name between texts that differ only in how they are spaced. -/
structure SameCall (call other : Call) : Prop where
  behind : Reformatted call.behind other.behind
  name : call.name = other.name
  ahead : Reformatted call.ahead other.ahead

private theorem Reflowed.nameHere? (reformatted : Reformatted text other) :
    Option.Rel (fun found same => found.1 = same.1 ∧ Reformatted found.2 same.2)
      (nameHere? text) (nameHere? other) := by
  have named : ∀ text, Source.nameHere? text = if text.head?.any isNameStart = true then
      some (text.takeWhile isNamePart, text.dropWhile isNamePart) else none := by
    intro text
    cases text <;> rfl
  have starts : text.head?.any isNameStart = other.head?.any isNameStart :=
    reformatted.head_eq (Option.any isNameStart) isNameStart_of_isSpacing
  rw [named, named, starts]
  split
  · exact .some ⟨reformatted.takeWhile isNamePart_of_isSpacing,
      reformatted.dropWhile isNamePart_of_isSpacing⟩
  · exact .none

/-- The same calls are found, as far as the name that is passed over has no gap in it. -/
theorem Reflowed.callsFrom (reformatted : Reformatted text other)
    (before : Reformatted behind past) (inside : inName ≤ (text.takeWhile isNamePart).length) :
    List.Forall₂ SameCall (callsFrom behind inName text) (callsFrom past inName other) := by
  induction reformatted generalizing behind past inName with
  | ended => exact .nil
  | @kept c items others solid rest inductionHypothesis =>
    have onward := @inductionHypothesis (c :: behind) (c :: past)
    cases inName with
    | succ inName =>
      refine onward (.kept solid before) ?_
      rw [List.takeWhile_cons] at inside
      split at inside
      · simpa using inside
      · simp at inside
    | zero =>
      have named := (Reflowed.kept solid rest).nameHere?
      rw [Source.callsFrom, Source.callsFrom]
      cases here : Source.nameHere? (c :: items) with
      | none =>
        rw [here] at named
        cases there : Source.nameHere? (c :: others) with
        | none => exact onward (.kept solid before) (Nat.zero_le _)
        | some => simp [there] at named
      | some found =>
        rw [here] at named
        obtain ⟨name, after⟩ := found
        cases there : Source.nameHere? (c :: others) with
        | none => simp [there] at named
        | some same =>
          rw [there] at named
          obtain ⟨rfl, behindName⟩ : name = same.1 ∧ Reformatted after same.2 := by
            cases named with
            | some both => exact both
          have within : same.1.length - 1 ≤ (items.takeWhile isNamePart).length := by
            obtain ⟨start, whole⟩ := Option.ite_none_right_eq_some.mp here
            rw [← (Prod.mk.inj (Option.some.inj whole)).1,
              List.takeWhile_cons_of_pos (isNamePart_of_isNameStart start)]
            simp
          have later := onward (.kept solid before) within
          have trimmed := behindName.trimFront
          dsimp only
          split
          · next ahead opens =>
            rw [opens] at trimmed
            obtain ⟨more, same, behindOpening⟩ := trimmed.tail (by decide)
            rw [same]
            exact .cons ⟨before, rfl, behindOpening⟩ later
          · next closed =>
            split
            · next ahead opens =>
              have starts := (trimmed.head_iff '(' (by decide)).mpr (by rw [opens]; rfl)
              obtain ⟨more, same⟩ := List.head?_eq_some_iff.mp starts
              exact absurd same (closed more)
            · exact later
  | @spaced gap wide items others gapSome wideSome gapSpace wideSpace rest inductionHypothesis =>
    have none_passed : inName = 0 := by
      obtain ⟨first, gap, rfl⟩ := List.exists_cons_of_ne_nil gapSome
      have stops := isNamePart_of_isSpacing first (gapSpace _ List.mem_cons_self)
      simpa [stops] using inside
    rw [none_passed, callsFrom_passed fun c member => isNameStart_of_isSpacing c (gapSpace c member),
      callsFrom_passed fun c member => isNameStart_of_isSpacing c (wideSpace c member)]
    exact inductionHypothesis ((Reflowed.gap gapSome wideSome gapSpace wideSpace).reverse.append before)
      (Nat.zero_le _)

/-! ### Methods -/

/-- A test of the last word that reads the word and asks for an at sign before it has the same
outcome. -/
theorem Reflowed.lastWord (reformatted : Reformatted behind past) (test : List Char → Bool → Bool) :
    ((trailingWord? behind).bind fun word? =>
      .ok (word?.any fun word => test word.word (word.behind.head? == some '@'))) =
    ((trailingWord? past).bind fun word? =>
      .ok (word?.any fun word => test word.word (word.behind.head? == some '@'))) := by
  have trimmed := reformatted.trimFront
  have letters := trimmed.takeWhile isWordLetter_of_isSpacing
  have before := trimmed.dropWhile isWordLetter_of_isSpacing
  have single := before.head_eq (Option.all isSingleByte) isSingleByte_of_isSpacing
  have marked := @Reflowed.head_eq _ _ _ _ _ before (· == some '@') false
    (by simpa using ne_of_isSpacing '@' (by decide))
  simp only [trailingWord?, letters, single]
  split
  · split
    · rfl
    · exact congrArg (fun marked => Except.ok (test _ marked)) marked
  · rfl

private theorem Reflowed.admitsDeclaration (reformatted : Reformatted behind past) :
    admitsDeclaration behind = admitsDeclaration past := by
  have trimmed := reformatted.trimFront
  rw [Source.admitsDeclaration, Source.admitsDeclaration]
  cases visible : Text.trimFront behind with
  | nil => rw [(trimmed.eq_nil_iff.mp visible)]
  | cons c rest =>
    rw [visible] at trimmed
    have blank : isBlank c = false := (dropWhile_eq_iff.mp visible).choose_spec.2.2 c rfl
    have solid : isSpacing c = false := by
      cases spacing : isSpacing c with
      | false => rfl
      | true => simp [isBlank_of_isSpacing c spacing] at blank
    obtain ⟨more, same, further⟩ := trimmed.tail solid
    rw [same]
    dsimp only
    split
    · rfl
    split
    · have lists := further.dropWhile (ne_of_isSpacing '(' (by decide))
      cases inner : rest.dropWhile (· != '(') with
      | nil => rw [lists.eq_nil_iff.mp inner]
      | cons opening before =>
        rw [inner] at lists
        have opens : opening = '(' := by
          simpa using (dropWhile_eq_iff.mp inner).choose_spec.2.2 opening rfl
        subst opens
        obtain ⟨earlier, there, beyond⟩ := lists.tail (by decide)
        rw [there]
        exact beyond.lastWord fun _ marked => marked
    · exact Reflowed.lastWord (.kept solid further) fun word marked =>
        word != "new".toList && !marked

private theorem Reflowed.afterClosing? {inner : Nat} (reformatted : Reformatted text other) :
    Option.Rel Reformatted (afterClosing? inner text) (afterClosing? inner other) := by
  induction reformatted generalizing inner with
  | ended => exact .none
  | @kept c items others solid rest inductionHypothesis =>
    by_cases opens : c = '('
    · subst opens
      exact inductionHypothesis
    by_cases closes : c = ')'
    · subst closes
      cases inner with
      | zero => exact .some rest
      | succ inner => exact inductionHypothesis
    · rw [afterClosing?_other opens closes, afterClosing?_other opens closes]
      exact inductionHypothesis
  | @spaced gap wide items others gapSome wideSome gapSpace wideSpace rest inductionHypothesis =>
    have passed : ∀ {gap text : List Char}, (∀ c ∈ gap, isSpacing c = true) →
        Source.afterClosing? inner (gap ++ text) = Source.afterClosing? inner text := by
      intro gap text spaces
      induction gap with
      | nil => rfl
      | cons c gap hypothesis =>
        obtain ⟨first, later⟩ := List.forall_mem_cons.mp spaces
        have notOpen := ne_of_isSpacing '(' (by decide) c first
        have notClose := ne_of_isSpacing ')' (by decide) c first
        rw [List.cons_append, afterClosing?_other (by simpa using notOpen) (by simpa using notClose),
          hypothesis later]
    rw [passed gapSpace, passed wideSpace]
    exact inductionHypothesis

private theorem Reflowed.continuesDeclaration (reformatted : Reformatted text other) :
    continuesDeclaration text = continuesDeclaration other := by
  have trimmed := reformatted.trimFront
  have words : ∀ word ∈ [['{'], [';'], "throws".toList, "default".toList],
      word.any isSpacing = false := by decide
  rw [Source.continuesDeclaration, Source.continuesDeclaration, Bool.eq_iff_iff]
  simp only [List.any_eq_true]
  refine exists_congr fun word => and_congr_right fun listed => ?_
  rw [trimmed.isPrefixOf (none_passes (words word listed))]

private theorem SameCall.method? {call other : Call} (same : SameCall call other) :
    call.method? = other.method? := by
  have closed : Option.Rel Reformatted (Source.afterClosing? 0 call.ahead)
      (Source.afterClosing? 0 other.ahead) := same.ahead.afterClosing?
  rw [Call.method?, Call.method?, same.name, same.behind.admitsDeclaration]
  revert closed
  cases Source.afterClosing? 0 call.ahead <;> cases Source.afterClosing? 0 other.ahead <;>
    rintro ⟨⟩
  · rfl
  · next rest => simp only [rest.continuesDeclaration]

/-- Texts that differ only in how they are spaced declare the same methods. -/
theorem Reflowed.methodsIn (reformatted : Reformatted text other) :
    methodsIn text = methodsIn other := by
  have same : List.Forall₂ SameCall (calls text) (calls other) :=
    reformatted.callsFrom .ended (Nat.zero_le _)
  rw [Source.methodsIn, Source.methodsIn,
    Fault.mapM_congr_pairs (same.imp fun _ _ pair => pair.method?)]

private theorem SameType.methods {type other : TypeBody} (same : SameType type other) :
    type.methods = other.methods := by
  rw [TypeBody.methods, TypeBody.methods, TypeBody.members, TypeBody.members, same.1]
  split
  · have passed := same.2.dropWhile (ne_of_isSpacing ';' (by decide))
    refine Reflowed.methodsIn ?_
    cases here : type.body.dropWhile (· != ';') with
    | nil =>
      rw [passed.eq_nil_iff.mp here]
      exact .ended
    | cons c rest =>
      have ends : c = ';' := by simpa using (dropWhile_eq_iff.mp here).choose_spec.2.2 c rfl
      rw [here, ends] at passed
      obtain ⟨more, there, behind⟩ := passed.tail (by decide)
      rw [there]
      exact behind
  · exact same.2.methodsIn

/-! ### Files -/

private theorem Reflowed.typeBodies? (reformatted : Reformatted text other) :
    Option.Rel (List.Forall₂ SameType) (typeBodies? text) (typeBodies? other) :=
  rel_map (reformatted.splitFrom .ended) fun _ _ both => both.2

private theorem SameType.toEntry {type other : TypeBody} (same : SameType type other) :
    type.toEntry = other.toEntry := by
  rw [TypeBody.toEntry, TypeBody.toEntry, same.1, same.methods]

/-- Sources that differ only in how they are spaced once they are blanked have the same entry. -/
theorem recognize_reformatted {contents others : String}
    (reformatted : Reformatted (blank contents.toList) (blank others.toList)) (fileName : String) :
    recognize fileName contents = recognize fileName others := by
  have found := reformatted.typeBodies?
  rw [recognize, recognize]
  revert found
  cases typeBodies? (blank contents.toList) <;> cases typeBodies? (blank others.toList) <;>
    rintro ⟨⟩
  · rfl
  · next types others both =>
    dsimp only
    rw [Fault.mapM_congr_pairs (both.imp fun _ _ pair => pair.toEntry)]

/-! ### Tokens -/

/-- A plain spacing character, outside all comments and literals. -/
def Token.isSpacing : Token → Bool
  | .plain c => Source.isSpacing c
  | _ => false

variable {token : Token} {tokens others : List Token}

private theorem Token.isSpacing_iff : token.isSpacing = true ↔
    ∃ c, token = .plain c ∧ Source.isSpacing c = true := by
  cases token <;> simp [Token.isSpacing]

private theorem Token.text_ne_nil (token : Token) : token.text ≠ [] := by
  cases token <;> simp [Token.text]

/-- Reformatting a row of tokens reformats what blanking makes of it. -/
theorem Reflowed.images (reflowed : Reflowed Token.isSpacing tokens others) :
    Reformatted (tokens.map Token.image) (others.map Token.image) := by
  have blanked : ∀ {gap : List Token}, (∀ token ∈ gap, token.isSpacing = true) →
      ∀ c ∈ gap.map Token.image, Source.isSpacing c = true := by
    intro gap spaces c member
    obtain ⟨token, listed, rfl⟩ := List.mem_map.mp member
    obtain ⟨c, rfl, spacing⟩ := Token.isSpacing_iff.mp (spaces token listed)
    exact spacing
  induction reflowed with
  | ended => exact .ended
  | @kept token _ _ _ _ inductionHypothesis =>
    exact (Reflowed.refl [token.image]).append inductionHypothesis
  | spaced gapSome wideSome gapSpace wideSpace _ inductionHypothesis =>
    rw [List.map_append, List.map_append]
    exact .spaced (by simpa using gapSome) (by simpa using wideSome) (blanked gapSpace)
      (blanked wideSpace) inductionHypothesis

/-- No visible character comes to stand in front of the text of a row, and none is lost there. -/
theorem Reflowed.text_head (reflowed : Reflowed Token.isSpacing tokens others)
    (solid : Source.isSpacing c = false) :
    (tokens.flatMap Token.text).head? = some c ↔ (others.flatMap Token.text).head? = some c := by
  have hidden : ∀ {gap rest : List Token}, gap ≠ [] → (∀ token ∈ gap, token.isSpacing = true) →
      ((gap ++ rest).flatMap Token.text).head? ≠ some c := by
    intro gap rest gapSome spaces
    obtain ⟨token, gap, rfl⟩ := List.exists_cons_of_ne_nil gapSome
    obtain ⟨d, rfl, spacing⟩ := Token.isSpacing_iff.mp (spaces token List.mem_cons_self)
    rintro ⟨⟩
    simp [solid] at spacing
  cases reflowed with
  | ended => rfl
  | @kept token =>
    obtain ⟨first, rest, spelled⟩ := List.exists_cons_of_ne_nil token.text_ne_nil
    simp [spelled]
  | spaced gapSome wideSome gapSpace wideSpace =>
    exact iff_of_false (hidden gapSome gapSpace) (hidden wideSome wideSpace)

/-- Whether a token stands depends on no more than the first character behind it. -/
theorem Token.Stands.congr {rest other : List Char} (stands : token.Stands rest)
    (same : ∀ c, Source.isSpacing c = false → (rest.head? = some c ↔ other.head? = some c)) :
    token.Stands other := by
  cases token with
  | plain c =>
    obtain ⟨noQuote, noApostrophe, noComment⟩ := stands
    refine ⟨noQuote, noApostrophe, fun isSlash => ?_⟩
    obtain ⟨noSlash, noStar⟩ := noComment isSlash
    exact ⟨mt (same '/' (by decide)).mpr noSlash, mt (same '*' (by decide)).mpr noStar⟩
  | lineComment | blockComment | textBlock => exact stands
  | literal quote body =>
    obtain ⟨isQuote, within, noBlock⟩ := stands
    refine ⟨isQuote, within, fun block => noBlock ?_⟩
    cases body with
    | nil =>
      have oneQuote : ∀ text : List Char, ['"'] <+: text ↔ text.head? = some '"' := by
        intro text
        cases text <;> simp [eq_comm]
      simp only [Token.text, List.flatMap_nil, List.nil_append, List.cons_append,
        List.cons_prefix_cons, oneQuote] at block ⊢
      exact ⟨block.1, block.2.1, (same '"' (by decide)).mpr block.2.2⟩
    | cons piece body =>
      have long : ['"', '"', '"'].length ≤ (Token.literal quote (piece :: body)).text.length := by
        cases piece <;> simp [Token.text, Piece.text]
      exact (List.isPrefix_append_of_length long).mpr
        ((List.isPrefix_append_of_length long).mp block)

/-- A reformatted row of tokens is a row of tokens. -/
theorem Row.reflowed (row : Row tokens) (reflowed : Reflowed Token.isSpacing tokens others) :
    Row others := by
  have spaced : ∀ {gap rest : List Token}, (∀ token ∈ gap, token.isSpacing = true) →
      (Row (gap ++ rest) ↔ Row rest) := by
    intro gap rest spaces
    induction gap with
    | nil => rfl
    | cons token gap inductionHypothesis =>
      obtain ⟨first, later⟩ := List.forall_mem_cons.mp spaces
      obtain ⟨c, rfl, spacing⟩ := Token.isSpacing_iff.mp first
      have stands : ∀ rest, (Token.plain c).Stands rest := by
        have apart : ∀ sign, Source.isSpacing sign = false → c ≠ sign := fun sign solid =>
          bne_iff_ne.mp (ne_of_isSpacing sign solid c spacing)
        exact fun rest => ⟨apart _ (by decide), apart _ (by decide),
          fun isSlash => absurd isSlash (apart '/' (by decide))⟩
      rw [← inductionHypothesis later]
      exact ⟨And.right, fun row => ⟨stands _, row⟩⟩
  induction reflowed with
  | ended => exact row
  | kept _ behind inductionHypothesis =>
    exact ⟨row.1.congr fun c solid => behind.text_head solid, inductionHypothesis row.2⟩
  | spaced _ _ gapSpace wideSpace _ inductionHypothesis =>
    exact (spaced wideSpace).mpr (inductionHypothesis ((spaced gapSpace).mp row))

/-- How a text is spaced says nothing. Two texts that differ only in their gaps both fail to balance
their braces, or have types with the same declarations and the same methods in the same order, where
looking back splits a character in both or in none; so sources that differ only in their gaps once
they are blanked have the same entry. A row of tokens with other gaps between its comments, literals
and visible characters is a row again and has the same entry. -/
theorem formatting_says_nothing :
    (∀ text other, Reformatted text other → Option.Rel
      (List.Forall₂ fun type same =>
        type.declaration = same.declaration ∧ type.methods = same.methods)
      (typeBodies? text) (typeBodies? other)) ∧
    (∀ (fileName contents changed : String),
      Reformatted (blank contents.toList) (blank changed.toList) →
        recognize fileName changed = recognize fileName contents) ∧
    ∀ (fileName : String) (tokens others : List Token), Row tokens →
      Reflowed Token.isSpacing tokens others →
        Row others ∧ recognize fileName (String.ofList (others.flatMap Token.text)) =
          recognize fileName (String.ofList (tokens.flatMap Token.text)) := by
  refine ⟨fun text other reformatted => ?_, fun fileName contents changed reformatted => ?_,
    fun fileName tokens others row reflowed => ?_⟩
  · have found := reformatted.typeBodies?
    revert found
    cases typeBodies? text <;> cases typeBodies? other <;> rintro ⟨⟩
    · exact .none
    · next both => exact .some (both.imp fun _ _ same => ⟨same.1, same.methods⟩)
  · exact (recognize_reformatted reformatted fileName).symm
  · have again := row.reflowed reflowed
    refine ⟨again, (recognize_reformatted ?_ fileName).symm⟩
    rw [String.toList_ofList, String.toList_ofList, row.blank, again.blank]
    exact reflowed.images

/-- A source with one gap in many places; the gap in its comment is none of them. -/
def spacedTokens (gap : List Char) : List Token :=
  "class".toList.map .plain ++ (gap.map .plain ++ ("A\x7bint".toList.map .plain ++
    (gap.map .plain ++ (.lineComment " one  gap ".toList :: ("f(int".toList.map .plain ++
      (gap.map .plain ++ "n)throws E;\x7d".toList.map .plain))))))

/-- A source whose gaps are blanks and one whose gaps are a tab, a newline and a blank declare the
same. -/
theorem wide_gaps_say_nothing :
    let narrow := spacedTokens [' ']
    let wide := spacedTokens ['\t', '\n', ' ']
    Row narrow ∧ Reflowed Token.isSpacing narrow wide ∧
      recognize "A.java" (String.ofList (wide.flatMap Token.text)) =
        recognize "A.java" (String.ofList (narrow.flatMap Token.text)) ∧
      Reformatted (narrow.map Token.image) (wide.map Token.image) ∧
      Option.Rel
        (List.Forall₂ fun type same =>
          type.declaration = same.declaration ∧ type.methods = same.methods)
        (typeBodies? (narrow.map Token.image)) (typeBodies? (wide.map Token.image)) ∧
      (typeBodies? (narrow.map Token.image)).map
        (List.map fun type => (type.declaration, type.methods)) =
          some [(⟨.classWord, "A".toList⟩, .ok ["f".toList])] := by
  intro narrow wide
  have row : Row narrow := by decide +kernel
  have gap : Reflowed Token.isSpacing ([' '].map .plain) (['\t', '\n', ' '].map .plain) :=
    .gap (by decide) (by decide) (by decide) (by decide)
  have reflowed : Reflowed Token.isSpacing narrow wide :=
    (Reflowed.refl _).append (gap.append ((Reflowed.refl _).append (gap.append
      (.kept rfl ((Reflowed.refl _).append (gap.append (Reflowed.refl _)))))))
  obtain ⟨types, -, rows⟩ := formatting_says_nothing
  have images : Reformatted (narrow.map Token.image) (wide.map Token.image) := reflowed.images
  refine ⟨row, reflowed, (rows "A.java" narrow wide row reflowed).2, images, types _ _ images, ?_⟩
  decide +kernel

end CodeCensus.Source
