import CodeCensus.Proofs.SplitCharacter
import CodeCensus.Source.Declaration

/-!
# The declarations of a header

A search goes through a header from left to right. It takes the first place where a declaration
matches, goes on behind that declaration, and ends where no declaration matches any more. The matches
it takes are the declarations of the header.
-/

namespace CodeCensus.Source

open CodeCensus.Text

variable {atFront : Bool} {c : Char} {text passed rest : List Char} {declaration : Declaration}
  {found : List Declaration}

/-- A name: one character that may open it, and any number that may continue it. -/
def IsName (name : List Char) : Prop :=
  ∃ first others, name = first :: others ∧ isNameStart first = true ∧
    ∀ c ∈ others, isNamePart c = true

/-- A text starts with a declaration: an at sign or nothing, the keyword, blanks, and the name as
far as it goes. -/
def Opens (text : List Char) (declaration : Declaration) (rest : List Char) : Prop :=
  ∃ mark blanks,
    text = mark ++ (declaration.keyword.spelling ++ (blanks ++ (declaration.name ++ rest))) ∧
    (mark = [] ∨ mark = ['@']) ∧ blanks ≠ [] ∧ (∀ c ∈ blanks, isBlank c = true) ∧
    IsName declaration.name ∧ ∀ c, rest.head? = some c → isNamePart c = false

/-- A declaration matches behind what is passed over: at the front of the whole text, or after a
character that cannot belong to a word. -/
def Matches (atFront : Bool) (text passed : List Char) (declaration : Declaration)
    (rest : List Char) : Prop :=
  (atFront = true ∧ passed = [] ∧ Opens text declaration rest) ∨
    ∃ c behind, text = passed ++ c :: behind ∧ separates c = true ∧ Opens behind declaration rest

/-- A search for matches that do not overlap: it takes the leftmost one and goes on behind it, where it
is no longer at the front. -/
inductive Search : Bool → List Char → List Declaration → Prop
  | ended {front : Bool} {text : List Char}
      (nowhere : ∀ passed declaration rest, ¬Matches front text passed declaration rest) :
      Search front text []
  | next {front : Bool} {text passed rest : List Char} {declaration : Declaration}
      {later : List Declaration} (here : Matches front text passed declaration rest)
      (leftmost : ∀ earlier other behind, Matches front text earlier other behind →
        passed.length ≤ earlier.length)
      (behind : Search false rest later) : Search front text (declaration :: later)

/-! ### The parts of a declaration -/

private theorem isAscii_of_isAsciiLetter (letter : isAsciiLetter c = true) : c.toNat < 0x80 := by
  simp only [isAsciiLetter, Char.le_def, UInt32.le_iff_toNat_le, Bool.or_eq_true, Bool.and_eq_true,
    decide_eq_true_eq] at letter
  have lower : 'z'.val.toNat < 0x80 := by decide
  have upper : 'Z'.val.toNat < 0x80 := by decide
  have same : c.toNat = c.val.toNat := rfl
  omega

/-- What begins a name may go on it too. -/
theorem isNamePart_of_isNameStart (start : isNameStart c = true) : isNamePart c = true := by
  simp only [isNameStart, Bool.or_eq_true, beq_iff_eq] at start
  rcases start with (letter | rfl) | rfl
  · simp [isNamePart, isWord, isAscii_of_isAsciiLetter letter, letter]
  · decide
  · decide

/-- No blank begins a name. -/
theorem isBlank_of_isNameStart (start : isNameStart c = true) : isBlank c = false := by
  apply isBlank_of_isWordLetter
  simp only [isNameStart, Bool.or_eq_true, beq_iff_eq] at start
  rcases start with (letter | rfl) | rfl
  · simp [isWordLetter, isAlphanumeric, isAscii_of_isAsciiLetter letter, letter]
  · decide
  · decide

/-- A keyword is written with a letter first. -/
theorem spelling_eq_cons (keyword : TypeKeyword) :
    ∃ first others, keyword.spelling = first :: others ∧ isNameStart first = true := by
  cases keyword <;> exact ⟨_, _, rfl, by decide⟩

private theorem keyword_eq_of_head {keyword other : TypeKeyword}
    (same : keyword.spelling.head? = other.spelling.head?) : keyword = other := by
  cases keyword <;> cases other <;> first | rfl | exact absurd same (by decide)

private theorem eq_of_spelling_append {keyword other : TypeKeyword} {behind : List Char}
    (same : keyword.spelling ++ rest = other.spelling ++ behind) :
    keyword = other ∧ rest = behind := by
  obtain ⟨first, others, spelled, -⟩ := spelling_eq_cons keyword
  obtain ⟨otherFirst, otherOthers, otherSpelled, -⟩ := spelling_eq_cons other
  obtain rfl : keyword = other := by
    apply keyword_eq_of_head
    rw [spelled, otherSpelled] at same ⊢
    exact congrArg some (List.cons.inj same).1
  exact ⟨rfl, List.append_cancel_left same⟩

/-- A text starts with no more than one keyword, as the keywords differ in their first letters. -/
theorem keywordHere?_eq_some {keyword : TypeKeyword} :
    keywordHere? text = some (keyword, rest) ↔ text = keyword.spelling ++ rest := by
  have sound : ∀ {keyword rest}, keywordHere? text = some (keyword, rest) →
      text = keyword.spelling ++ rest := by
    intro keyword rest found
    obtain ⟨candidate, -, here⟩ := List.exists_of_findSome?_eq_some found
    obtain ⟨behind, stripped, same⟩ := Option.map_eq_some_iff.mp here
    obtain ⟨rfl, rfl⟩ := Prod.mk.inj same
    exact (List.isPrefixOf?_eq_some_iff_append_eq.mp stripped).symm
  refine ⟨sound, fun whole => ?_⟩
  cases found : keywordHere? text with
  | none =>
    have listed : keyword ∈ TypeKeyword.all := by cases keyword <;> decide
    have missed := List.findSome?_eq_none_iff.mp found keyword listed
    rw [Option.map_eq_none_iff, Option.eq_none_iff_forall_ne_some] at missed
    exact absurd (List.isPrefixOf?_eq_some_iff_append_eq.mpr whole.symm) (missed rest)
  | some pair =>
    obtain ⟨other, behind⟩ := pair
    obtain ⟨rfl, rfl⟩ := eq_of_spelling_append (whole.symm.trans (sound found))
    rfl

/-- The name at the front of a text goes as far as characters continue it. -/
theorem nameHere?_eq_some {name : List Char} : nameHere? text = some (name, rest) ↔
    text = name ++ rest ∧ IsName name ∧ ∀ c, rest.head? = some c → isNamePart c = false := by
  constructor
  · intro found
    cases text with
    | nil => cases found
    | cons first text =>
      obtain ⟨start, same⟩ := Option.ite_none_right_eq_some.mp found
      obtain ⟨rfl, ends⟩ := Prod.mk.inj (Option.some.inj same)
      obtain ⟨-, -, -, stops⟩ := dropWhile_eq_iff.mp ends
      refine ⟨ends ▸ List.takeWhile_append_dropWhile.symm, ⟨first, text.takeWhile isNamePart, ?_,
        start, fun c member => List.mem_takeWhile_imp member⟩, stops⟩
      exact List.takeWhile_cons_of_pos (isNamePart_of_isNameStart start)
  · rintro ⟨rfl, ⟨first, others, rfl, start, each⟩, stops⟩
    have parts : ∀ c ∈ first :: others, isNamePart c = true :=
      List.forall_mem_cons.mpr ⟨isNamePart_of_isNameStart start, each⟩
    have dropped : (first :: others ++ rest).dropWhile isNamePart = rest :=
      dropWhile_eq_iff.mpr ⟨first :: others, rfl, parts, stops⟩
    have taken : (first :: others ++ rest).takeWhile isNamePart = first :: others := by
      apply List.append_cancel_right
      calc (first :: others ++ rest).takeWhile isNamePart ++ rest
        _ = (first :: others ++ rest).takeWhile isNamePart ++
              (first :: others ++ rest).dropWhile isNamePart := by rw [dropped]
        _ = first :: others ++ rest := List.takeWhile_append_dropWhile
    rw [List.cons_append] at dropped taken ⊢
    rw [nameHere?, if_pos start, dropped, taken]

/-- No keyword starts with an at sign, so a text is a keyword and what follows it once the at sign is
passed over. -/
theorem unmarked_iff {keyword : TypeKeyword} :
    (if text.head? = some '@' then text.tail else text) = keyword.spelling ++ rest ↔
      ∃ mark, (mark = [] ∨ mark = ['@']) ∧ text = mark ++ (keyword.spelling ++ rest) := by
  constructor
  · split
    · next marked =>
      obtain ⟨tail, rfl⟩ := List.head?_eq_some_iff.mp marked
      exact fun same => ⟨['@'], .inr rfl, congrArg ('@' :: ·) same⟩
    · exact fun same => ⟨[], .inl rfl, same⟩
  · rintro ⟨mark, rfl | rfl, rfl⟩
    · obtain ⟨first, others, spelled, start⟩ := spelling_eq_cons keyword
      have apart : first ≠ '@' := by
        rintro rfl
        exact absurd start (by decide)
      simp [spelled, apart]
    · simp

/-- No name starts with a blank, so trimming a text takes all the blanks before a name. -/
theorem spaced_iff {name : List Char} (isName : IsName name) :
    (text.head?.any isBlank = true ∧ trimFront text = name ++ rest) ↔
      ∃ blanks, blanks ≠ [] ∧ (∀ c ∈ blanks, isBlank c = true) ∧ text = blanks ++ (name ++ rest) := by
  obtain ⟨first, others, rfl, start, -⟩ := isName
  have visible := isBlank_of_isNameStart start
  constructor
  · rintro ⟨blank, trimmed⟩
    obtain ⟨blanks, whole, each, -⟩ := dropWhile_eq_iff.mp trimmed
    refine ⟨blanks, ?_, each, whole⟩
    rintro rfl
    simp [whole, visible] at blank
  · rintro ⟨blanks, someBlank, each, rfl⟩
    refine ⟨?_, dropWhile_eq_iff.mpr ⟨blanks, rfl, each, by simp [visible]⟩⟩
    obtain ⟨blank, more, rfl⟩ := List.exists_cons_of_ne_nil someBlank
    simpa using each blank List.mem_cons_self

/-- A declaration is found at the front of a text exactly where the text starts with it. -/
theorem declarationHere?_eq_some :
    declarationHere? text = some (declaration, rest) ↔ Opens text declaration rest := by
  constructor
  · intro found
    obtain ⟨⟨keyword, spaced⟩, spelled, behindKeyword⟩ := Option.bind_eq_some_iff.mp found
    obtain ⟨blank, behindBlanks⟩ := Option.ite_none_right_eq_some.mp behindKeyword
    obtain ⟨⟨name, behind⟩, named, same⟩ := Option.bind_eq_some_iff.mp behindBlanks
    obtain ⟨rfl, rfl⟩ := Prod.mk.inj (Option.some.inj same)
    obtain ⟨trimmed, isName, stops⟩ := nameHere?_eq_some.mp named
    obtain ⟨mark, marks, whole⟩ := unmarked_iff.mp (keywordHere?_eq_some.mp spelled)
    obtain ⟨blanks, someBlank, each, rfl⟩ := (spaced_iff isName).mp ⟨blank, trimmed⟩
    exact ⟨mark, blanks, whole, marks, someBlank, each, isName, stops⟩
  · rintro ⟨mark, blanks, whole, marks, someBlank, each, isName, stops⟩
    obtain ⟨blank, trimmed⟩ := (spaced_iff isName).mpr ⟨blanks, someBlank, each, rfl⟩
    have spelled := keywordHere?_eq_some.mpr (unmarked_iff.mpr ⟨mark, marks, whole⟩)
    have named := nameHere?_eq_some.mpr ⟨trimmed, isName, stops⟩
    refine Option.bind_eq_some_iff.mpr ⟨(declaration.keyword, _), spelled, ?_⟩
    exact (if_pos blank).trans (Option.bind_eq_some_iff.mpr ⟨_, named, rfl⟩)

/-! ### Matches -/

/-- A declaration starts with a character behind which none could match. -/
theorem Opens.head (opens : Opens (c :: text) declaration rest) : separates c = false := by
  obtain ⟨mark, blanks, whole, rfl | rfl, -⟩ := opens
  · obtain ⟨first, others, spelled, start⟩ := spelling_eq_cons declaration.keyword
    rw [spelled] at whole
    obtain ⟨rfl, -⟩ := List.cons.inj whole
    simp [separates, isNamePart_of_isNameStart start]
  · obtain ⟨rfl, -⟩ := List.cons.inj whole
    decide

/-- What is left behind a declaration ends the text. -/
theorem Opens.suffix (opens : Opens text declaration rest) : ∃ front, text = front ++ rest := by
  obtain ⟨mark, blanks, rfl, -⟩ := opens
  exact ⟨mark ++ (declaration.keyword.spelling ++ (blanks ++ declaration.name)), by simp⟩

private theorem Opens.unique {other : Declaration} {behind : List Char}
    (opens : Opens text declaration rest) (otherwise : Opens text other behind) :
    other = declaration ∧ behind = rest := by
  have same := (declarationHere?_eq_some.mpr otherwise).symm.trans
    (declarationHere?_eq_some.mpr opens)
  exact Prod.mk.inj (Option.some.inj same)

private theorem not_matches_nil : ¬Matches false [] passed declaration rest := by
  simp [Matches]

/-- Away from the front, a match is at the first character or later. -/
theorem matches_cons : Matches false (c :: text) passed declaration rest ↔
    (passed = [] ∧ separates c = true ∧ Opens text declaration rest) ∨
      ∃ later, passed = c :: later ∧ Matches false text later declaration rest := by
  cases passed with
  | nil => simp [Matches]
  | cons first passed =>
    simp only [Matches, Bool.false_eq_true, false_and, false_or, List.cons_append, List.cons.injEq,
      reduceCtorEq]
    constructor
    · rintro ⟨between, behind, ⟨rfl, rfl⟩, separate, opens⟩
      exact ⟨passed, ⟨rfl, rfl⟩, between, behind, rfl, separate, opens⟩
    · rintro ⟨later, ⟨rfl, rfl⟩, between, behind, rfl, separate, opens⟩
      exact ⟨between, behind, ⟨rfl, rfl⟩, separate, opens⟩

/-- A text that does not start with a declaration can as well be read away from the front. -/
theorem matches_of_not_opens (closed : ∀ declaration rest, ¬Opens text declaration rest) :
    Matches true text passed declaration rest ↔ Matches false text passed declaration rest := by
  simp [Matches, closed]

/-- No two matches start in one place. -/
theorem Matches.unique {other : Declaration} {front behind : List Char}
    (here : Matches atFront text passed declaration rest)
    (there : Matches atFront text front other behind) (same : passed.length = front.length) :
    other = declaration ∧ behind = rest := by
  rcases here with ⟨-, rfl, opens⟩ | ⟨c, more, rfl, separate, opens⟩
  · rcases there with ⟨-, -, otherwise⟩ | ⟨c, more, rfl, separate, -⟩
    · exact opens.unique otherwise
    · obtain rfl := List.length_eq_zero_iff.mp same.symm
      exact absurd separate (by simp [opens.head])
  · rcases there with ⟨-, rfl, otherwise⟩ | ⟨d, others, again, -, otherwise⟩
    · obtain rfl := List.length_eq_zero_iff.mp same
      exact absurd separate (by simp [otherwise.head])
    · obtain ⟨-, sameRest⟩ := List.append_inj again same
      obtain ⟨-, rfl⟩ := List.cons.inj sameRest
      exact opens.unique otherwise

/-! ### The search -/

/-- A search finds one row of declarations. -/
theorem Search.unique {others : List Declaration} (search : Search atFront text found)
    (again : Search atFront text others) : others = found := by
  induction search generalizing others with
  | ended nowhere =>
    cases again with
    | ended => rfl
    | next here => exact absurd here (nowhere _ _ _)
  | next here leftmost _ inductionHypothesis =>
    cases again with
    | ended nowhere => exact absurd here (nowhere _ _ _)
    | next there first behind =>
      obtain ⟨rfl, rfl⟩ := here.unique there
        (Nat.le_antisymm (leftmost _ _ _ there) (first _ _ _ here))
      rw [inductionHypothesis behind]

/-- Where nothing matches at the first character, the search is that of the other characters. -/
theorem Search.cons (none : ∀ declaration rest, ¬(separates c = true ∧ Opens text declaration rest))
    (search : Search false text found) : Search false (c :: text) found := by
  have shift : ∀ {passed declaration rest}, Matches false (c :: text) passed declaration rest →
      ∃ later, passed = c :: later ∧ Matches false text later declaration rest := fun here =>
    (matches_cons.mp here).resolve_left fun first => none _ _ first.2
  cases search with
  | ended nowhere =>
    refine .ended fun passed declaration rest here => ?_
    obtain ⟨later, -, there⟩ := shift here
    exact nowhere later declaration rest there
  | next here leftmost behind =>
    refine .next (matches_cons.mpr (.inr ⟨_, rfl, here⟩)) (fun earlier other rest there => ?_) behind
    obtain ⟨later, rfl, inside⟩ := shift there
    exact Nat.succ_le_succ (leftmost later other rest inside)

/-- A search is the same at the front and away from it, unless the text starts with a declaration. -/
theorem Search.of_not_opens (closed : ∀ declaration rest, ¬Opens text declaration rest)
    (search : Search false text found) : Search true text found := by
  cases search with
  | ended nowhere =>
    exact .ended fun _ _ _ here => nowhere _ _ _ ((matches_of_not_opens closed).mp here)
  | next here leftmost behind =>
    exact .next ((matches_of_not_opens closed).mpr here)
      (fun _ _ _ there => leftmost _ _ _ ((matches_of_not_opens closed).mp there)) behind

/-- The characters taken by a declaration are passed over. -/
theorem declarationsAfter_eq_drop (taken : Nat) (text : List Char) :
    declarationsAfter taken text = declarationsAfter 0 (text.drop taken) := by
  induction text generalizing taken with
  | nil => simp [declarationsAfter]
  | cons c text inductionHypothesis =>
    cases taken with
    | zero => rfl
    | succ taken => rw [declarationsAfter, List.drop_succ_cons, inductionHypothesis]

/-- Behind a declaration, the search goes on with what is left. -/
theorem Opens.declarationsAfter_taken (opens : Opens text declaration rest) :
    declarationsAfter (text.length - rest.length) text = declarationsAfter 0 rest := by
  obtain ⟨front, rfl⟩ := opens.suffix
  rw [declarationsAfter_eq_drop]
  simp

/-- A text in which no declaration is found at the front begins with none. -/
theorem not_opens (missed : declarationHere? text = none) (declaration : Declaration)
    (rest : List Char) : ¬Opens text declaration rest := by
  simp [← declarationHere?_eq_some, missed]

/-- Away from the front, a search finds the declarations that start after a separating character. -/
theorem search_declarationsAfter (text : List Char) :
    Search false text (declarationsAfter 0 text) := by
  -- By induction on the length, as the search goes on behind a whole declaration at once.
  induction size : text.length using Nat.strong_induction_on generalizing text with
  | _ length inductionHypothesis =>
    cases text with
    | nil => exact .ended fun _ _ _ => not_matches_nil
    | cons c text =>
      have shorter : text.length < length := by simp [← size]
      have others := inductionHypothesis _ shorter text rfl
      rw [declarationsAfter]
      split
      · next separate =>
        split
        · next declaration rest found =>
          have opens := declarationHere?_eq_some.mp found
          have behind : rest.length < length := by
            obtain ⟨front, rfl⟩ := opens.suffix
            simp only [List.length_append] at shorter
            omega
          rw [opens.declarationsAfter_taken]
          exact .next (matches_cons.mpr (.inl ⟨rfl, separate, opens⟩)) (fun _ _ _ _ => Nat.zero_le _)
            (inductionHypothesis _ behind rest rfl)
        · next missed => exact others.cons fun _ _ both => not_opens missed _ _ both.2
      · next together => exact others.cons fun _ _ both => together both.1

/-- The declarations of a header are those that a search finds in it. -/
theorem search_iff : Search true text found ↔ declarations text = found := by
  have finds : Search true text (declarations text) := by
    rw [declarations]
    split
    · next declaration rest here =>
      exact .next (.inl ⟨rfl, rfl, declarationHere?_eq_some.mp here⟩) (fun _ _ _ _ => Nat.zero_le _)
        (search_declarationsAfter rest)
    · next missed => exact (search_declarationsAfter text).of_not_opens (not_opens missed)
  exact ⟨fun search => search.unique finds, fun same => same ▸ finds⟩

/-- Matches do not overlap: a word taken as a name opens no other declaration. -/
example : declarations "final class class A".toList = [⟨.classWord, "class".toList⟩] := by decide

end CodeCensus.Source
