import CodeCensus.Proofs.Calls
import Mathlib.Data.List.Infix

/-!
# Members one after the other

Whether a call declares a method is decided by looking back over the text before its name and ahead
over the text behind its parenthesis, and neither look is bounded. Where a member ends, both stop:
no word and no blank reaches over its last character, a list in parentheses that ends behind it
began behind it, and a list that opened before it has closed. So a text of whole members declares
its own methods, whatever comes behind it, and what comes behind it declares its own as well.
-/

namespace CodeCensus.Source

open CodeCensus.Text

variable {c : Char} {text more rest passed behind : List Char} {inner : Nat} {call : Call}

/-! ### Where a member ends -/

/-- The characters that end a member. -/
def endsMember (c : Char) : Bool :=
  c == ';' || c == '}'

private theorem endsMember_iff : endsMember c = true ↔ c = ';' ∨ c = '}' := by
  simp [endsMember]

/-- No look back or ahead goes over the character: it is no blank, belongs to no name and no word,
takes a single byte and marks no annotation. -/
structure Stops (c : Char) : Prop where
  noBlank : isBlank c = false
  noName : isNamePart c = false
  noLetter : isWordLetter c = false
  single : isSingleByte c = true
  unmarked : c ≠ '@'

private theorem stops_of_endsMember (ends : endsMember c = true) : Stops c := by
  rcases endsMember_iff.mp ends with rfl | rfl <;> constructor <;> decide +kernel

/-- The text is empty or ends a member. -/
def Ends (text : List Char) : Prop :=
  ∀ c, text.getLast? = some c → endsMember c = true

private theorem Ends.suffix {front : List Char} (ends : Ends (front ++ rest)) : Ends rest := by
  intro c last
  exact ends c (by simp [List.getLast?_append, last])

private theorem Ends.tail (ends : Ends (c :: rest)) : Ends rest :=
  (show Ends ([c] ++ rest) from ends).suffix

/-- A text that ends a member holds the character that ends it. -/
theorem Ends.exists_mem (ends : Ends text) (filled : text ≠ []) :
    ∃ c ∈ text, endsMember c = true :=
  ⟨text.getLast filled, List.getLast_mem filled,
    ends _ (List.getLast?_eq_some_getLast filled)⟩

/-- A text that ends a member holds something visible. -/
theorem Ends.visible (ends : Ends text) (filled : text ≠ []) : ∃ c ∈ text, isBlank c = false := by
  obtain ⟨c, member, last⟩ := ends.exists_mem filled
  exact ⟨c, member, (stops_of_endsMember last).noBlank⟩

private theorem trimFront_append (ends : Ends text) (filled : text ≠ []) (more : List Char) :
    trimFront (text ++ more) = trimFront text ++ more := by
  exact (span_append (ends.visible filled) more).2

/-- No call lies over the end of a member. -/
theorem Ends.apart (ends : Ends text) : Apart text more where
  name _ _ last _ := .inl (stops_of_endsMember (ends _ last)).noName
  call := .inr fun _ last =>
    ⟨(stops_of_endsMember (ends _ last)).noName, (stops_of_endsMember (ends _ last)).noBlank⟩

/-! ### Whole members -/

/-- No front of the text closes more parentheses than it opens. -/
def Nested (text : List Char) : Prop :=
  ∀ front, front <+: text → front.count ')' ≤ front.count '('

/-- The parentheses of the text are nested and all closed. -/
structure Paired (text : List Char) : Prop where
  nested : Nested text
  closed : text.count ')' = text.count '('

/-- What stands behind nested and closed parentheses may go on nesting where they ended. -/
theorem Paired.nested_append (paired : Paired text) (nested : Nested more) :
    Nested (text ++ more) := by
  intro front within
  rcases List.prefix_or_prefix_of_prefix within (List.prefix_append text more) with inside | beyond
  · exact paired.nested front inside
  · obtain ⟨later, rfl⟩ := beyond
    have laterNested := nested later ((List.prefix_append_right_inj text).mp within)
    have closed := paired.closed
    simp only [List.count_append]
    omega

/-- The text is empty or ends a member, and its parentheses are nested and all closed. -/
structure Whole (text : List Char) : Prop extends Paired text where
  ends : Ends text

/-- Each closing parenthesis of the text stands behind an opening one. -/
def OpensFirst (text : List Char) : Prop :=
  ∀ front rest, text = front ++ ')' :: rest → '(' ∈ front

/-- A text that nests its parentheses opens one first. -/
theorem Nested.opensFirst (nested : Nested text) : OpensFirst text := by
  rintro front rest rfl
  have opened := nested (front ++ [')']) ⟨rest, by simp⟩
  rw [← List.count_pos_iff]
  simp at opened
  omega

/-- Behind nested and closed parentheses, a text that opens one first goes on opening one first. -/
theorem Paired.opensFirst_append (paired : Paired text) (opens : OpensFirst more) :
    OpensFirst (text ++ more) := by
  intro front rest same
  rcases List.append_eq_append_iff.mp same with ⟨middle, rfl, later⟩ | ⟨middle, rfl, earlier⟩
  · exact List.mem_append_right _ (opens middle rest later)
  · cases middle with
    | nil =>
      have nothing := opens [] rest earlier.symm
      cases nothing
    | cons c middle =>
      obtain ⟨rfl, -⟩ := List.cons.inj earlier
      exact paired.nested.opensFirst front middle rfl

/-- Where a list in parentheses ends right before a point of a text that opens one first, an opening
parenthesis is found by looking back within the text. -/
theorem OpensFirst.found {front earlier : List Char} (opens : OpensFirst text)
    (within : front <+: text) (shown : trimFront front.reverse = ')' :: earlier) : '(' ∈ earlier := by
  obtain ⟨later, rfl⟩ := within
  obtain ⟨blanks, turned, -, -⟩ := dropWhile_eq_iff.mp shown
  have parted : front = earlier.reverse ++ ')' :: blanks.reverse := by
    rw [← List.reverse_reverse front, turned]
    simp
  exact List.mem_reverse.mp (opens earlier.reverse (blanks.reverse ++ later) (by simp [parted]))

instance : Decidable (Ends text) :=
  decidable_of_iff (text.getLast?.all endsMember = true) (by
    cases last : text.getLast? <;> simp [Ends, last])

instance : Decidable (Nested text) :=
  decidable_of_iff (∀ front ∈ text.inits, front.count ')' ≤ front.count '(')
    (by simp only [List.mem_inits, Nested])

instance : Decidable (Paired text) :=
  decidable_of_iff (Nested text ∧ text.count ')' = text.count '(')
    ⟨fun ⟨nested, closed⟩ => ⟨nested, closed⟩, fun paired => ⟨paired.nested, paired.closed⟩⟩

instance : Decidable (Whole text) :=
  decidable_of_iff (Paired text ∧ Ends text)
    ⟨fun ⟨paired, ends⟩ => ⟨paired, ends⟩, fun whole => ⟨whole.toPaired, whole.ends⟩⟩

/-! ### Looking back -/

/-- The word with more text before the text that it ends. -/
def TrailingWord.after (passed : List Char) (word : TrailingWord) : TrailingWord :=
  { word with behind := word.behind ++ passed.reverse }

/-- Looking back over a text, no word, no blank and no list at its front goes on into what was passed
before: what was passed ends in no letter, wide character or at sign, and either in no blank or the
text begins visibly. -/
structure Fenced (passed behind : List Char) : Prop where
  last : ∀ c, passed.getLast? = some c →
    isWordLetter c = false ∧ isSingleByte c = true ∧ c ≠ '@'
  visible : (∀ c, passed.getLast? = some c → isBlank c = false) ∨
    ∃ c, behind.getLast? = some c ∧ isBlank c = false ∧ c ≠ '('

private theorem Ends.fenced (ends : Ends passed) (behind : List Char) : Fenced passed behind where
  last c last :=
    have stops := stops_of_endsMember (ends c last)
    ⟨stops.noLetter, stops.single, stops.unmarked⟩
  visible := .inl fun c last => (stops_of_endsMember (ends c last)).noBlank

/-- What stands before the last list in parentheses is fenced like the whole text. -/
theorem Fenced.beforeList {front : List Char} (fenced : Fenced passed (front ++ '(' :: behind)) :
    Fenced passed behind where
  last := fenced.last
  visible := by
    refine fenced.visible.imp_right ?_
    rintro ⟨c, first, visible, noList⟩
    cases behind with
    | nil =>
      obtain rfl : '(' = c := by simpa using first
      exact absurd rfl noList
    | cons other behind => exact ⟨c, by simpa using first, visible, noList⟩

private theorem Fenced.trimFront (fenced : Fenced passed behind) :
    trimFront (behind ++ passed.reverse) = Text.trimFront behind ++ passed.reverse := by
  rcases fenced.visible with visible | ⟨c, first, visible, -⟩
  · exact (span_before (fun c last => visible c (by rwa [List.head?_reverse] at last)) behind).2
  · exact (span_append ⟨c, List.mem_of_getLast? first, visible⟩ passed.reverse).2

/-- The word that ends a text is the same behind what was passed before. -/
theorem Fenced.trailingWord? (fenced : Fenced passed behind) :
    trailingWord? (behind ++ passed.reverse) =
      (Source.trailingWord? behind).map (Option.map (TrailingWord.after passed)) := by
  have noLetter : ∀ c, passed.reverse.head? = some c → isWordLetter c = false := fun c last =>
    (fenced.last c (by rwa [List.head?_reverse] at last)).1
  obtain ⟨taken, dropped⟩ := span_before noLetter (Text.trimFront behind)
  have single : ∀ before : List Char,
      (before ++ passed.reverse).head?.all isSingleByte = before.head?.all isSingleByte := by
    intro before
    cases before with
    | cons => rfl
    | nil =>
      cases last : passed.getLast? with
      | none => simp [last]
      | some c => simp [last, (fenced.last c last).2.1]
  simp only [Source.trailingWord?, fenced.trimFront, taken, dropped, single]
  split
  · split <;> rfl
  · rfl

/-- What was passed before does not put an at sign before a word. -/
theorem Fenced.marked (fenced : Fenced passed behind) (word : TrailingWord) :
    ((word.after passed).behind.head? == some '@') = (word.behind.head? == some '@') := by
  obtain ⟨before, word⟩ := word
  cases before with
  | cons => rfl
  | nil =>
    cases last : passed.getLast? with
    | none => simp [TrailingWord.after, last]
    | some c => simp [TrailingWord.after, last, (fenced.last c last).2.2]

/-- A test of the last word that reads the word and asks for an at sign before it has the same
outcome behind what was passed before. -/
theorem Fenced.lastWord (fenced : Fenced passed behind) (test : List Char → Bool → Bool) :
    ((Source.trailingWord? (behind ++ passed.reverse)).bind fun word? =>
      .ok (word?.any fun word => test word.word (word.behind.head? == some '@'))) =
    ((Source.trailingWord? behind).bind fun word? =>
      .ok (word?.any fun word => test word.word (word.behind.head? == some '@'))) := by
  rw [fenced.trailingWord?]
  match Source.trailingWord? behind with
  | .error _ => rfl
  | .ok none => rfl
  | .ok (some word) =>
    exact congrArg (fun marked => Except.ok (test word.word marked)) (fenced.marked word)

/-- A name may be declared where it stands whatever was passed before, if an opening parenthesis
stands between that and the name wherever a list ends right before the name. Where nothing but blanks
stand before the name, what was passed has to end a member. -/
theorem Fenced.admitsDeclaration (fenced : Fenced passed behind)
    (opened : ∀ earlier, Text.trimFront behind = ')' :: earlier → '(' ∈ earlier)
    (first : Text.trimFront behind = [] → Ends passed) :
    admitsDeclaration (behind ++ passed.reverse) = Source.admitsDeclaration behind := by
  rw [Source.admitsDeclaration, Source.admitsDeclaration, fenced.trimFront]
  cases visible : Text.trimFront behind with
  | nil =>
    cases last : passed.reverse with
    | nil => rfl
    | cons c rest =>
      have isLast := first visible c (by rw [← List.head?_reverse, last, List.head?_cons])
      rcases endsMember_iff.mp isLast with rfl | rfl <;> rfl
  | cons c rest =>
    obtain ⟨blanks, whole, -, -⟩ := dropWhile_eq_iff.mp visible
    dsimp only [List.cons_append]
    split
    · rfl
    split
    · next closes =>
      subst closes
      -- An opening parenthesis stands in the text, so looking for one stays there.
      have began : '(' ∈ rest := opened rest visible
      have stays : ∃ c ∈ rest, (c != '(') = false := ⟨'(', began, by decide⟩
      rw [(span_append stays passed.reverse).2]
      cases left : rest.dropWhile (· != '(') with
      | nil => exact absurd (List.dropWhile_eq_nil_iff.mp left '(' began) (by decide)
      | cons opening before =>
        obtain ⟨list, inside, -, opens⟩ := dropWhile_eq_iff.mp left
        obtain rfl : opening = '(' := by simpa using opens opening rfl
        have parted : behind = (blanks ++ ')' :: list) ++ '(' :: before := by simp [whole, inside]
        exact (parted ▸ fenced).beforeList.lastWord fun _ marked => marked
    · have shown : Fenced passed (c :: rest) := ⟨fenced.last, by simpa [whole] using fenced.visible⟩
      exact shown.lastWord fun word marked => word != "new".toList && !marked

/-! ### Looking ahead -/

/-- Other characters than parentheses are passed over in search of the one that closes a list. -/
theorem afterClosing?_other (notOpen : c ≠ '(') (notClose : c ≠ ')') :
    afterClosing? inner (c :: rest) = afterClosing? inner rest := by
  rw [afterClosing?] <;> simp_all

/-- A text that closes more lists in parentheses than it opens, and than are open within the first,
closes the first. What closes it closes it whatever comes behind. -/
theorem afterClosing?_of_count (closes : text.count '(' + inner < text.count ')') :
    ∃ front rest, text = front ++ ')' :: rest ∧
      ∀ more, afterClosing? inner (front ++ ')' :: more) = some more := by
  induction text generalizing inner with
  | nil => simp at closes
  | cons c text inductionHypothesis =>
    by_cases opens : c = '('
    · subst opens
      have later : text.count '(' + (inner + 1) < text.count ')' := by
        simp at closes
        omega
      obtain ⟨front, rest, rfl, found⟩ := inductionHypothesis later
      exact ⟨'(' :: front, rest, rfl, found⟩
    by_cases ends : c = ')'
    · subst ends
      cases inner with
      | zero => exact ⟨[], text, rfl, fun _ => rfl⟩
      | succ inner =>
        have later : text.count '(' + inner < text.count ')' := by
          simp at closes
          omega
        obtain ⟨front, rest, rfl, found⟩ := inductionHypothesis later
        exact ⟨')' :: front, rest, rfl, found⟩
    · have later : text.count '(' + inner < text.count ')' := by
        simpa [List.count_cons_of_ne, opens, ends] using closes
      obtain ⟨front, rest, rfl, found⟩ := inductionHypothesis later
      refine ⟨c :: front, rest, rfl, fun more => ?_⟩
      rw [List.cons_append, afterClosing?_other opens ends, found]

/-- A word whose characters, the last one aside, end no member is at the front of a text that ends a
member whatever comes behind. -/
theorem isPrefixOf_append {word : List Char} (ends : Ends text) (filled : text ≠ [])
    (apart : word.dropLast.any endsMember = false) (more : List Char) :
    word.isPrefixOf (text ++ more) = word.isPrefixOf text := by
  rw [Bool.eq_iff_iff, List.isPrefixOf_iff_prefix, List.isPrefixOf_iff_prefix]
  refine ⟨fun within => ?_, fun within => within.trans (List.prefix_append text more)⟩
  rcases List.prefix_or_prefix_of_prefix within (List.prefix_append text more) with inside | beyond
  · exact inside
  · -- A longer word would hold the character that ends the text before its own last one.
    obtain ⟨tail, rfl⟩ := beyond
    cases tail with
    | nil => simp
    | cons c tail =>
      obtain ⟨last, member, isLast⟩ := ends.exists_mem filled
      have early : last ∈ (text ++ c :: tail).dropLast := by
        rw [List.dropLast_append_cons]
        exact List.mem_append_left _ member
      exact absurd isLast (List.any_eq_false.mp apart last early)

private theorem continuesDeclaration_append (ends : Ends text) (filled : text ≠ [])
    (more : List Char) :
    continuesDeclaration (text ++ more) = continuesDeclaration text := by
  have visible := trimFront_ne_nil (ends.visible filled)
  have whole : text.takeWhile isBlank ++ trimFront text = text := List.takeWhile_append_dropWhile
  have visibleEnds : Ends (trimFront text) := (whole.symm ▸ ends).suffix
  have words : ∀ word ∈ [['{'], [';'], "throws".toList, "default".toList],
      word.dropLast.any endsMember = false := by decide +kernel
  rw [continuesDeclaration, continuesDeclaration, trimFront_append ends filled more]
  apply Bool.eq_iff_iff.mpr
  simp only [List.any_eq_true]
  refine exists_congr fun word => and_congr_right fun listed => ?_
  rw [isPrefixOf_append visibleEnds visible (words word listed)]

/-! ### Methods -/

/-- Behind members passed before, a call declares what it declares without them. -/
theorem Call.method?_after (ends : Ends passed)
    (opened : ∀ earlier, trimFront call.behind = ')' :: earlier → '(' ∈ earlier) :
    (call.after passed).method? = call.method? := by
  rw [method?, method?, after, (ends.fenced _).admitsDeclaration opened fun _ => ends]

/-- A call whose list of parameters is closed within its own members declares the same with more
text behind them. -/
theorem Call.method?_before (ends : Ends call.ahead)
    (closes : call.ahead.count '(' + 0 < call.ahead.count ')') (more : List Char) :
    (call.before more).method? = call.method? := by
  obtain ⟨front, rest, whole, found⟩ := afterClosing?_of_count closes
  have listEnds : Ends (')' :: rest) := (whole ▸ ends).suffix
  have filled : rest ≠ [] := by
    rintro rfl
    exact absurd (listEnds ')' rfl) (by decide)
  have here : afterClosing? 0 call.ahead = some rest := by rw [whole, found]
  have there : afterClosing? 0 (call.ahead ++ more) = some (rest ++ more) := by
    rw [whole, List.append_assoc, List.cons_append, found]
  simp only [method?, before, here, there, continuesDeclaration_append listEnds.tail filled more]

/-- A call in whole members declares what it declares there, whatever comes behind them. -/
theorem Whole.method?_before (whole : Whole text) (member : call ∈ calls text) (more : List Char) :
    (call.before more).method? = call.method? := by
  obtain ⟨front, between, -, -, -, same⟩ := callsFrom_place member
  have parted : text = (front ++ call.name ++ between) ++ ['('] ++ call.ahead := by simp [same]
  have ends : Ends call.ahead := (parted ▸ whole.ends).suffix
  have opened := whole.nested (front ++ call.name ++ between) ⟨'(' :: call.ahead, by simp [same]⟩
  have closed := whole.closed
  refine call.method?_before ends ?_ more
  rw [parted] at closed
  simp at closed opened
  omega

/-- A call in a text that opens a parenthesis first declares what it declares there behind members
passed before. -/
theorem OpensFirst.method?_after (opens : OpensFirst text) (member : call ∈ calls text)
    (ends : Ends passed) : (call.after passed).method? = call.method? := by
  obtain ⟨front, between, behind, -, -, same⟩ := callsFrom_place member
  rw [List.append_nil] at behind
  exact call.method?_after ends fun _ shown => opens.found ⟨_, same.symm⟩ (behind ▸ shown)

/-- The names of the methods that some calls declare, in order. -/
def methodsOf (calls : List Call) : Except Fault (List (List Char)) := do
  let methods ← calls.mapM Call.method?
  return methods.filterMap id

/-- The methods of two rows of calls are those of the one and those of the other. -/
theorem methodsOf_append (first later : List Call) : methodsOf (first ++ later) = do
    let own ← methodsOf first
    let others ← methodsOf later
    return own ++ others := by
  rw [methodsOf, methodsOf, methodsOf, List.mapM_append]
  cases first.mapM Call.method? with
  | error => rfl
  | ok own =>
    cases later.mapM Call.method? with
    | error => rfl
    | ok others => exact congrArg Except.ok List.filterMap_append

/-- Calls declare the same at another place if each of them does. -/
theorem methodsOf_map {place : Call → Call} {calls : List Call}
    (same : ∀ call ∈ calls, (place call).method? = call.method?) :
    methodsOf (calls.map place) = methodsOf calls := by
  have computed : calls.mapM (Call.method? ∘ place) = calls.mapM Call.method? :=
    Fault.mapM_congr same
  rw [methodsOf, methodsOf, List.mapM_map, computed]

/-- The methods of whole members and of what stands behind them are those of the one and those of
the other. -/
theorem methodsIn_append (whole : Whole text) (opens : OpensFirst more) :
    methodsIn (text ++ more) = do
      let first ← methodsIn text
      let later ← methodsIn more
      return first ++ later := by
  have here : methodsOf ((calls text).map (Call.before more)) = methodsIn text :=
    methodsOf_map fun _ member => whole.method?_before member more
  have there : methodsOf ((calls more).map (Call.after text)) = methodsIn more :=
    methodsOf_map fun _ member => opens.method?_after member whole.ends
  have parted : methodsIn (text ++ more) = methodsOf (calls (text ++ more)) := rfl
  rw [parted, calls_append whole.ends.apart, methodsOf_append, here, there]

private theorem opensFirst_flatten {members : List (List Char)}
    (whole : ∀ member ∈ members, Whole member)
    (opens : OpensFirst rest) : OpensFirst (members.flatten ++ rest) := by
  induction members with
  | nil => exact opens
  | cons member members inductionHypothesis =>
    obtain ⟨first, others⟩ := List.forall_mem_cons.mp whole
    rw [List.flatten_cons, List.append_assoc]
    exact first.opensFirst_append (inductionHypothesis others)

/-- The methods of a row of whole members and of what stands behind them are those of each member,
one member after the other, and those behind them. -/
theorem methodsIn_flatten {members : List (List Char)} (whole : ∀ member ∈ members, Whole member)
    (opens : OpensFirst rest) : methodsIn (members.flatten ++ rest) = do
      let own ← members.mapM methodsIn
      let later ← methodsIn rest
      return own.flatten ++ later := by
  induction members with
  | nil =>
    rw [List.flatten_nil, List.nil_append, List.mapM_nil]
    cases methodsIn rest <;> rfl
  | cons member members inductionHypothesis =>
    obtain ⟨first, others⟩ := List.forall_mem_cons.mp whole
    rw [List.flatten_cons, List.append_assoc,
      methodsIn_append first (opensFirst_flatten others opens), inductionHypothesis others,
      List.mapM_cons]
    cases methodsIn member with
    | error => rfl
    | ok list =>
      cases members.mapM methodsIn with
      | error => rfl
      | ok lists =>
        cases methodsIn rest with
        | error => rfl
        | ok later => simp [bind, pure, Except.bind, Except.pure]

/-- All of a body declares members, except in an enumeration. -/
theorem methods_eq {declaration : Declaration} (free : declaration.keyword ≠ .enumWord)
    (body : List Char) : TypeBody.methods ⟨declaration, body⟩ = methodsIn body := by
  rw [TypeBody.methods, TypeBody.members]
  split
  · contradiction
  · rfl

/-- A type that is no enumeration declares with whole members in front of a body the methods of the
members and then those of the body. So each member of a row contributes its own methods in its own
place, and a fault only where it has one itself. -/
theorem members_contribute_their_own_methods {declaration : Declaration}
    (free : declaration.keyword ≠ .enumWord) :
    (∀ members body : List Char, Whole members → Nested body →
      TypeBody.methods ⟨declaration, members ++ body⟩ = do
        let own ← TypeBody.methods ⟨declaration, members⟩
        let others ← TypeBody.methods ⟨declaration, body⟩
        return own ++ others) ∧
    ∀ (row : List (List Char)) (body : List Char), (∀ member ∈ row, Whole member) → Nested body →
      TypeBody.methods ⟨declaration, row.flatten ++ body⟩ = do
        let own ← row.mapM fun member => TypeBody.methods ⟨declaration, member⟩
        let others ← TypeBody.methods ⟨declaration, body⟩
        return own.flatten ++ others := by
  simp only [methods_eq free]
  exact ⟨fun _ _ whole nested => methodsIn_append whole nested.opensFirst,
    fun _ _ whole nested => methodsIn_flatten whole nested.opensFirst⟩

/-- A field with an annotation, and a method whose list of parameters holds another. -/
def annotatedMembers : List (List Char) :=
  ["@Min(1) int total;".toList, " void add(@Max((9)) int amount) \x7b\x7d".toList]

/-- A method with an annotation, and the start of a call that is not closed. -/
def annotatedRest : List Char :=
  " @Test(expected = Failure) int sum() throws Failure; int last = sum(".toList

/-- A field and a method with annotations contribute what they declare, before a text that leaves a
list open. -/
theorem annotated_members_contribute : ∃ declaration : Declaration,
    declaration.keyword ≠ .enumWord ∧ Whole annotatedMembers.flatten ∧
      (∀ member ∈ annotatedMembers, Whole member) ∧ Nested annotatedRest ∧
      (annotatedMembers.mapM fun member => TypeBody.methods ⟨declaration, member⟩) =
        .ok [[], ["add".toList]] ∧
      TypeBody.methods ⟨declaration, annotatedMembers.flatten⟩ = .ok ["add".toList] ∧
      TypeBody.methods ⟨declaration, annotatedRest⟩ = .ok ["sum".toList] ∧
      TypeBody.methods ⟨declaration, annotatedMembers.flatten ++ annotatedRest⟩ =
        .ok ["add".toList, "sum".toList] := by
  let declaration : Declaration := ⟨.classWord, "Ledger".toList⟩
  have free : declaration.keyword ≠ .enumWord := by decide
  have each : ∀ member ∈ annotatedMembers, Whole member := by decide +kernel
  have whole : Whole annotatedMembers.flatten := by decide +kernel
  have nested : Nested annotatedRest := by decide +kernel
  have own : TypeBody.methods ⟨declaration, annotatedMembers.flatten⟩ = .ok ["add".toList] := by
    decide +kernel
  have others : TypeBody.methods ⟨declaration, annotatedRest⟩ = .ok ["sum".toList] := by
    decide +kernel
  have lists : (annotatedMembers.mapM fun member => TypeBody.methods ⟨declaration, member⟩) =
      .ok [[], ["add".toList]] := by
    decide +kernel
  have composed := (members_contribute_their_own_methods free).1 _ _ whole nested
  rw [own, others] at composed
  exact ⟨declaration, free, whole, each, nested, lists, own, others, composed⟩

end CodeCensus.Source
