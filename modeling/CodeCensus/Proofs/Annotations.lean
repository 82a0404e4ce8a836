import CodeCensus.Proofs.Signatures

/-!
# Annotations in front of members

An annotation is no method, and what it holds in its list is none either, unless it is written like
one. Calls of the member behind it look back no further than to the member's first word. That word
itself looks back on the annotation: if the member begins with its name, as a constructor does, the
annotation is taken for the end of a type only where its last list in parentheses belongs to an
annotation. Behind a marker, and behind arguments that end in any other list, the name is lost.
-/

namespace CodeCensus.Source

open CodeCensus.Text

/-- The arguments of an annotation: their parentheses are nested and closed, and they hold no brace
and no semicolon. -/
structure Arguments where
  text : List Char
  paired : Paired text
  free : '{' ∉ text ∧ '}' ∉ text ∧ ';' ∉ text

/-- An annotation, with arguments or without. -/
inductive Note
  | marker (name : Identifier)
  | list (name : Identifier) (arguments : Arguments)

namespace Note

/-- The annotation with the blank behind it. -/
def text : Note → List Char
  | .marker name => '@' :: (name.text ++ [' '])
  | .list name arguments => '@' :: (name.text ++ '(' :: (arguments.text ++ [')', ' ']))

/-- Nothing in the arguments reads as a method: where a name with its list in parentheses is followed
there by a word that goes on a method behind its parameters, the name may not be declared. -/
def Quiet : Note → Prop
  | .marker _ => True
  | .list name arguments =>
    ∀ front more method, arguments.text = front ++ more → Signature method more →
      admitsDeclaration ('@' :: (name.text ++ '(' :: front)).reverse ≠ .ok true

/-- Behind the annotation a name is not taken for a declared one: the annotation is a marker, or the
last list in its arguments belongs to no annotation. -/
def Hides : Note → Prop
  | .marker _ => True
  | .list _ arguments => ∃ front inner, arguments.text = front ++ '(' :: inner ∧ '(' ∉ inner ∧
      ¬NamesNote front

end Note

variable {c : Char} {text more rest behind front inner name word : List Char}
  {names : List (List Char)} {method? : Option (List Char)} {admitted : Bool} {call : Call}
  {note : Note}

/-! ### Looking back on an annotation -/

/-- An opening parenthesis parts a word from what names an annotation before it. -/
theorem namesNote_behind : NamesNote (text ++ '(' :: front) ↔ NamesNote front := by
  constructor
  · rintro ⟨before, word, blanks, same, filled, letters, blank⟩
    have later : '(' ∉ '@' :: (word ++ blanks) := by
      intro member
      rcases List.mem_append.mp ((List.mem_cons.mp member).resolve_left (by decide)) with
        inWord | inBlanks
      · exact absurd (letters _ inWord) (by decide +kernel)
      · exact absurd (blank _ inBlanks) (by decide)
    rcases List.append_eq_append_iff.mp same with ⟨middle, rfl, split⟩ | ⟨middle, rfl, split⟩
    · cases middle with
      | nil => exact absurd (by rw [← List.nil_append ('@' :: _), ← split]; simp) later
      | cons c middle =>
        obtain ⟨rfl, rfl⟩ := List.cons.inj split
        exact ⟨middle, word, blanks, rfl, filled, letters, blank⟩
    · exact absurd (by rw [split]; simp) later
  · rintro ⟨before, word, blanks, rfl, filled, letters, blank⟩
    exact ⟨text ++ '(' :: before, word, blanks, by simp, filled, letters, blank⟩

private theorem namesNote_identifier (identifier : Identifier) :
    NamesNote ('@' :: identifier.text) := by
  exact ⟨[], identifier.text, [], by simp, identifier.text_ne_nil, identifier.letters, by simp⟩

/-- Behind a list in parentheses, a name may be declared exactly if the list belongs to an
annotation. -/
theorem admits_behind_list (last : '(' ∉ inner)
    (told : admitsDeclaration (front ++ '(' :: (inner ++ [')', ' '])).reverse = .ok admitted) :
    admitted = true ↔ NamesNote front := by
  have turned : (front ++ '(' :: (inner ++ [')', ' '])).reverse =
      ' ' :: ')' :: (inner.reverse ++ '(' :: front.reverse) := by
    simp
  have trimmed : trimFront (front ++ '(' :: (inner ++ [')', ' '])).reverse =
      ')' :: (inner.reverse ++ '(' :: front.reverse) := by
    rw [turned]
    exact dropWhile_eq_iff.mpr ⟨[' '], rfl, List.all_eq_true.mp (by decide), by
      rintro c ⟨⟩
      decide⟩
  have opening : (inner.reverse ++ '(' :: front.reverse).dropWhile (· != '(') =
      '(' :: front.reverse := by
    refine dropWhile_eq_iff.mpr ⟨inner.reverse, rfl, fun c member => ?_, by simp⟩
    rw [bne_iff_ne]
    rintro rfl
    exact last (List.mem_reverse.mp member)
  rw [admitsDeclaration, trimmed] at told
  simp only [Char.reduceEq, or_self, if_false, if_true, opening] at told
  rw [lastWord_marked told, List.reverse_reverse]

/-- Behind a marker no name may be declared. -/
theorem admits_behind_marker (identifier : Identifier) :
    admitsDeclaration ('@' :: (identifier.text ++ [' '])).reverse = .ok false := by
  have turned : ('@' :: (identifier.text ++ [' '])).reverse =
      ' ' :: (identifier.text.reverse ++ ['@']) := by
    simp
  have filled := identifier.text_ne_nil
  have shown : trimFront (' ' :: (identifier.text.reverse ++ ['@'])) =
      identifier.text.reverse ++ ['@'] :=
    dropWhile_eq_iff.mpr ⟨[' '], rfl, List.all_eq_true.mp (by decide),
      visible_of_letters (List.reverse_ne_nil_iff.mpr filled)
        (by simpa using identifier.letters) ['@']⟩
  have plain : Plain (' ' :: (identifier.text.reverse ++ ['@'])) :=
    (by decide : Plain [' ']).append
      ((plain_reverse.mpr identifier.plain).append (by decide : Plain ['@']))
  have stops : ∀ c, ['@'].head? = some c → isWordLetter c = false := by
    rintro c ⟨⟩
    decide +kernel
  rw [turned, admits_behind_word plain shown filled identifier.letters stops]
  simp

private theorem exists_last (member : c ∈ text) :
    ∃ front inner, text = front ++ c :: inner ∧ c ∉ inner := by
  obtain ⟨inner, front, same, absent⟩ := List.eq_append_cons_of_mem (List.mem_reverse.mpr member)
  refine ⟨front.reverse, inner.reverse, ?_, by simpa using absent⟩
  rw [← List.reverse_reverse text, same]
  simp

private theorem last_unique {earlier later : List Char}
    (same : front ++ c :: inner = earlier ++ c :: later)
    (last : c ∉ inner) (otherLast : c ∉ later) : front = earlier := by
  rcases List.append_eq_append_iff.mp same with ⟨middle, rfl, split⟩ | ⟨middle, rfl, split⟩
  · cases middle with
    | nil => simp
    | cons d middle =>
      obtain ⟨rfl, rfl⟩ := List.cons.inj split
      exact absurd (by simp) last
  · cases middle with
    | nil => simp
    | cons d middle =>
      obtain ⟨rfl, rfl⟩ := List.cons.inj split
      exact absurd (by simp) otherLast

/-- A name right behind an annotation may be declared exactly if the annotation does not hide it. -/
theorem Note.admits (note : Note) (told : admitsDeclaration note.text.reverse = .ok admitted) :
    admitted = true ↔ ¬note.Hides := by
  cases note with
  | marker name =>
    rw [text, admits_behind_marker name] at told
    simp [Hides, ← Except.ok.inj told]
  | list name arguments =>
    by_cases nested : '(' ∈ arguments.text
    · obtain ⟨front, inner, split, last⟩ := exists_last nested
      have whole : text (.list name arguments) =
          ('@' :: name.text ++ '(' :: front) ++ '(' :: (inner ++ [')', ' ']) := by
        simp [text, split]
      rw [whole] at told
      rw [admits_behind_list last told, namesNote_behind]
      constructor
      · rintro found ⟨earlier, later, same, otherLast, hidden⟩
        rw [last_unique (split.symm.trans same) last otherLast] at found
        exact hidden found
      · intro shown
        by_contra hidden
        exact shown ⟨front, inner, split, last, hidden⟩
    · have whole : text (.list name arguments) =
          '@' :: name.text ++ '(' :: (arguments.text ++ [')', ' ']) := by
        simp [text]
      rw [whole] at told
      rw [admits_behind_list nested told]
      refine iff_of_true (namesNote_identifier name) ?_
      rintro ⟨front, inner, same, -⟩
      exact nested (by simp [same])

/-! ### The calls of an annotation -/

/-- What stands behind the parenthesis that closes a list continues no declaration in the list. -/
theorem continuesDeclaration_closing (text more : List Char) :
    continuesDeclaration (text ++ ')' :: more) = continuesDeclaration text := by
  have unclosed : ∀ word ∈ [['{'], [';'], "throws".toList, "default".toList], ')' ∉ word := by
    decide
  rw [Bool.eq_iff_iff, continuesDeclaration_border (by decide)]
  simp only [continuesDeclaration, List.any_eq_true, List.isPrefixOf_iff_prefix]
  exact exists_congr fun word => and_congr_right fun listed =>
    prefix_append_iff (unclosed word listed)

/-- A call in the arguments of an annotation is closed there, and only what stands behind it there can
make it a method. -/
theorem Arguments.silent {arguments : Arguments}
    (quiet : ∀ front more method, arguments.text = front ++ more → Signature method more →
      admitsDeclaration (front.reverse ++ behind) ≠ .ok true)
    (member : call ∈ callsFrom behind 0 arguments.text)
    (told : (call.before (')' :: more)).method? = .ok method?) : method? = none := by
  obtain ⟨front, gap, before, isName, blank, whole⟩ := callsFrom_place member
  have closes : call.ahead.count '(' + 0 < call.ahead.count ')' := by
    have opened := arguments.paired.nested (front ++ call.name ++ gap)
      ⟨'(' :: call.ahead, by simp [whole]⟩
    have closed := arguments.paired.closed
    rw [whole] at closed
    simp at closed opened
    omega
  obtain ⟨list, after, split, found⟩ := afterClosing?_of_count closes
  cases method? with
  | none => rfl
  | some name =>
    obtain ⟨rfl, free, admits, ends⟩ := Call.method?_eq_some.mp told
    obtain ⟨rest, closing, continued⟩ := endsSignature_iff.mp ends
    have here : afterClosing? 0 (call.ahead ++ ')' :: more) = some (after ++ ')' :: more) := by
      rw [split]
      simpa using found (after ++ ')' :: more)
    obtain rfl : after ++ ')' :: more = rest := Option.some.inj (here.symm.trans closing)
    rw [continuesDeclaration_closing] at continued
    have within : EndsSignature call.ahead :=
      endsSignature_iff.mpr ⟨after, split ▸ found after, continued⟩
    exact absurd (before ▸ admits)
      (quiet front _ call.name whole ⟨gap, call.ahead, rfl, isName, free, blank, within⟩)

private theorem calls_list (name : Identifier) (arguments : Arguments) :
    calls (Note.text (.list name arguments)) =
      ⟨['@'], name.text, arguments.text ++ [')', ' ']⟩ ::
        (callsFrom ('(' :: (name.text.reverse ++ ['@'])) 0 arguments.text).map
          (Call.before [')', ' ']) := by
  have atSign : ∀ c ∈ ['@'], isNameStart c = false := none_passes (by decide)
  have opening : ∀ c ∈ ['('], isNameStart c = false := none_passes (by decide)
  have ending : ∀ c ∈ [')', ' '], isNameStart c = false := none_passes (by decide)
  have stops : ∀ c, ('(' :: (arguments.text ++ [')', ' '])).head? = some c →
      isNamePart c = false := by
    rintro c ⟨⟩
    decide +kernel
  have opens : callHere? ['@'] name.text ('(' :: (arguments.text ++ [')', ' '])) =
      some ⟨['@'], name.text, arguments.text ++ [')', ' ']⟩ :=
    callHere?_eq_some.mpr ⟨rfl, rfl, List.dropWhile_cons_of_neg (by decide)⟩
  have apart : Apart arguments.text [')', ' '] := by
    refine ⟨fun c d _ first => .inr ?_, .inl (by decide)⟩
    obtain rfl : ')' = d := by simpa using first
    decide +kernel
  have nothing : ∀ behind, callsFrom behind 0 [')', ' '] = [] := fun behind =>
    (callsFrom_passed ending behind []).trans rfl
  rw [calls, Note.text, ← List.singleton_append, callsFrom_passed atSign,
    callsFrom_name name.isName stops]
  have inside := callsFrom_passed opening (name.text.reverse ++ ['@'])
    (arguments.text ++ [')', ' '])
  rw [List.singleton_append] at inside
  have listed := callsFrom_append apart (Nat.zero_le _) ('(' :: (name.text.reverse ++ ['@']))
  rw [nothing, List.append_nil] at listed
  exact congrArg₂ (fun here later => Option.toList here ++ later) opens (inside.trans listed)

/-- An annotation declares nothing, whatever stands behind it, if its arguments are quiet. -/
theorem Note.silent (quiet : note.Quiet) (member : call ∈ calls note.text)
    (told : (call.before more).method? = .ok method?) : method? = none := by
  cases note with
  | marker name =>
    obtain ⟨front, gap, -, -, -, whole⟩ := callsFrom_place member
    have closed : '(' ∉ text (.marker name) := by
      have inName : '(' ∉ name.text := name.not_mem (by decide +kernel)
      simp [text, inName]
    exact absurd (by simp [whole]) closed
  | list name arguments =>
    rw [calls_list] at member
    rcases List.mem_cons.mp member with rfl | inside
    · have refused : Call.method? ⟨['@'], name.text, (arguments.text ++ [')', ' ']) ++ more⟩ =
          .ok none := Call.method?_refused (by rfl)
      exact Except.ok.inj (told.symm.trans refused)
    · obtain ⟨inner, listed, rfl⟩ := List.mem_map.mp inside
      have closed : (inner.before (')' :: ' ' :: more)).method? = .ok method? := by
        simpa [Call.before] using told
      refine Arguments.silent (fun front more method split signature => ?_) listed closed
      simpa using quiet front more method split signature

/-! ### The member behind an annotation -/

private theorem Note.last (note : Note) : note.text.getLast? = some ' ' := by
  cases note <;> simp [text, List.getLast?_cons, List.getLast?_append]

private theorem Note.apart (note : Note) (isName : IsName word) (rest : List Char) :
    Apart note.text (word ++ rest) := by
  refine apart_of_isName isName rest fun c last => ?_
  obtain rfl : ' ' = c := Option.some.inj (note.last.symm.trans last)
  decide +kernel

/-- A call that does not begin the member looks back no further than to the first word of the
member. -/
theorem Note.method?_later (note : Note) (isName : IsName word)
    (opens : OpensFirst (word ++ rest)) (member : call ∈ calls (word ++ rest))
    (later : call.behind ≠ []) : (call.after note.text).method? = call.method? := by
  obtain ⟨front, gap, before, -, -, whole⟩ := callsFrom_place member
  rw [List.append_nil] at before
  have within : front <+: word ++ rest := ⟨_, whole.symm⟩
  obtain ⟨first, others, rfl, start, -⟩ := isName
  obtain ⟨c, passed, rfl⟩ : ∃ c passed, front = c :: passed :=
    List.exists_cons_of_ne_nil fun nothing => later (by simp [before, nothing])
  obtain rfl : first = c := (List.cons.inj whole).1
  have begins : call.behind.getLast? = some first := by simp [before]
  have visible : isBlank first = false := isBlank_of_isNameStart start
  have fenced : Fenced note.text call.behind := by
    refine ⟨fun c last => ?_, .inr ⟨first, begins, visible, ?_⟩⟩
    · obtain rfl : ' ' = c := Option.some.inj (note.last.symm.trans last)
      decide +kernel
    · rintro rfl
      exact absurd start (by decide)
  have shown : trimFront call.behind ≠ [] :=
    trimFront_ne_nil ⟨first, List.mem_of_getLast? begins, visible⟩
  have same := fenced.admitsDeclaration (fun _ closing => opens.found within (before ▸ closing))
    fun nothing => absurd nothing shown
  rw [Call.method?, Call.method?, Call.after, same]

/-- Behind a quiet annotation a member declares what the calls in it declare there. -/
theorem Note.methodsOf_member (quiet : note.Quiet) (isName : IsName word)
    (found : methodsIn (note.text ++ (word ++ rest)) = .ok names) :
    methodsOf ((calls (word ++ rest)).map (Call.after note.text)) = .ok names := by
  have parted : methodsOf (calls (note.text ++ (word ++ rest))) = .ok names := found
  rw [calls_append (note.apart isName rest), methodsOf_append] at parted
  obtain ⟨own, ended, later⟩ := Fault.bind_eq_ok.mp parted
  obtain ⟨others, same, joined⟩ := Fault.bind_eq_ok.mp later
  have silent : methodsOf ((calls note.text).map (Call.before (word ++ rest))) = .ok [] := by
    refine methodsOf_eq_nil.mpr fun call member => ?_
    obtain ⟨method?, told⟩ := methodsOf_told ended member
    obtain ⟨inner, listed, rfl⟩ := List.mem_map.mp member
    rw [told, Note.silent quiet listed told]
  obtain rfl : own = [] := Except.ok.inj (ended.symm.trans silent)
  exact same.trans joined

/-- Before a name that begins a method, an annotation that hides it takes this one method away. -/
theorem Note.methodsIn_hidden (quiet : note.Quiet) (hides : note.Hides)
    (isName : IsName word) (opens : OpensFirst (word ++ rest))
    (signature : Signature name (word ++ rest))
    (found : methodsIn (note.text ++ (word ++ rest)) = .ok names) :
    methodsIn (word ++ rest) = .ok (name :: names) := by
  have told := methodsOf_member quiet isName found
  obtain ⟨ahead, more, ends, listed⟩ := signature.callsFrom []
  obtain ⟨gap, tail, -, ⟨first, letters, spelled, -⟩, free, -⟩ := signature
  have all : calls (word ++ rest) =
      ⟨[], name, ahead⟩ :: callsFrom (name.reverse ++ []) 0 more := listed
  rw [all, List.map_cons] at told
  have declared : Call.method? ⟨[], name, ahead⟩ = .ok (some name) :=
    Call.method?_eq_some.mpr ⟨rfl, free, rfl, ends⟩
  have refused : (Call.after note.text ⟨[], name, ahead⟩).method? = .ok none := by
    obtain ⟨method?, answer⟩ := methodsOf_told told List.mem_cons_self
    cases method? with
    | none => exact answer
    | some name =>
      obtain ⟨-, -, admits, -⟩ := Call.method?_eq_some.mp answer
      exact absurd hides ((note.admits admits).mp rfl)
  have others : methodsOf ((callsFrom (name.reverse ++ []) 0 more).map
      (Call.after note.text)) = methodsOf (callsFrom (name.reverse ++ []) 0 more) := by
    refine methodsOf_map fun call member => ?_
    obtain ⟨front, -, before, -⟩ := callsFrom_place member
    exact note.method?_later isName opens (all ▸ List.mem_cons_of_mem _ member)
      (by simp [before, spelled])
  rw [methodsOf_cons refused, others] at told
  have here : methodsIn (word ++ rest) = methodsOf (calls (word ++ rest)) := rfl
  obtain ⟨later, same, joined⟩ := Fault.bind_eq_ok.mp told
  rw [here, all, methodsOf_cons declared, same]
  exact congrArg (fun list => Except.ok (name :: list)) (Except.ok.inj joined)

/-- Behind an annotation that hides no name of a method, each call that has an answer there declares
what it declares without the annotation. -/
theorem Note.method?_shown (isName : IsName word) (opens : OpensFirst (word ++ rest))
    (shown : ¬(note.Hides ∧ ∃ name, Signature name (word ++ rest)))
    (member : call ∈ calls (word ++ rest))
    (told : (call.after note.text).method? = .ok method?) :
    (call.after note.text).method? = call.method? := by
  by_cases first : call.behind = []
  · have open_front : admitsDeclaration call.behind = .ok true := by
      rw [first]
      rfl
    have behind : (call.after note.text).behind = note.text.reverse := by
      simp [Call.after, first]
    obtain ⟨bare?, bare⟩ := call.method?_ends open_front
    cases method? with
    | some name =>
      obtain ⟨same, free, -, ends⟩ := Call.method?_eq_some.mp told
      have here : call.method? = .ok (some name) :=
        Call.method?_eq_some.mpr ⟨same, free, open_front, ends⟩
      rw [told, here]
    | none =>
      cases bare? with
      | none => rw [told, bare]
      | some name =>
        -- The call begins the member and declares a method, so the annotation does not hide its name.
        obtain ⟨front, more, whole, before, signature, -⟩ := exists_signature member bare
        obtain rfl : front = [] := by simpa [first] using before
        obtain ⟨same, free, -, ends⟩ := Call.method?_eq_some.mp bare
        obtain ⟨admitted, admits⟩ := Call.admits_of_told told (same ▸ free)
        have open_note : admitted = true :=
          (note.admits (behind ▸ admits)).mpr fun hides => shown ⟨hides, name, whole ▸ signature⟩
        have there : (call.after note.text).method? = .ok (some name) :=
          Call.method?_eq_some.mpr ⟨same, free, open_note ▸ admits, ends⟩
        rw [told] at there
        cases there
  · exact note.method?_later isName opens member first

/-- Behind an annotation that hides no name of a method, a member declares what it declares without
it. -/
theorem Note.methodsIn_shown (quiet : note.Quiet) (isName : IsName word)
    (opens : OpensFirst (word ++ rest))
    (shown : ¬(note.Hides ∧ ∃ name, Signature name (word ++ rest)))
    (found : methodsIn (note.text ++ (word ++ rest)) = .ok names) :
    methodsIn (word ++ rest) = .ok names := by
  have told := methodsOf_member quiet isName found
  rw [← told]
  refine (methodsOf_map fun call member => ?_).symm
  obtain ⟨method?, answer⟩ := methodsOf_told told (List.mem_map_of_mem member)
  exact method?_shown isName opens shown member answer

/-- An annotation takes a declared name from the front of the member behind it where it hides it, and
nothing else, as long as looking back splits no character. -/
theorem Note.methodsIn_before_iff (quiet : note.Quiet) (isName : IsName word)
    (opens : OpensFirst (word ++ rest)) :
    methodsIn (note.text ++ (word ++ rest)) = methodsIn (word ++ rest) ↔
      (¬(note.Hides ∧ ∃ name, Signature name (word ++ rest)) ∧
        ∀ call ∈ calls (note.text ++ (word ++ rest)), ¬call.Splits) ∨
        ∃ fault, methodsIn (word ++ rest) = .error fault := by
  rw [← methodsIn_ends_iff]
  cases found : methodsIn (note.text ++ (word ++ rest)) with
  | error fault =>
    cases bare : methodsIn (word ++ rest) with
    | ok names => simp
    | error other =>
      rw [methodsIn_only _ _ found, methodsIn_only _ _ bare]
      exact iff_of_true rfl (.inr ⟨_, rfl⟩)
  | ok names =>
    by_cases hidden : note.Hides ∧ ∃ name, Signature name (word ++ rest)
    · obtain ⟨hides, name, signature⟩ := id hidden
      rw [methodsIn_hidden quiet hides isName opens signature found]
      simp [hidden]
    · rw [methodsIn_shown quiet isName opens hidden found]
      exact iff_of_true rfl (.inl ⟨hidden, names, rfl⟩)

private theorem Note.paired (note : Note) : Paired note.text := by
  have atSign : Paired ['@'] := by decide
  cases note with
  | marker name => exact atSign.append (name.paired.append (by decide : Paired [' ']))
  | list name arguments =>
    have list : text (.list name arguments) =
        ['@'] ++ (name.text ++ ('(' :: (arguments.text ++ [')']) ++ [' '])) := by
      simp [text]
    rw [list]
    exact atSign.append (name.paired.append (arguments.paired.enclosed.append
      (by decide : Paired [' '])))

/-- A member that begins with a name declares behind an annotation what it declares without it,
exactly as long as the annotation does not hide the name of a method that begins the member and
looking back over the two splits no character. Where looking back splits a character without the
annotation, it does so with the annotation as well. The arguments are quiet, as what reads as a method
in them is counted, and the member and what follows it open a parenthesis first, as a list that only
ends there is taken for that of the annotation. -/
theorem annotation_is_silent_iff {declaration : Declaration}
    (free : declaration.keyword ≠ .enumWord) {members : List Char} (whole : Whole members)
    (isName : IsName word) (opens : OpensFirst (word ++ rest)) (quiet : note.Quiet) :
    TypeBody.methods ⟨declaration, members ++ (note.text ++ (word ++ rest))⟩ =
        TypeBody.methods ⟨declaration, members ++ (word ++ rest)⟩ ↔
      (¬(note.Hides ∧ ∃ name, Signature name (word ++ rest)) ∧
        ∀ call ∈ calls (note.text ++ (word ++ rest)), ¬call.Splits) ∨ ∃ fault,
        TypeBody.methods ⟨declaration, members ++ (word ++ rest)⟩ = .error fault := by
  have annotated := note.paired.opensFirst_append opens
  rw [methods_eq free, methods_eq free, whole.methodsIn_congr annotated opens,
    Note.methodsIn_before_iff quiet isName opens, methodsIn_append whole opens]
  cases methodsIn members with
  | error fault => exact iff_of_true (.inl ⟨fault, rfl⟩) (.inr ⟨fault, rfl⟩)
  | ok own =>
    cases methodsIn (word ++ rest) with
    | error fault => exact iff_of_true (.inr (.inr ⟨fault, rfl⟩)) (.inr ⟨fault, rfl⟩)
    | ok later => simp [bind, pure, Except.bind, Except.pure]

/-- An annotation whose only argument is an annotation with a list of its own. -/
def wrapping : Note :=
  .list ⟨"Named".toList, by decide +kernel, List.all_eq_true.mp (by decide +kernel)⟩
    ⟨"defaultValue = @Kind (1)".toList, by decide +kernel, by decide⟩

/-- A constructor is counted behind an annotation that wraps another one with a list. A name in the
arguments that begins with a word of a clause does no harm. -/
theorem constructors_are_counted_behind_wrapping : ∃ (declaration : Declaration)
    (members word rest : List Char), declaration.keyword ≠ .enumWord ∧ Whole members ∧
      IsName word ∧ OpensFirst (word ++ rest) ∧ wrapping.Quiet ∧ ¬wrapping.Hides ∧
      TypeBody.methods ⟨declaration, members ++ (word ++ rest)⟩ =
        .ok ["Node".toList, "size".toList] ∧
      TypeBody.methods ⟨declaration, members ++ (wrapping.text ++ (word ++ rest))⟩ =
        .ok ["Node".toList, "size".toList] := by
  let declaration : Declaration := ⟨.classWord, "Node".toList⟩
  let members := "int depth;".toList
  let word := "Node".toList
  let rest := "(int depth) \x7b\x7d int size();".toList
  have free : declaration.keyword ≠ .enumWord := by decide
  have whole : Whole members := by decide +kernel
  have isName : IsName word := by decide +kernel
  have nested : Nested (word ++ rest) := by decide +kernel
  have split : "defaultValue = @Kind (1)".toList =
      "defaultValue = @Kind ".toList ++ '(' :: "1)".toList := by
    decide
  have quiet : wrapping.Quiet := by
    rintro front more name same ⟨gap, ahead, rfl, -, -, -, ends⟩ -
    have parted : "defaultValue = @Kind ".toList ++ '(' :: "1)".toList =
        (front ++ (name ++ gap)) ++ '(' :: ahead := by
      simpa only [List.append_assoc] using split.symm.trans same
    obtain ⟨-, -, rfl⟩ := (List.append_cons_inj_of_notMem (by decide) (by decide)).mp parted
    exact absurd ends (by decide)
  have shown : ¬wrapping.Hides := by
    rintro ⟨front, inner, same, last, hidden⟩
    obtain rfl := last_unique (same.symm.trans split) last (by decide)
    exact hidden ⟨"defaultValue = ".toList, "Kind".toList, [' '], by decide, by decide,
      List.all_eq_true.mp (by decide +kernel), List.all_eq_true.mp (by decide)⟩
  have bare : TypeBody.methods ⟨declaration, members ++ (word ++ rest)⟩ =
      .ok ["Node".toList, "size".toList] := by decide +kernel
  have plain : Plain (wrapping.text ++ (word ++ rest)) := by decide +kernel
  have same := (annotation_is_silent_iff free whole isName nested.opensFirst quiet).mpr
    (.inl ⟨fun hidden => shown hidden.1, fun call member => plain.not_splits member⟩)
  exact ⟨declaration, members, word, rest, free, whole, isName, nested.opensFirst, quiet, shown, bare,
    same.trans bare⟩

/-- A marker, and an annotation whose argument is a call. -/
def hidingNotes : List Note :=
  [.marker ⟨"Inject".toList, by decide +kernel, List.all_eq_true.mp (by decide +kernel)⟩,
    .list ⟨"Range".toList, by decide +kernel, List.all_eq_true.mp (by decide +kernel)⟩
      ⟨"max(9)".toList, by decide +kernel, by decide⟩]

/-- A constructor is not counted behind a marker, nor behind arguments that hold a call. -/
theorem annotated_constructors_are_lost : ∃ declaration : Declaration,
    declaration.keyword ≠ .enumWord ∧
      hidingNotes.map Note.text = ["@Inject ".toList, "@Range(max(9)) ".toList] ∧
      TypeBody.methods ⟨declaration, "Node(int depth) \x7b\x7d".toList⟩ = .ok ["Node".toList] ∧
      ∀ note ∈ hidingNotes, TypeBody.methods
        ⟨declaration, note.text ++ "Node(int depth) \x7b\x7d".toList⟩ = .ok [] :=
  ⟨⟨.classWord, "Node".toList⟩, by decide, by decide, by decide +kernel, by decide +kernel⟩

end CodeCensus.Source
