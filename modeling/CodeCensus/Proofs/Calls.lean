import CodeCensus.Proofs.Declarations

/-!
# The calls of a text

A text is searched from left to right for names in front of a parenthesis. The search goes on behind a
name as a whole, and past anything that can open no name, so the calls of two texts that stand one
behind the other are those of the one and those of the other wherever no call lies over the border.
-/

namespace CodeCensus.Source

open CodeCensus.Text

variable {c : Char} {text more rest outer passed behind name : List Char} {inName : Nat} {call : Call}

/-! ### Spacing -/

/-- A test that none of some signs passes fails for each of them. -/
theorem none_passes {test : Char → Bool} {signs : List Char} (none_of_them : signs.any test = false) :
    ∀ c ∈ signs, test c = false := by
  simpa using List.any_eq_false.mp none_of_them

/-- The characters that space a text: blanks, tabs, ends of lines and form feeds. -/
def isSpacing (c : Char) : Bool :=
  [' ', '\t', '\n', '\r', '\x0c'].contains c

/-- What holds of each of the spacing characters. -/
theorem spacing_uniform {β : Type} {ask : Char → β} {answer : β} (space : ask ' ' = answer)
    (tab : ask '\t' = answer) (newline : ask '\n' = answer) (carriageReturn : ask '\r' = answer)
    (formFeed : ask '\x0c' = answer) (c : Char) (spacing : isSpacing c = true) : ask c = answer := by
  have cases : c = ' ' ∨ c = '\t' ∨ c = '\n' ∨ c = '\r' ∨ c = '\x0c' := by
    simpa [isSpacing] using spacing
  rcases cases with rfl | rfl | rfl | rfl | rfl <;> assumption

/-- Spacing is blank. -/
theorem isBlank_of_isSpacing : ∀ c, isSpacing c = true → isBlank c = true := by
  apply spacing_uniform <;> decide

/-- Spacing goes on no name. -/
theorem isNamePart_of_isSpacing : ∀ c, isSpacing c = true → isNamePart c = false := by
  apply spacing_uniform <;> decide +kernel

/-- Spacing begins no name. -/
theorem isNameStart_of_isSpacing : ∀ c, isSpacing c = true → isNameStart c = false := by
  apply spacing_uniform <;> decide

/-- Spacing belongs to no word. -/
theorem isWordLetter_of_isSpacing : ∀ c, isSpacing c = true → isWordLetter c = false := by
  apply spacing_uniform <;> decide +kernel

/-- Spacing takes one byte for each character. -/
theorem isSingleByte_of_isSpacing : ∀ c, isSpacing c = true → isSingleByte c = true := by
  apply spacing_uniform <;> decide

/-- Spacing separates what stands on its two sides. -/
theorem separates_of_isSpacing : ∀ c, isSpacing c = true → separates c = true := by
  apply spacing_uniform <;> decide +kernel

/-- No spacing character is one of the signs that a reading looks for. -/
theorem ne_of_isSpacing (sign : Char) (solid : isSpacing sign = false) :
    ∀ c, isSpacing c = true → (c != sign) = true := by
  intro c spacing
  rw [bne_iff_ne]
  rintro rfl
  simp [solid] at spacing

/-! ### Spans -/

/-- A span that stops inside a text stops there whatever comes behind the text. -/
theorem span_append {test : Char → Bool} (stops : ∃ c ∈ text, test c = false) (more : List Char) :
    (text ++ more).takeWhile test = text.takeWhile test ∧
      (text ++ more).dropWhile test = text.dropWhile test ++ more := by
  obtain ⟨c, member, fails⟩ := stops
  induction text with
  | nil => cases member
  | cons first text inductionHypothesis =>
    cases passes : test first with
    | false => simp [passes]
    | true =>
      have later : c ∈ text := by
        rcases List.mem_cons.mp member with rfl | later
        · simp [passes] at fails
        · exact later
      simpa [passes] using inductionHypothesis later

/-- A span does not go on into a text that begins with what stops it. -/
theorem span_before {test : Char → Bool} (stops : ∀ c, outer.head? = some c → test c = false)
    (text : List Char) : (text ++ outer).takeWhile test = text.takeWhile test ∧
      (text ++ outer).dropWhile test = text.dropWhile test ++ outer := by
  induction text with
  | nil =>
    cases outer with
    | nil => exact ⟨rfl, rfl⟩
    | cons c outer => simp [stops c rfl]
  | cons first text inductionHypothesis =>
    cases passes : test first with
    | false => simp [passes]
    | true => simpa [passes] using inductionHypothesis

private theorem visible_or_blank (text : List Char) :
    (∃ c ∈ text, isBlank c = false) ∨ ∀ c ∈ text, isBlank c = true := by
  by_cases visible : ∃ c ∈ text, isBlank c = false
  · exact .inl visible
  · refine .inr fun c member => ?_
    by_contra notBlank
    exact visible ⟨c, member, by simpa using notBlank⟩

/-- Of a text with something visible, something is left after trimming. -/
theorem trimFront_ne_nil (visible : ∃ c ∈ text, isBlank c = false) : trimFront text ≠ [] := by
  obtain ⟨c, member, notBlank⟩ := visible
  intro nothing
  have blank := List.dropWhile_eq_nil_iff.mp nothing c member
  simp [notBlank] at blank

/-- What trimming two texts shows first belongs to the one, unless the other shows it too. -/
theorem trimFront_within {earlier : List Char} (shown : trimFront (text ++ rest) = c :: earlier)
    (apart : (trimFront rest).head? ≠ some c) : ∃ inner, trimFront text = c :: inner := by
  rcases visible_or_blank text with visible | blanks
  · obtain ⟨first, others, front⟩ := List.exists_cons_of_ne_nil (trimFront_ne_nil visible)
    rw [trimFront, (span_append visible rest).2, ← trimFront, front] at shown
    obtain ⟨rfl, -⟩ := List.cons.inj shown
    exact ⟨others, front⟩
  · have onward : trimFront rest = c :: earlier :=
      (List.dropWhile_append_of_pos blanks).symm.trans shown
    exact absurd (by rw [onward]; rfl) apart

/-! ### One step of the search -/

/-- The call with more text behind the text that it stands in. -/
def Call.before (more : List Char) (call : Call) : Call :=
  { call with ahead := call.ahead ++ more }

/-- The call with more text before the text that it stands in. -/
def Call.after (passed : List Char) (call : Call) : Call :=
  { call with behind := call.behind ++ passed.reverse }

/-- The call of a name with some text on both its sides, if what is behind it opens a list. -/
def callHere? (behind name after : List Char) : Option Call :=
  match trimFront after with
  | '(' :: ahead => some ⟨behind, name, ahead⟩
  | _ => none

/-- A name is a call exactly if a list opens behind it, and the call has the text on both sides. -/
theorem callHere?_eq_some : callHere? behind name rest = some call ↔
    call.behind = behind ∧ call.name = name ∧ trimFront rest = '(' :: call.ahead := by
  rw [callHere?]
  split
  · next ahead opens =>
    rw [opens, Option.some.injEq]
    constructor
    · rintro rfl
      exact ⟨rfl, rfl, rfl⟩
    · rintro ⟨rfl, rfl, same⟩
      obtain ⟨-, rfl⟩ := List.cons.inj same
      rfl
  · next closed =>
    refine iff_of_false (by simp) ?_
    rintro ⟨-, -, opens⟩
    exact closed _ opens

/-- A name is no call where no list opens behind it. -/
theorem callHere?_eq_none (closed : ∀ ahead, trimFront rest ≠ '(' :: ahead) :
    callHere? behind name rest = none :=
  Option.eq_none_iff_forall_ne_some.mpr fun call here =>
    closed call.ahead (callHere?_eq_some.mp here).2.2

private theorem callsFrom_cons (behind rest : List Char) (c : Char) :
    callsFrom behind 0 (c :: rest) =
    match nameHere? (c :: rest) with
    | none => callsFrom (c :: behind) 0 rest
    | some (name, after) =>
      (callHere? behind name after).toList ++ callsFrom (c :: behind) (name.length - 1) rest := by
  rw [callsFrom]
  cases nameHere? (c :: rest) with
  | none => rfl
  | some found =>
    obtain ⟨name, after⟩ := found
    dsimp only
    split
    · next ahead opens =>
      have here : callHere? behind name after = some ⟨behind, name, ahead⟩ :=
        callHere?_eq_some.mpr ⟨rfl, rfl, opens⟩
      rw [here]
      rfl
    · next closed =>
      rw [callHere?_eq_none closed]
      rfl

/-- What can open no name is passed over. -/
theorem callsFrom_passed (nameless : ∀ c ∈ passed, isNameStart c = false) (behind rest : List Char) :
    callsFrom behind 0 (passed ++ rest) = callsFrom (passed.reverse ++ behind) 0 rest := by
  induction passed generalizing behind with
  | nil => rfl
  | cons c passed inductionHypothesis =>
    obtain ⟨first, later⟩ := List.forall_mem_cons.mp nameless
    have none_here : nameHere? (c :: (passed ++ rest)) = none := by simp [nameHere?, first]
    rw [List.cons_append, callsFrom_cons, none_here]
    simpa using inductionHypothesis later (c :: behind)

private theorem callsFrom_inName (behind name rest : List Char) :
    callsFrom behind name.length (name ++ rest) = callsFrom (name.reverse ++ behind) 0 rest := by
  induction name generalizing behind with
  | nil => rfl
  | cons c name inductionHypothesis =>
    rw [List.length_cons, List.cons_append, callsFrom, inductionHypothesis]
    simp

/-- A name that ends where it seems to gives one call, if it gives any. -/
theorem callsFrom_name (isName : IsName name)
    (ends : ∀ c, rest.head? = some c → isNamePart c = false) (behind : List Char) :
    callsFrom behind 0 (name ++ rest) =
      (callHere? behind name rest).toList ++ callsFrom (name.reverse ++ behind) 0 rest := by
  have named := nameHere?_eq_some.mpr ⟨rfl, isName, ends⟩
  obtain ⟨first, others, rfl, -⟩ := isName
  rw [List.cons_append] at named ⊢
  rw [callsFrom_cons, named]
  have passed := callsFrom_inName (first :: behind) others rest
  simpa using passed

/-- Calls are found alike whatever was passed before. -/
theorem callsFrom_after (passed behind : List Char) (inName : Nat) (text : List Char) :
    callsFrom (behind ++ passed.reverse) inName text =
      (callsFrom behind inName text).map (Call.after passed) := by
  induction text generalizing behind inName with
  | nil => rw [callsFrom, callsFrom, List.map_nil]
  | cons c rest inductionHypothesis =>
    have onward := inductionHypothesis (c :: behind)
    rw [List.cons_append] at onward
    cases inName with
    | succ inName => rw [callsFrom, callsFrom, onward]
    | zero =>
      rw [callsFrom_cons, callsFrom_cons]
      cases nameHere? (c :: rest) with
      | none => exact onward 0
      | some found =>
        obtain ⟨name, after⟩ := found
        have here : (callHere? (behind ++ passed.reverse) name after).toList =
            (callHere? behind name after).toList.map (Call.after passed) := by
          rw [callHere?, callHere?]
          split <;> rfl
        dsimp only
        rw [here, onward, List.map_append]

/-! ### One text behind another -/

/-- No name and no call lies over the border of two texts: either the one does not end or the other
does not begin as a name goes on, and either the other does not open a list or the one ends with
what no list can follow. -/
structure Apart (text more : List Char) : Prop where
  name : ∀ c d, text.getLast? = some c → more.head? = some d →
    isNamePart c = false ∨ isNamePart d = false
  call : (trimFront more).head? ≠ some '(' ∨
    ∀ c, text.getLast? = some c → isNamePart c = false ∧ isBlank c = false

private theorem Apart.tail (apart : Apart (c :: text) more) : Apart text more := by
  have last : ∀ {d}, text.getLast? = some d → (c :: text).getLast? = some d := by
    intro d last
    simp [List.getLast?_cons, last]
  exact ⟨fun d e ends => apart.name d e (last ends),
    apart.call.imp_right fun closed d ends => closed d (last ends)⟩

/-- The name at the front of a text is found there whatever stands behind the border. -/
theorem Apart.nameHere? (apart : Apart (c :: text) more) : nameHere? (c :: (text ++ more)) =
    (Source.nameHere? (c :: text)).map fun found => (found.1, found.2 ++ more) := by
  have span : (c :: text ++ more).takeWhile isNamePart = (c :: text).takeWhile isNamePart ∧
      (c :: text ++ more).dropWhile isNamePart = (c :: text).dropWhile isNamePart ++ more := by
    by_cases stops : ∃ d ∈ c :: text, isNamePart d = false
    · exact span_append stops more
    · refine span_before (fun d first => ?_) _
      obtain ⟨last, ends⟩ : ∃ last, (c :: text).getLast? = some last :=
        ⟨_, List.getLast?_eq_some_getLast (List.cons_ne_nil c text)⟩
      refine (apart.name last d ends first).resolve_left fun noPart => stops ⟨last, ?_, noPart⟩
      exact List.mem_of_getLast? ends
  rw [List.cons_append] at span
  simp only [Source.nameHere?, span.1, span.2]
  split <;> rfl

/-- Behind a name, a list is opened on this side of the border or not at all. -/
theorem Apart.callHere? {front after : List Char} (apart : Apart text more)
    (whole : text = front ++ after) (isPart : ∀ c, front.getLast? = some c → isNamePart c = true)
    (filled : front ≠ []) (behind name : List Char) : callHere? behind name (after ++ more) =
      (Source.callHere? behind name after).map (Call.before more) := by
  rcases visible_or_blank after with visible | blanks
  · obtain ⟨first, ahead, opening⟩ := List.exists_cons_of_ne_nil (trimFront_ne_nil visible)
    have trimmed : trimFront (after ++ more) = trimFront after ++ more :=
      (span_append visible more).2
    rw [Source.callHere?, Source.callHere?, trimmed, opening]
    by_cases opens : first = '('
    · subst opens
      rfl
    · simp [opens]
  · -- All is blank as far as the border, and no list opens behind it.
    have closed : (trimFront more).head? ≠ some '(' := by
      refine apart.call.resolve_right fun ends => ?_
      rcases List.eq_nil_or_concat after with rfl | ⟨others, last, rfl⟩
      · obtain ⟨last, final⟩ : ∃ last, front.getLast? = some last :=
          ⟨_, List.getLast?_eq_some_getLast filled⟩
        have part := isPart last final
        have noPart := (ends last (by simpa [whole] using final)).1
        simp [part] at noPart
      · have noBlank := (ends last (by simp [whole])).2
        have blank := blanks last (by simp)
        simp [blank] at noBlank
    have trimmed : trimFront (after ++ more) = trimFront more :=
      List.dropWhile_append_of_pos blanks
    have nothing : trimFront after = [] := List.dropWhile_eq_nil_iff.mpr blanks
    rw [Source.callHere?, Source.callHere?, trimmed, nothing]
    split
    · next opens => exact absurd (by rw [opens]; rfl) closed
    · rfl

/-- The calls of two texts are those of the one and those of the other, if no call lies over their
border. -/
theorem callsFrom_append (apart : Apart text more) (within : inName ≤ text.length)
    (behind : List Char) : callsFrom behind inName (text ++ more) =
      (callsFrom behind inName text).map (Call.before more) ++
        callsFrom (text.reverse ++ behind) 0 more := by
  induction text generalizing behind inName with
  | nil =>
    obtain rfl : inName = 0 := Nat.le_zero.mp within
    rw [callsFrom]
    rfl
  | cons c rest inductionHypothesis =>
    have turned : (c :: rest).reverse ++ behind = rest.reverse ++ (c :: behind) := by simp
    rw [List.cons_append, turned]
    cases inName with
    | succ inName =>
      rw [callsFrom, callsFrom, inductionHypothesis apart.tail (Nat.le_of_succ_le_succ within)]
    | zero =>
      rw [callsFrom_cons, callsFrom_cons, apart.nameHere?]
      cases found : nameHere? (c :: rest) with
      | none => exact inductionHypothesis apart.tail (Nat.zero_le _) (c :: behind)
      | some pair =>
        obtain ⟨name, after⟩ := pair
        obtain ⟨whole, ⟨first, others, rfl, start, each⟩, -⟩ := nameHere?_eq_some.mp found
        have short : (first :: others).length - 1 ≤ rest.length := by
          have lengths := congrArg List.length whole
          simp only [List.length_cons, List.length_append] at lengths ⊢
          omega
        have parts : ∀ c, (first :: others).getLast? = some c → isNamePart c = true := by
          intro c last
          have every : ∀ d ∈ first :: others, isNamePart d = true :=
            List.forall_mem_cons.mpr ⟨isNamePart_of_isNameStart start, each⟩
          exact every c (List.mem_of_getLast? last)
        have opening := apart.callHere? whole parts (List.cons_ne_nil _ _) behind (first :: others)
        simp only [Option.map_some, opening, inductionHypothesis apart.tail short, List.map_append,
          List.append_assoc]
        cases callHere? behind (first :: others) after <;> rfl

/-- The calls of two texts are those of the one and those of the other, each with both texts on its
sides. -/
theorem calls_append (apart : Apart text more) : calls (text ++ more) =
    (calls text).map (Call.before more) ++ (calls more).map (Call.after text) := by
  have first := callsFrom_append apart (Nat.zero_le _) []
  have later := callsFrom_after text [] 0 more
  rw [List.append_nil] at first
  rw [List.nil_append] at later
  rw [calls, first, later, calls, calls]

/-- A call stands in its text between what lies behind it and what lies ahead of it. -/
theorem callsFrom_place (member : call ∈ callsFrom behind inName text) : ∃ front between,
    call.behind = front.reverse ++ behind ∧ IsName call.name ∧
      (∀ c ∈ between, isBlank c = true) ∧
      text = front ++ (call.name ++ (between ++ '(' :: call.ahead)) := by
  induction text generalizing behind inName with
  | nil => cases member
  | cons c rest inductionHypothesis =>
    have further : ∀ {left : Nat}, call ∈ callsFrom (c :: behind) left rest → ∃ front between,
        call.behind = front.reverse ++ behind ∧ IsName call.name ∧
          (∀ c ∈ between, isBlank c = true) ∧
          c :: rest = front ++ (call.name ++ (between ++ '(' :: call.ahead)) := by
      intro left later
      obtain ⟨front, between, before, isName, blanks, whole⟩ := inductionHypothesis later
      exact ⟨c :: front, between, by simp [before], isName, blanks, by rw [whole, List.cons_append]⟩
    cases inName with
    | succ inName => exact further member
    | zero =>
      rw [callsFrom_cons] at member
      cases found : nameHere? (c :: rest) with
      | none =>
        rw [found] at member
        exact further member
      | some pair =>
        obtain ⟨name, after⟩ := pair
        rw [found] at member
        rcases List.mem_append.mp member with here | later
        · obtain ⟨rfl, rfl, trimmed⟩ := callHere?_eq_some.mp (Option.mem_toList.mp here)
          obtain ⟨whole, isName, -⟩ := nameHere?_eq_some.mp found
          obtain ⟨between, opens, blanks, -⟩ := dropWhile_eq_iff.mp trimmed
          exact ⟨[], between, rfl, isName, blanks, by rw [whole, opens, List.nil_append]⟩
        · exact further later

end CodeCensus.Source
