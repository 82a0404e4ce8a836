import CodeCensus.Proofs.Recognition
import Mathlib.Data.List.TakeWhile

/-!
# Characters cut in two

Behind the name of a call the recogniser looks for the word that ends the text, and cuts the text one
byte after the start of the character before that word. Where this character takes several bytes, the
cut goes through it, and nothing answers any more.
-/

namespace CodeCensus

namespace Source

open CodeCensus.Text

/-! ### Words and blanks -/

/-- The blanks, one by one. -/
def allBlanks : List Char :=
  [9, 10, 11, 12, 13, 32, 0x85, 0xA0, 0x1680, 0x2000, 0x2001, 0x2002, 0x2003, 0x2004, 0x2005,
    0x2006, 0x2007, 0x2008, 0x2009, 0x200A, 0x2028, 0x2029, 0x202F, 0x205F, 0x3000].map Char.ofNat

/-- All blanks are listed. -/
theorem mem_allBlanks {c : Char} (blank : isBlank c = true) : c ∈ allBlanks := by
  rw [← Char.ofNat_toNat c]
  apply List.mem_map_of_mem
  simp [isBlank, inRanges, blankRanges] at blank
  simp
  omega

/-- No blank is a letter of a word. -/
theorem isBlank_of_isWordLetter {c : Char} (letter : isWordLetter c = true) : isBlank c = false := by
  have apart : allBlanks.all (fun blank => !isWordLetter blank) = true := by decide +kernel
  cases blank : isBlank c with
  | false => rfl
  | true =>
    have noLetter := List.all_eq_true.mp apart c (mem_allBlanks blank)
    simp [letter] at noLetter

/-! ### Looking back -/

/-- The word that ends a text, blanks behind it aside, follows a character of several bytes that
belongs to no word. Where the word is empty, that character is no blank. -/
def LastWordSplits (text : List Char) : Prop :=
  ∃ before wide word blanks, text = before ++ wide :: (word ++ blanks) ∧
    isSingleByte wide = false ∧ isWordLetter wide = false ∧
    (∀ c ∈ word, isWordLetter c = true) ∧ (∀ c ∈ blanks, isBlank c = true) ∧
    (word = [] → isBlank wide = false)

/-- The character before the word that ends a text, read from right to left. -/
def beforeLastWord? (behind : List Char) : Option Char :=
  ((trimFront behind).dropWhile isWordLetter).head?

private theorem trailingWord?_only (behind : List Char) :
    Fault.Only .splitCharacter (trailingWord? behind) := by
  unfold trailingWord?
  dsimp only
  split
  · exact Fault.only_ok _
  · rintro _ ⟨⟩
    rfl

private theorem trailingWord?_faults {behind : List Char} :
    trailingWord? behind = .error .splitCharacter ↔
      ∃ wide, beforeLastWord? behind = some wide ∧ isSingleByte wide = false := by
  unfold trailingWord? beforeLastWord?
  dsimp only
  cases ((trimFront behind).dropWhile isWordLetter).head? with
  | none => simp
  | some c => cases single : isSingleByte c <;> simp [single]

/-- What is left of a text that is passed over as far as a test goes starts where the test fails. -/
theorem dropWhile_eq_iff {test : Char → Bool} {text rest : List Char} :
    text.dropWhile test = rest ↔ ∃ passed, text = passed ++ rest ∧
      (∀ c ∈ passed, test c = true) ∧ ∀ c, rest.head? = some c → test c = false := by
  constructor
  · rintro rfl
    refine ⟨text.takeWhile test, List.takeWhile_append_dropWhile.symm,
      fun c member => List.mem_takeWhile_imp member, fun c first => ?_⟩
    have stops := List.head?_dropWhile_not test text
    rw [first] at stops
    simpa using stops
  · rintro ⟨passed, rfl, each, stops⟩
    rw [List.dropWhile_append_of_pos each]
    cases rest with
    | nil => rfl
    | cons c rest => exact List.dropWhile_cons_of_neg (by simp [stops c rfl])

/-- The look back reads the text that it goes over from right to left. -/
theorem lastWordSplits_iff {behind : List Char} : LastWordSplits behind.reverse ↔
    ∃ wide, beforeLastWord? behind = some wide ∧ isSingleByte wide = false := by
  constructor
  · rintro ⟨before, wide, word, blanks, same, wideBytes, noLetter, letters, blank, apart⟩
    have turned : behind = blanks.reverse ++ (word.reverse ++ wide :: before.reverse) := by
      rw [← List.reverse_reverse behind, same]
      simp
    have trimmed : trimFront behind = word.reverse ++ wide :: before.reverse := by
      apply dropWhile_eq_iff.mpr ⟨blanks.reverse, turned, by simpa using blank, _⟩
      intro c first
      cases turnedWord : word.reverse with
      | nil =>
        obtain rfl : wide = c := by simpa [turnedWord] using first
        exact apart (List.reverse_eq_nil_iff.mp turnedWord)
      | cons other rest =>
        obtain rfl : other = c := by simpa [turnedWord] using first
        exact isBlank_of_isWordLetter
          (letters other (List.mem_reverse.mp (turnedWord ▸ List.mem_cons_self)))
    have left : (trimFront behind).dropWhile isWordLetter = wide :: before.reverse :=
      dropWhile_eq_iff.mpr ⟨word.reverse, trimmed, by simpa using letters, by simpa using noLetter⟩
    exact ⟨wide, List.head?_eq_some_iff.mpr ⟨before.reverse, left⟩, wideBytes⟩
  · rintro ⟨wide, found, wideBytes⟩
    obtain ⟨before, left⟩ := List.head?_eq_some_iff.mp found
    obtain ⟨word, trimmed, letters, noLetter⟩ := dropWhile_eq_iff.mp left
    obtain ⟨blanks, whole, blank, apart⟩ := dropWhile_eq_iff.mp trimmed
    refine ⟨before.reverse, wide, word.reverse, blanks.reverse, by simp [whole], wideBytes,
      noLetter wide rfl, by simpa using letters, by simpa using blank, ?_⟩
    intro empty
    exact apart wide (by simp [List.reverse_eq_nil_iff.mp empty])

/-! ### Calls -/

/-- Looking back from a call splits a character: from its name, or where a list in parentheses stands
before the name, from that list. -/
def LookBackSplits (text : List Char) : Prop :=
  LastWordSplits text ∨ ∃ before list blanks, text = before ++ '(' :: (list ++ ')' :: blanks) ∧
    '(' ∉ list ∧ (∀ c ∈ blanks, isBlank c = true) ∧ LastWordSplits before

/-- Looking back from a name fails by a split character only. -/
theorem admitsDeclaration_only (behind : List Char) :
    Fault.Only .splitCharacter (admitsDeclaration behind) := by
  unfold admitsDeclaration
  split
  · exact Fault.only_ok _
  · split
    · exact Fault.only_ok _
    · split
      · split
        · exact Fault.only_ok _
        · exact (trailingWord?_only _).bind fun _ _ => Fault.only_ok _
      · exact (trailingWord?_only _).bind fun _ _ => Fault.only_ok _

/-- The list in parentheses that ends a text, read from right to left. -/
theorem list_ends_iff {behind : List Char} {holds : List Char → Prop} :
    (∃ before list blanks, behind.reverse = before ++ '(' :: (list ++ ')' :: blanks) ∧
      '(' ∉ list ∧ (∀ c ∈ blanks, isBlank c = true) ∧ holds before) ↔
    ∃ rest before, trimFront behind = ')' :: rest ∧
      rest.dropWhile (· != '(') = '(' :: before ∧ holds before.reverse := by
  constructor
  · rintro ⟨before, list, blanks, same, inner, blank, held⟩
    have turned : behind = blanks.reverse ++ ')' :: (list.reverse ++ '(' :: before.reverse) := by
      rw [← List.reverse_reverse behind, same]
      simp
    have passed : ∀ c ∈ list.reverse, (c != '(') = true := by
      intro c member
      rw [bne_iff_ne]
      rintro rfl
      exact inner (List.mem_reverse.mp member)
    refine ⟨list.reverse ++ '(' :: before.reverse, before.reverse, ?_, ?_, ?_⟩
    · exact dropWhile_eq_iff.mpr ⟨blanks.reverse, turned, by simpa using blank, by simp; rfl⟩
    · exact dropWhile_eq_iff.mpr ⟨list.reverse, rfl, passed, by simp⟩
    · rwa [List.reverse_reverse]
  · rintro ⟨rest, before, trimmed, found, held⟩
    obtain ⟨blanks, whole, blank, -⟩ := dropWhile_eq_iff.mp trimmed
    obtain ⟨list, inside, passed, -⟩ := dropWhile_eq_iff.mp found
    refine ⟨before.reverse, list.reverse, blanks.reverse, by simp [whole, inside], ?_,
      by simpa using blank, held⟩
    intro member
    have other := passed '(' (List.mem_reverse.mp member)
    simp at other

/-- Looking back from a name fails exactly where it splits a character. -/
theorem admitsDeclaration_faults {behind : List Char} :
    admitsDeclaration behind = .error .splitCharacter ↔ LookBackSplits behind.reverse := by
  rw [LookBackSplits, lastWordSplits_iff, list_ends_iff]
  unfold admitsDeclaration
  cases trimmed : trimFront behind with
  | nil => simp [beforeLastWord?, trimmed]
  | cons c rest =>
    obtain ⟨-, -, -, stops⟩ := dropWhile_eq_iff.mp trimmed
    have visible : isBlank c = false := stops c rfl
    dsimp only
    split
    · next ends =>
      -- The text ends in a character of one byte that belongs to no word and closes no list.
      have first : beforeLastWord? behind = some c := by
        rw [beforeLastWord?, trimmed]
        rcases ends with rfl | rfl | rfl | rfl <;> rfl
      rcases ends with rfl | rfl | rfl | rfl <;> simp [first, isSingleByte]
    · split
      · next closes =>
        subst closes
        have first : beforeLastWord? behind = some ')' := by
          rw [beforeLastWord?, trimmed]
          rfl
        cases found : rest.dropWhile (· != '(') with
        | nil => simp [first, found, isSingleByte]
        | cons opening before =>
          obtain ⟨-, -, -, opens⟩ := dropWhile_eq_iff.mp found
          obtain rfl : opening = '(' := by simpa using opens opening rfl
          have split : (trailingWord? before).bind (fun word? => Except.ok
              (word?.any fun word => word.behind.head? == some '@')) = .error .splitCharacter ↔
              LastWordSplits before.reverse := by
            rw [Fault.bind_total_eq_error, trailingWord?_faults, lastWordSplits_iff]
          refine split.trans ?_
          simp [first, found, isSingleByte]
      · next apart noList =>
        have again : beforeLastWord? (c :: rest) = beforeLastWord? behind := by
          rw [beforeLastWord?, beforeLastWord?, trimmed, trimFront,
            List.dropWhile_cons_of_neg (by simp [visible])]
        refine Fault.bind_total_eq_error.trans ?_
        rw [trailingWord?_faults, again]
        simp [noList]

/-- The call has a name that a method may have, and looking back from it splits a character. -/
def Call.Splits (call : Call) : Prop :=
  call.name ∉ reservedNames ∧ LookBackSplits call.behind.reverse

/-- A call fails to answer by a split character only. -/
theorem Call.method?_only (call : Call) : Fault.Only .splitCharacter call.method? := by
  unfold method?
  split
  · exact Fault.only_ok _
  · apply (admitsDeclaration_only _).bind
    intro admitted _
    split
    · split <;> exact Fault.only_ok _
    · exact Fault.only_ok _

/-- A call fails to answer exactly where looking back from it splits a character. -/
theorem Call.method?_faults {call : Call} :
    call.method? = .error .splitCharacter ↔ call.Splits := by
  unfold method?
  split
  · next reserved =>
    have known : call.name ∈ reservedNames := List.contains_iff_mem.mp reserved
    simp [Splits, known]
  · next free =>
    have unknown : call.name ∉ reservedNames := fun known =>
      free (List.contains_iff_mem.mpr known)
    rw [Splits, ← admitsDeclaration_faults, and_iff_right unknown]
    refine Fault.bind_eq_error.trans (or_iff_left ?_)
    rintro ⟨admitted, -, later⟩
    split at later
    · split at later <;> cases later
    · cases later

/-- Looking for methods fails by a split character only. -/
theorem methodsIn_only (text : List Char) : Fault.Only .splitCharacter (methodsIn text) :=
  (Fault.Only.mapM fun call _ => call.method?_only).bind fun _ _ => Fault.only_ok _

/-- Looking for methods fails exactly where looking back from a call splits a character. -/
theorem methodsIn_faults {text : List Char} :
    methodsIn text = .error .splitCharacter ↔ ∃ call ∈ calls text, call.Splits := by
  refine Fault.bind_total_eq_error.trans ?_
  rw [Fault.Only.mapM_eq_error fun call _ => call.method?_only]
  simp only [Call.method?_faults]

/-- The methods of a text are found exactly if looking back from its calls splits no character. -/
theorem methodsIn_ends_iff {text : List Char} :
    (∃ names, methodsIn text = .ok names) ↔ ∀ call ∈ calls text, ¬call.Splits := by
  constructor
  · rintro ⟨names, found⟩ call member splits
    rw [methodsIn_faults.mpr ⟨call, member, splits⟩] at found
    cases found
  · intro sound
    refine (methodsIn_only text).ends.resolve_right fun faulted => ?_
    obtain ⟨call, member, splits⟩ := methodsIn_faults.mp faulted
    exact sound call member splits

/-! ### Whole texts -/

/-- Looking back from a call in some top-level type of a source text splits a character. -/
def Splits (contents : String) : Prop :=
  ∃ types, typeBodies? (blank contents.toList) = some types ∧
    ∃ type ∈ types, ∃ call ∈ calls type.members, call.Splits

private theorem TypeBody.toEntry_only (type : TypeBody) : Fault.Only .splitCharacter type.toEntry :=
  (methodsIn_only type.members).bind fun _ _ => Fault.only_ok _

private theorem TypeBody.toEntry_faults {type : TypeBody} : type.toEntry = .error .splitCharacter ↔
    ∃ call ∈ calls type.members, call.Splits :=
  Fault.bind_total_eq_error.trans methodsIn_faults

/-- The recogniser splits a character exactly in texts where looking back does. -/
theorem recognize_faults {fileName contents : String} :
    recognize fileName contents = .error .splitCharacter ↔ Splits contents := by
  unfold recognize Splits
  cases bodies : typeBodies? (blank contents.toList) with
  | none => simp
  | some types =>
    have counting : ∀ classes, Entry.sourceFile fileName classes ≠ .error .splitCharacter := by
      intro classes faulted
      rcases Fault.bind_eq_error.mp faulted with early | ⟨_, -, late⟩
      · cases Count.total_only _ _ early
      · cases late
    simp only [Option.some.injEq, exists_eq_left']
    refine Fault.bind_eq_error.trans ?_
    rw [Fault.Only.mapM_eq_error fun type _ => type.toEntry_only]
    simp only [TypeBody.toEntry_faults]
    refine or_iff_left ?_
    rintro ⟨classes, -, faulted⟩
    exact counting classes (Fault.bind_total_eq_error.mp faulted)

/-- A text where looking back splits no character is recognised or refused, unless it is longer than
a word can count. -/
theorem recognize_ends {contents : String} (fileName : String) (whole : ¬Splits contents)
    (fits : contents.utf8ByteSize < 2 ^ 63) : ∃ read, recognize fileName contents = .ok read := by
  unfold recognize
  split
  · exact ⟨none, rfl⟩
  · next types bodies =>
    have each : ∀ type ∈ types, ∃ entry, type.toEntry = .ok entry := by
      intro type member
      rcases type.toEntry_only.ends with ended | faulted
      · exact ended
      · exact absurd ⟨types, bodies, type, member, TypeBody.toEntry_faults.mp faulted⟩ whole
    obtain ⟨classes, made⟩ := Fault.mapM_ends_iff.mpr each
    have short : (blank contents.toList).length < 2 ^ 63 :=
      calc (blank contents.toList).length
        _ ≤ contents.toList.length := length_blankFrom .code contents.toList
        _ ≤ contents.utf8ByteSize := length_le_byteSize contents
        _ < 2 ^ 63 := fits
    obtain ⟨file, built⟩ := sourceFile_ends bodies made short
    exact ⟨some file, Fault.bind_eq_ok.mpr ⟨classes, made, Fault.bind_eq_ok.mpr ⟨file, built, rfl⟩⟩⟩

/-! ### Which texts are safe -/

/-- What is left of a text after blanking was there before, or stands for what was blanked. -/
theorem mem_blankFrom {region : Region} {text : List Char} {c : Char}
    (member : c ∈ blankFrom region text) : c ∈ text ∨ c ∈ [' ', '\n'] := by
  fun_induction blankFrom region text <;> grind

/-- What stands in a body was there before, or stands for the braces of a group. -/
theorem mem_splitFrom {depth : Nat} {header text body : List Char} {later : List TypeBody}
    (split : splitFrom depth header text = some (body, later)) :
    (∀ c ∈ body, c ∈ text ∨ c ∈ ['{', '}']) ∧
      ∀ type ∈ later, ∀ c ∈ type.body, c ∈ text ∨ c ∈ ['{', '}'] := by
  fun_induction splitFrom depth header text generalizing body later <;> grind

/-- What stands behind a call was passed before the text or stands in it. -/
theorem mem_callsFrom {behind text : List Char} {inName : Nat} {call : Call} {c : Char}
    (member : call ∈ callsFrom behind inName text) (before : c ∈ call.behind) :
    c ∈ behind ∨ c ∈ text := by
  fun_induction callsFrom behind inName text <;> grind

private theorem TypeBody.mem_members {type : TypeBody} {c : Char} (member : c ∈ type.members) :
    c ∈ type.body := by
  unfold members at member
  split at member
  · exact (List.dropWhile_sublist _).mem (List.mem_of_mem_tail member)
  · exact member

private theorem LastWordSplits.wide {text : List Char} (splits : LastWordSplits text) :
    ∃ c ∈ text, isSingleByte c = false ∧ isWordLetter c = false := by
  obtain ⟨before, wide, word, blanks, rfl, wideBytes, noLetter, -⟩ := splits
  exact ⟨wide, by simp, wideBytes, noLetter⟩

/-- Looking back splits no character but one of several bytes that belongs to no word. -/
theorem LookBackSplits.wide {text : List Char} (splits : LookBackSplits text) :
    ∃ c ∈ text, isSingleByte c = false ∧ isWordLetter c = false := by
  rcases splits with direct | ⟨before, list, blanks, rfl, -, -, inner⟩
  · exact direct.wide
  · obtain ⟨c, member, wide⟩ := inner.wide
    exact ⟨c, List.mem_append_left _ member, wide⟩

/-- Only a character of several bytes that belongs to no word is ever split. -/
theorem Splits.wide {contents : String} (splits : Splits contents) :
    ∃ c ∈ contents.toList, isSingleByte c = false ∧ isWordLetter c = false := by
  obtain ⟨types, bodies, type, typeMember, call, callMember, -, lookBack⟩ := splits
  obtain ⟨c, inBehind, wideBytes, noLetter⟩ : ∃ c ∈ call.behind,
      isSingleByte c = false ∧ isWordLetter c = false := by
    simpa using lookBack.wide
  have written : ∀ {signs : List Char}, signs.all isSingleByte = true → c ∉ signs := by
    intro signs single member
    rw [List.all_eq_true.mp single c member] at wideBytes
    cases wideBytes
  obtain ⟨⟨body, later⟩, split, rfl⟩ := Option.map_eq_some_iff.mp bodies
  have inMembers : c ∈ type.members := by
    rcases mem_callsFrom callMember inBehind with impossible | member
    · cases impossible
    · exact member
  have inBlanked : c ∈ blank contents.toList := by
    rcases (mem_splitFrom split).2 type typeMember c (TypeBody.mem_members inMembers) with
      member | brace
    · exact member
    · exact absurd brace (written rfl)
  refine ⟨c, ?_, wideBytes, noLetter⟩
  rcases mem_blankFrom inBlanked with member | space
  · exact member
  · exact absurd space (written rfl)

end Source

end CodeCensus
