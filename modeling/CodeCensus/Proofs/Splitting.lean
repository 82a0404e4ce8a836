import CodeCensus.Proofs.Braces
import CodeCensus.Proofs.Declarations
import CodeCensus.Source.Recognizer

/-!
# Top-level types and their grammar

A text is read in one pass that counts the open braces and keeps what it has of a header. It finds
the types of the blocks that the text is a row of, and finds nothing where the text is no such row.
What stands below two open braces is passed over, so any other balanced text could stand in its place.
-/

namespace CodeCensus.Source

variable {depth : Nat} {c : Char}
  {header part text front inner outer rest body shown tail : List Char}
  {later : List TypeBody} {block : Block} {blocks : List Block}

/-- A header ends with a part that follows its last semicolon, or the header has none. -/
def AfterLast (header part : List Char) : Prop :=
  ';' ∉ part ∧ (part = header ∨ ∃ front, header = front ++ ';' :: part)

/-- A body as it is shown: each of its blocks keeps the header and has an empty body. -/
def Collapses (body shown : List Char) : Prop :=
  ∃ blocks tail, Splitting body blocks tail ∧
    shown = assemble (blocks.map fun block => ⟨block.header, []⟩) tail

/-- The type that a block shows, if any: the last declaration after the last semicolon of the header,
with the body as it is shown. -/
inductive Shows (block : Block) : Option TypeBody → Prop
  | nothing {part : List Char} (after : AfterLast block.header part) (search : Search true part []) :
      Shows block none
  | type {part shown : List Char} {found : List Declaration} {declaration : Declaration}
      (after : AfterLast block.header part) (search : Search true part (found ++ [declaration]))
      (collapses : Collapses block.body shown) : Shows block (some ⟨declaration, shown⟩)

/-! ### One pass -/

/-- The pass ends well where the text closes the braces that are open. -/
theorem splitFrom_eq_none : splitFrom depth header text = none ↔ ¬Closes depth text := by
  fun_induction splitFrom depth header text <;>
    simp_all [closes_nil, closes_open, closes_close, closes_other, not_closes_close]

/-- The header is of no account where a brace is open. -/
theorem splitFrom_header (depth : Nat) (header text : List Char) :
    splitFrom (depth + 1) header text = splitFrom (depth + 1) [] text := by
  cases text with
  | nil => rfl
  | cons c text =>
    rcases brace_cases c with rfl | rfl | ⟨notOpen, notClose⟩
    · cases depth <;> rfl
    · cases depth <;> rfl
    · cases depth <;> simp [splitFrom]

/-- One character decides the depth at which the pass goes on. -/
theorem splitFrom_cons_congr {depth : Nat} {header text other : List Char}
    (same : ∀ lower header, lower + [c].count '}' = depth + [c].count '{' →
      splitFrom lower header text = splitFrom lower header other) :
    splitFrom depth header (c :: text) = splitFrom depth header (c :: other) := by
  rcases brace_cases c with rfl | rfl | ⟨notOpen, notClose⟩
  · have deeper := same (depth + 1) [] rfl
    rcases depth with _ | _ | depth <;> simp [splitFrom, deeper]
  · rcases depth with _ | _ | depth
    · rfl
    · simp [splitFrom, same 0 [] rfl]
    · simp [splitFrom, same (depth + 1) [] rfl]
  · have here := fun header => same depth header (by simp [notOpen, notClose])
    rcases depth with _ | _ | depth
    · -- Outside all braces the header goes on, or starts anew.
      by_cases isEnd : c = ';'
      · subst isEnd
        simp [splitFrom, here]
      · simp [splitFrom, here]
    · simp [splitFrom, here]
    · simp [splitFrom, here]

/-- What closes some braces is passed over as long as two more are open. -/
theorem splitFrom_skip (outside : Nat) (closes : Closes depth text) :
    splitFrom (outside + depth + 2) [] (text ++ rest) = splitFrom (outside + 2) [] rest := by
  -- The depth never falls to one inside the text, where a body or a header would be read again.
  induction text generalizing depth with
  | nil =>
    obtain rfl := closes_nil.mp closes
    rfl
  | cons c text inductionHypothesis =>
    rw [List.cons_append]
    rcases brace_cases c with rfl | rfl | ⟨notOpen, notClose⟩
    · rw [splitFrom]
      exact inductionHypothesis (closes_open.mp closes)
    · cases depth with
      | zero => exact absurd closes not_closes_close
      | succ depth =>
        rw [splitFrom]
        exact inductionHypothesis (closes_close.mp closes)
    · simp only [splitFrom]
      exact inductionHypothesis ((closes_other notOpen notClose).mp closes)

/-- A balanced text below two open braces can be replaced by any other. -/
theorem splitFrom_replace (innerBalanced : Balanced inner) (outerBalanced : Balanced outer)
    (deep : front.count '}' + 2 ≤ depth + front.count '{') :
    splitFrom depth header (front ++ (inner ++ rest)) =
      splitFrom depth header (front ++ (outer ++ rest)) := by
  induction front generalizing depth header with
  | nil =>
    obtain ⟨outside, rfl⟩ := Nat.exists_eq_add_of_le' (by simpa using deep)
    rw [splitFrom_header, splitFrom_header _ header]
    exact (splitFrom_skip outside (closes_zero.mpr innerBalanced)).trans
      (splitFrom_skip outside (closes_zero.mpr outerBalanced)).symm
  | cons c front inductionHypothesis =>
    refine splitFrom_cons_congr fun lower header reached => inductionHypothesis ?_
    rw [List.count_cons, List.count_cons] at deep
    rw [List.count_singleton, List.count_singleton] at reached
    omega

/-! ### Bodies -/

/-- A body shows the characters at its own level. -/
theorem splitFrom_braceFree (free : BraceFree front)
    (behind : splitFrom 1 [] rest = some (shown, later)) :
    splitFrom 1 [] (front ++ rest) = some (front ++ shown, later) := by
  induction front with
  | nil => exact behind
  | cons c front inductionHypothesis =>
    obtain ⟨notOpen, notClose, others⟩ := braceFree_cons.mp free
    simp [splitFrom, inductionHypothesis others]

/-- A body shows a pair of braces for what they enclose. -/
theorem splitFrom_group (balanced : Balanced inner)
    (behind : splitFrom 1 [] rest = some (shown, later)) :
    splitFrom 1 [] ('{' :: (inner ++ '}' :: rest)) = some ('{' :: '}' :: shown, later) := by
  have inside : splitFrom 2 [] (inner ++ '}' :: rest) = some (shown, later) :=
    (splitFrom_skip 0 (closes_zero.mpr balanced)).trans behind
  simp [splitFrom, inside]

/-- A body shows its blocks without their bodies, and its tail. -/
theorem splitFrom_body (collapses : Collapses body shown)
    (behind : splitFrom 0 [] rest = some ([], later)) :
    splitFrom 1 [] (body ++ '}' :: rest) = some (shown, later) := by
  obtain ⟨blocks, tail, ⟨rfl, headers, bodies, tailFree⟩, rfl⟩ := collapses
  induction blocks with
  | nil =>
    have ends : splitFrom 1 [] ('}' :: rest) = some ([], later) := behind
    simpa [assemble] using splitFrom_braceFree tailFree ends
  | cons block blocks inductionHypothesis =>
    rw [List.forall_mem_cons] at headers bodies
    have others := inductionHypothesis headers.2 bodies.2
    simpa [assemble] using splitFrom_braceFree headers.1 (splitFrom_group bodies.1 others)

/-! ### Headers -/

private theorem afterLast_iff_eq (noEnd : ';' ∉ header) :
    AfterLast header part ↔ part = header := by
  constructor
  · rintro ⟨-, rfl | ⟨front, rfl⟩⟩
    · rfl
    · simp at noEnd
  · rintro rfl
    exact ⟨noEnd, .inl rfl⟩

private theorem afterLast_append :
    AfterLast (front ++ ';' :: header) part ↔ AfterLast header part := by
  constructor
  · rintro ⟨noEnd, rfl | ⟨earlier, same⟩⟩
    · simp at noEnd
    · refine ⟨noEnd, ?_⟩
      rcases List.append_eq_append_iff.mp same with ⟨between, -, here⟩ | ⟨between, -, here⟩
      · cases between with
        | nil => exact .inl (List.cons.inj here).2.symm
        | cons c between => exact .inr ⟨between, (List.cons.inj here).2⟩
      · cases between with
        | nil => exact .inl (List.cons.inj here).2
        | cons c between =>
          obtain ⟨-, rfl⟩ := List.cons.inj here
          simp at noEnd
  · rintro ⟨noEnd, rfl | ⟨earlier, rfl⟩⟩
    · exact ⟨noEnd, .inr ⟨front, rfl⟩⟩
    · exact ⟨noEnd, .inr ⟨front ++ ';' :: earlier, by simp⟩⟩

private theorem exists_afterLast (header : List Char) : ∃ part, AfterLast header part := by
  induction header with
  | nil => exact ⟨[], by simp, .inl rfl⟩
  | cons c header inductionHypothesis =>
    obtain ⟨part, noEnd, rfl | ⟨front, rfl⟩⟩ := inductionHypothesis
    · by_cases isEnd : c = ';'
      · exact ⟨part, noEnd, .inr ⟨[], by simp [isEnd]⟩⟩
      · exact ⟨c :: part, by simp [noEnd, Ne.symm isEnd], .inl rfl⟩
    · exact ⟨part, noEnd, .inr ⟨c :: front, rfl⟩⟩

private theorem AfterLast.unique {other : List Char} (after : AfterLast header part)
    (otherwise : AfterLast header other) : other = part := by
  obtain ⟨noEnd, rfl | ⟨front, rfl⟩⟩ := after
  · exact (afterLast_iff_eq noEnd).mp otherwise
  · exact (afterLast_iff_eq noEnd).mp (afterLast_append.mp otherwise)

/-- The part after the last semicolon is kept of what was read of the header and what follows. -/
theorem splitFrom_go_on (free : BraceFree front) (noEnd : ';' ∉ header)
    (after : AfterLast (header.reverse ++ front) part) :
    splitFrom 0 header (front ++ rest) = splitFrom 0 part.reverse rest := by
  induction front generalizing header with
  | nil =>
    rw [List.append_nil, afterLast_iff_eq (by simpa using noEnd)] at after
    rw [after, List.reverse_reverse, List.nil_append]
  | cons c front inductionHypothesis =>
    obtain ⟨notOpen, notClose, others⟩ := braceFree_cons.mp free
    by_cases isEnd : c = ';'
    · subst isEnd
      have behind : splitFrom 0 [] (front ++ rest) = splitFrom 0 part.reverse rest :=
        inductionHypothesis others (by simp) (afterLast_append.mp after)
      simpa [splitFrom] using behind
    · have behind : splitFrom 0 (c :: header) (front ++ rest) = splitFrom 0 part.reverse rest :=
        inductionHypothesis others (by simp [noEnd, Ne.symm isEnd]) (by simpa using after)
      simpa [splitFrom] using behind

/-- What is kept of a header is its part after the last semicolon. -/
theorem splitFrom_part (free : BraceFree header) (after : AfterLast header part) :
    splitFrom 0 [] (header ++ rest) = splitFrom 0 part.reverse rest :=
  splitFrom_go_on free List.not_mem_nil after

/-! ### Blocks -/

/-- A balanced body is shown in one way. -/
theorem Balanced.exists_collapses (balanced : Balanced body) : ∃ shown, Collapses body shown := by
  obtain ⟨blocks, tail, splitting⟩ := balanced.splitting
  exact ⟨_, blocks, tail, splitting, rfl⟩

private theorem Collapses.unique {other : List Char} (collapses : Collapses body shown)
    (otherwise : Collapses body other) : other = shown := by
  obtain ⟨blocks, tail, splitting, rfl⟩ := collapses
  obtain ⟨others, ending, again, rfl⟩ := otherwise
  obtain ⟨rfl, rfl⟩ := splitting.unique again
  rfl

/-- A balanced block shows a type or none, and only one. -/
theorem Balanced.exists_shows (balanced : Balanced block.body) : ∃ type?, Shows block type? := by
  obtain ⟨part, after⟩ := exists_afterLast block.header
  obtain ⟨shown, collapses⟩ := balanced.exists_collapses
  rcases List.eq_nil_or_concat (declarations part) with empty | ⟨found, declaration, filled⟩
  · exact ⟨none, .nothing after (search_iff.mpr empty)⟩
  · exact ⟨some ⟨declaration, shown⟩, .type after (search_iff.mpr (by simpa using filled)) collapses⟩

private theorem Shows.unique {type? other? : Option TypeBody} (shows : Shows block type?)
    (otherwise : Shows block other?) : other? = type? := by
  cases shows with
  | nothing after search =>
    cases otherwise with
    | nothing => rfl
    | type again found =>
      obtain rfl := after.unique again
      exact absurd (search.unique found) (by simp)
  | type after search collapses =>
    cases otherwise with
    | nothing again found =>
      obtain rfl := after.unique again
      exact absurd (search.unique found) (by simp)
    | type again found collapsed =>
      obtain rfl := after.unique again
      obtain ⟨-, same⟩ := List.append_inj' (search.unique found) rfl
      rw [List.singleton_inj.mp same, collapses.unique collapsed]

/-- The last declaration kept of a header names the type of the body that opens. -/
theorem splitFrom_open (collapses : Collapses body shown)
    (behind : splitFrom 0 [] rest = some ([], later)) :
    splitFrom 0 part.reverse ('{' :: (body ++ '}' :: rest)) =
      some ([], ((declarations part).getLast?.map fun declaration =>
        ⟨declaration, shown⟩).toList ++ later) := by
  rw [splitFrom, splitFrom_body collapses behind, List.reverse_reverse, lastDeclaration?]
  cases (declarations part).getLast? <;> rfl

/-- A block adds the type that it shows, if any, to the types behind it. -/
theorem splitFrom_block {type? : Option TypeBody} (shows : Shows block type?)
    (free : BraceFree block.header) (balanced : Balanced block.body)
    (behind : splitFrom 0 [] rest = some ([], later)) :
    splitFrom 0 [] (block.header ++ '{' :: (block.body ++ '}' :: rest)) =
      some ([], type?.toList ++ later) := by
  cases shows with
  | nothing after search =>
    obtain ⟨shown, collapses⟩ := balanced.exists_collapses
    rw [splitFrom_part free after, splitFrom_open collapses behind, search_iff.mp search]
    rfl
  | type after search collapses =>
    rw [splitFrom_part free after, splitFrom_open collapses behind, search_iff.mp search,
      List.getLast?_concat]
    rfl

/-- A row of blocks is read as the types that they show. -/
theorem splitFrom_assemble {types : List (Option TypeBody)}
    (headers : ∀ block ∈ blocks, BraceFree block.header)
    (bodies : ∀ block ∈ blocks, Balanced block.body) (tailFree : BraceFree tail)
    (shows : List.Forall₂ Shows blocks types) :
    splitFrom 0 [] (assemble blocks tail) = some ([], types.filterMap id) := by
  induction shows with
  | nil =>
    obtain ⟨part, after⟩ := exists_afterLast tail
    rw [assemble, ← List.append_nil tail, splitFrom_part tailFree after, splitFrom]
    rfl
  | @cons block type? blocks types first others inductionHypothesis =>
    rw [List.forall_mem_cons] at headers bodies
    rw [assemble, splitFrom_block first headers.1 bodies.1 (inductionHypothesis headers.2 bodies.2)]
    cases type? <;> rfl

/-! ### Types -/

private theorem typeBodies?_eq_none : typeBodies? text = none ↔ ¬Balanced text := by
  rw [typeBodies?, Option.map_eq_none_iff, splitFrom_eq_none, closes_zero]

/-- The types of a text are those that its blocks show, in order. -/
theorem Splitting.exists_types (splitting : Splitting text blocks tail) :
    ∃ types, List.Forall₂ Shows blocks types ∧
      (∀ others, List.Forall₂ Shows blocks others → others = types) ∧
      typeBodies? text = some (types.filterMap id) := by
  obtain ⟨types, shows⟩ : ∃ types, List.Forall₂ Shows blocks types := by
    obtain ⟨-, -, bodies, -⟩ := splitting
    induction blocks with
    | nil => exact ⟨[], .nil⟩
    | cons block blocks inductionHypothesis =>
      rw [List.forall_mem_cons] at bodies
      obtain ⟨type?, first⟩ := bodies.1.exists_shows
      obtain ⟨types, others⟩ := inductionHypothesis bodies.2
      exact ⟨type? :: types, .cons first others⟩
  refine ⟨types, shows, fun others again => ?_, ?_⟩
  · exact Relator.RightUnique.forall₂ (fun _ _ _ here there => there.unique here) again shows
  · rw [typeBodies?, splitting.text,
      splitFrom_assemble splitting.headers splitting.bodies splitting.tail shows]
    rfl

/-- The entry of a source file is missing only where the braces of its text do not balance. -/
theorem recognize_eq_none {fileName contents : String} {read : Option Entry}
    (recognized : recognize fileName contents = .ok read) :
    read = none ↔ ¬Balanced (blank contents.toList) := by
  rw [← typeBodies?_eq_none]
  unfold recognize at recognized
  split at recognized
  · next missing =>
    obtain rfl := Except.ok.inj recognized
    simp [missing]
  · next types found =>
    obtain ⟨classes, -, rest⟩ := Fault.bind_eq_ok.mp recognized
    obtain ⟨entry, -, same⟩ := Fault.bind_eq_ok.mp rest
    obtain rfl := Except.ok.inj same
    simp [found]

/-- A text has types where its braces balance, and only there. It then is a row of headers, each
with a body in braces, and a tail in exactly one way, and its types are what the blocks show: the last
declaration behind the last semicolon of a header, with the groups in the body emptied. A balanced
text below two open braces can be replaced by any other, and the entry of the file is the same. -/
theorem types_follow_the_grammar :
    (∀ text, typeBodies? text = none ↔ ¬Balanced text) ∧
    (∀ fileName contents read, recognize fileName contents = .ok read →
      (read = none ↔ ¬Balanced (blank contents.toList))) ∧
    (∀ text, Balanced text → ∃ blocks tail, Splitting text blocks tail ∧
      (∀ others ending, Splitting text others ending → others = blocks ∧ ending = tail) ∧
      ∃ types, List.Forall₂ Shows blocks types ∧
        (∀ others, List.Forall₂ Shows blocks others → others = types) ∧
        typeBodies? text = some (types.filterMap id)) ∧
    ∀ front inner outer rest, Balanced inner → Balanced outer →
      front.count '}' + 2 ≤ front.count '{' →
      typeBodies? (front ++ (outer ++ rest)) = typeBodies? (front ++ (inner ++ rest)) ∧
      ∀ fileName contents changed, blank contents.toList = front ++ (inner ++ rest) →
        blank changed.toList = front ++ (outer ++ rest) →
        recognize fileName changed = recognize fileName contents := by
  refine ⟨fun _ => typeBodies?_eq_none, fun _ _ _ => recognize_eq_none, fun text balanced => ?_, ?_⟩
  · obtain ⟨blocks, tail, splitting⟩ := balanced.splitting
    exact ⟨blocks, tail, splitting, fun _ _ => splitting.unique, splitting.exists_types⟩
  · intro front inner outer rest innerBalanced outerBalanced deep
    have same : typeBodies? (front ++ (outer ++ rest)) = typeBodies? (front ++ (inner ++ rest)) := by
      rw [typeBodies?, typeBodies?, splitFrom_replace outerBalanced innerBalanced (by simpa using deep)]
    refine ⟨same, fun fileName contents changed before after => ?_⟩
    rw [recognize, recognize, before, after, same]

/-- A class with one method of the given body. -/
def methodText (body : String) : String :=
  "import p; class A \x7b void f() \x7b" ++ body ++ "\x7d \x7d"

/-- A class can stand in the body of a method without a trace; the brace that closes the outer class
can not be left out. -/
theorem classes_in_methods_are_passed_over :
    (∃ read, recognize "A.java" (methodText "") = .ok read ∧ read ≠ none ∧
      Balanced (blank (methodText "").toList)) ∧
    (∃ blocks tail types, Splitting (methodText "").toList blocks tail ∧
      List.Forall₂ Shows blocks types ∧
      typeBodies? (methodText "").toList = some (types.filterMap id)) ∧
    Balanced [] ∧ Balanced "class B { int n; }".toList ∧
    recognize "A.java" (methodText "class B { int n; }") = recognize "A.java" (methodText "") ∧
    recognize "A.java" "class A \x7b" = .ok none ∧ ¬Balanced (blank "class A \x7b".toList) := by
  obtain ⟨-, missing, row, replaced⟩ := types_follow_the_grammar
  have computed : (recognize "A.java" (methodText "")).toOption.any Option.isSome = true := by
    decide +kernel
  obtain ⟨read, recognized, isSome⟩ := Fault.ok_of_any computed
  have present : read ≠ none := Option.isSome_iff_ne_none.mp isSome
  obtain ⟨blocks, tail, splitting, -, types, shows, -, same⟩ :=
    row (methodText "").toList (by decide +kernel)
  have empty : Balanced [] := by decide
  have inside : Balanced "class B { int n; }".toList := by decide +kernel
  have method := replaced "import p; class A \x7b void f() \x7b".toList [] "class B { int n; }".toList
    "\x7d \x7d".toList empty inside (by decide +kernel)
  have unclosed : recognize "A.java" "class A \x7b" = .ok none := by
    have none : typeBodies? (blank "class A \x7b".toList) = none := by decide +kernel
    rw [recognize, none]
  refine ⟨⟨read, recognized, present, ?_⟩, ⟨blocks, tail, types, splitting, shows, same⟩, empty, inside,
    method.2 _ _ _ (by decide +kernel) (by decide +kernel), unclosed, ?_⟩
  · exact not_not.mp (mt (missing _ _ _ recognized).mpr present)
  · exact (missing _ _ _ unclosed).mp rfl

end CodeCensus.Source
