import CodeCensus.Source.TypeBody
import Mathlib.Data.List.Infix

/-!
# Texts and their braces

A text has balanced braces when nowhere more of them were closed than opened, and none is open at the
end. Such a text is, in exactly one way, a row of blocks, each a header without braces and a balanced
body in braces, and a tail without braces.
-/

namespace CodeCensus.Source

variable {depth : Nat} {c : Char} {text front rest body more other : List Char}

/-- No front of the text closes more braces than it opens, and the whole text closes them all. -/
def Balanced (text : List Char) : Prop :=
  (∀ front, front <+: text → front.count '}' ≤ front.count '{') ∧
    text.count '}' = text.count '{'

instance : Decidable (Balanced text) :=
  decidable_of_iff ((∀ front ∈ text.inits, front.count '}' ≤ front.count '{') ∧
    text.count '}' = text.count '{') (by simp only [List.mem_inits, Balanced])

/-- The text closes the braces that are open before it, so many, and all that it opens itself. -/
def Closes (depth : Nat) (text : List Char) : Prop :=
  (∀ front, front <+: text → front.count '}' ≤ front.count '{' + depth) ∧
    text.count '}' = text.count '{' + depth

/-- Where no brace is open, to close all of them is to be balanced. -/
theorem closes_zero : Closes 0 text ↔ Balanced text := Iff.rfl

/-- The empty text closes no brace. -/
theorem closes_nil : Closes depth [] ↔ depth = 0 := by
  simp [Closes, eq_comm]

/-- What a front may close is told by its first character and the rest. -/
theorem closes_cons : Closes depth (c :: text) ↔
    (∀ front, front <+: text → (c :: front).count '}' ≤ (c :: front).count '{' + depth) ∧
      (c :: text).count '}' = (c :: text).count '{' + depth := by
  refine and_congr_left fun _ => ⟨fun each front within => ?_, fun each front within => ?_⟩
  · exact each (c :: front) (List.cons_prefix_cons.mpr ⟨rfl, within⟩)
  · rcases List.prefix_cons_iff.mp within with rfl | ⟨rest, rfl, inside⟩
    · simp
    · exact each rest inside

/-- An opening brace is one more to close. -/
theorem closes_open : Closes depth ('{' :: text) ↔ Closes (depth + 1) text := by
  rw [closes_cons, Closes]
  simp only [List.count_cons]
  simp [Nat.add_assoc, Nat.add_comm 1 depth]

/-- A closing brace closes one. -/
theorem closes_close : Closes (depth + 1) ('}' :: text) ↔ Closes depth text := by
  rw [closes_cons, Closes]
  simp [← Nat.add_assoc]

/-- Where no brace is open, none can be closed. -/
theorem not_closes_close : ¬Closes 0 ('}' :: text) := by
  rintro ⟨each, -⟩
  simpa using each ['}'] (by simp)

/-- Other characters than braces leave open what is open. -/
theorem closes_other (notOpen : c ≠ '{') (notClose : c ≠ '}') :
    Closes depth (c :: text) ↔ Closes depth text := by
  rw [closes_cons, Closes]
  simp [List.count_cons_of_ne, notOpen, notClose]

/-- A character opens a brace, closes one or is no brace. -/
theorem brace_cases (c : Char) : c = '{' ∨ c = '}' ∨ c ≠ '{' ∧ c ≠ '}' := by
  tauto

/-- A text that closes some braces can stand before one that closes the others. -/
theorem closes_append (outer : Nat) (inner : Closes depth text) :
    Closes (outer + depth) (text ++ rest) ↔ Closes outer rest := by
  induction text generalizing depth with
  | nil =>
    obtain rfl := closes_nil.mp inner
    rfl
  | cons c text inductionHypothesis =>
    rw [List.cons_append]
    rcases brace_cases c with rfl | rfl | ⟨notOpen, notClose⟩
    · rw [closes_open, Nat.add_assoc, inductionHypothesis (closes_open.mp inner)]
    · cases depth with
      | zero => exact absurd inner not_closes_close
      | succ depth =>
        rw [← Nat.add_assoc, closes_close, inductionHypothesis (closes_close.mp inner)]
    · rw [closes_other notOpen notClose,
        inductionHypothesis ((closes_other notOpen notClose).mp inner)]

/-- A text without braces. -/
def BraceFree (text : List Char) : Prop :=
  '{' ∉ text ∧ '}' ∉ text

private theorem braceFree_nil : BraceFree [] := by simp [BraceFree]

/-- A text is free of braces if its first character and the rest are. -/
theorem braceFree_cons : BraceFree (c :: text) ↔ c ≠ '{' ∧ c ≠ '}' ∧ BraceFree text := by
  simp only [BraceFree, List.mem_cons, not_or, ne_eq, eq_comm (b := c)]
  tauto

private theorem closes_braceFree (free : BraceFree front) :
    Closes depth (front ++ text) ↔ Closes depth text := by
  induction front with
  | nil => rfl
  | cons c front inductionHypothesis =>
    obtain ⟨notOpen, notClose, others⟩ := braceFree_cons.mp free
    rw [List.cons_append, closes_other notOpen notClose, inductionHypothesis others]

/-! ### Blocks -/

/-- The brace that closes the first of the open braces ends a balanced text. -/
theorem Closes.split (closes : Closes (depth + 1) text) : ∃ body more,
    text = body ++ '}' :: more ∧ Balanced body ∧ Closes depth more := by
  induction size : text.length using Nat.strong_induction_on generalizing text depth with
  | _ length inductionHypothesis =>
    cases text with
    | nil => cases closes_nil.mp closes
    | cons c rest =>
      have shorter : rest.length < length := by simp [← size]
      rcases brace_cases c with rfl | rfl | ⟨notOpen, notClose⟩
      · -- What the new brace opens is closed first, and then the braces from before.
        obtain ⟨inner, behind, rfl, innerBalanced, closesBehind⟩ :=
          inductionHypothesis _ shorter (closes_open.mp closes) rfl
        have shorterStill : behind.length < length := by
          simp only [List.length_append, List.length_cons] at shorter
          omega
        obtain ⟨body, more, rfl, balanced, closesMore⟩ :=
          inductionHypothesis _ shorterStill closesBehind rfl
        refine ⟨'{' :: inner ++ '}' :: body, more, by simp, ?_, closesMore⟩
        rw [← closes_zero, List.cons_append, closes_open,
          closes_append 1 (closes_zero.mpr innerBalanced), closes_close]
        exact balanced
      · exact ⟨[], rest, rfl, closes_nil.mpr rfl, closes_close.mp closes⟩
      · obtain ⟨body, more, rfl, balanced, closesMore⟩ :=
          inductionHypothesis _ shorter ((closes_other notOpen notClose).mp closes) rfl
        exact ⟨c :: body, more, rfl, closes_zero.mp ((closes_other notOpen notClose).mpr balanced),
          closesMore⟩

/-- Two balanced texts before a closing brace are the same. -/
theorem Balanced.eq_of_append (balanced : Balanced body) (otherBalanced : Balanced other)
    (same : body ++ '}' :: more = other ++ '}' :: rest) : body = other ∧ more = rest := by
  -- The longer one would have a front that closes the brace behind the shorter one.
  have cut : ∀ {body other lower : List Char}, Balanced body → Balanced other →
      other ≠ body ++ '}' :: lower := by
    rintro body _ lower balanced otherBalanced rfl
    have beyond := otherBalanced.1 (body ++ ['}']) ⟨lower, by simp⟩
    rw [List.count_append, List.count_append, balanced.2] at beyond
    have closed : ['}'].count '}' = 1 := rfl
    have opened : ['}'].count '{' = 0 := rfl
    omega
  rcases List.append_eq_append_iff.mp same with ⟨lower, there, here⟩ | ⟨lower, there, here⟩
  · cases lower with
    | nil =>
      rw [List.append_nil] at there
      exact ⟨there.symm, (List.cons.inj here).2⟩
    | cons c lower =>
      obtain ⟨rfl, -⟩ := List.cons.inj here
      exact absurd there (cut balanced otherBalanced)
  · cases lower with
    | nil =>
      rw [List.append_nil] at there
      exact ⟨there, (List.cons.inj here).2.symm⟩
    | cons c lower =>
      obtain ⟨rfl, -⟩ := List.cons.inj here
      exact absurd there (cut otherBalanced balanced)

/-- A header and the body in braces behind it. -/
structure Block where
  header : List Char
  body : List Char

/-- The text of some blocks and a tail. -/
def assemble (blocks : List Block) (tail : List Char) : List Char :=
  match blocks with
  | [] => tail
  | block :: blocks => block.header ++ '{' :: (block.body ++ '}' :: assemble blocks tail)

/-- A text is a row of blocks and a tail. Headers and tail have no braces, bodies balance theirs. -/
structure Splitting (text : List Char) (blocks : List Block) (tail : List Char) : Prop where
  text : text = assemble blocks tail
  headers : ∀ block ∈ blocks, BraceFree block.header
  bodies : ∀ block ∈ blocks, Balanced block.body
  tail : BraceFree tail

/-- A text without braces is followed by the first brace. -/
theorem exists_braceFree (text : List Char) : ∃ front rest, text = front ++ rest ∧ BraceFree front ∧
    (rest = [] ∨ (∃ more, rest = '{' :: more) ∨ ∃ more, rest = '}' :: more) := by
  induction text with
  | nil => exact ⟨[], [], rfl, braceFree_nil, .inl rfl⟩
  | cons c text inductionHypothesis =>
    rcases brace_cases c with rfl | rfl | ⟨notOpen, notClose⟩
    · exact ⟨[], '{' :: text, rfl, braceFree_nil, .inr (.inl ⟨text, rfl⟩)⟩
    · exact ⟨[], '}' :: text, rfl, braceFree_nil, .inr (.inr ⟨text, rfl⟩)⟩
    · obtain ⟨front, rest, rfl, free, next⟩ := inductionHypothesis
      exact ⟨c :: front, rest, rfl, braceFree_cons.mpr ⟨notOpen, notClose, free⟩, next⟩

/-- A balanced text is a row of blocks and a tail. -/
theorem Balanced.splitting (balanced : Balanced text) : ∃ blocks tail, Splitting text blocks tail := by
  induction size : text.length using Nat.strong_induction_on generalizing text with
  | _ length inductionHypothesis =>
    obtain ⟨front, rest, rfl, free, next⟩ := exists_braceFree text
    have closes : Closes 0 rest := (closes_braceFree free).mp balanced
    rcases next with rfl | ⟨inside, rfl⟩ | ⟨_, rfl⟩
    · exact ⟨[], front, by simp [assemble], by simp, by simp, free⟩
    · obtain ⟨body, more, rfl, bodyBalanced, moreBalanced⟩ := (closes_open.mp closes).split
      obtain ⟨blocks, tail, rfl, headers, bodies, tailFree⟩ :=
        inductionHypothesis more.length (by simp [← size]; omega) moreBalanced rfl
      exact ⟨⟨front, body⟩ :: blocks, tail, rfl, List.forall_mem_cons.mpr ⟨free, headers⟩,
        List.forall_mem_cons.mpr ⟨bodyBalanced, bodies⟩, tailFree⟩
    · exact absurd closes not_closes_close

/-- Two texts without braces before an opening brace are the same. -/
theorem BraceFree.eq_of_append (free : BraceFree front) (otherFree : BraceFree other)
    (same : front ++ '{' :: more = other ++ '{' :: rest) : front = other ∧ more = rest := by
  rcases List.append_eq_append_iff.mp same with ⟨lower, there, here⟩ | ⟨lower, there, here⟩
  all_goals
    cases lower with
    | nil => simp_all
    | cons c lower =>
      obtain ⟨rfl, -⟩ := List.cons.inj here
      simp [there, BraceFree] at free otherFree

/-- A text is a row of blocks and a tail in one way only. -/
theorem Splitting.unique {blocks others : List Block} {tail ending : List Char}
    (splitting : Splitting text blocks tail) (otherwise : Splitting text others ending) :
    others = blocks ∧ ending = tail := by
  obtain ⟨rfl, headers, bodies, tailFree⟩ := splitting
  obtain ⟨same, otherHeaders, otherBodies, endingFree⟩ := otherwise
  induction blocks generalizing others with
  | nil =>
    cases others with
    | nil => exact ⟨rfl, same.symm⟩
    | cons other others =>
      rw [assemble] at same
      exact absurd (by simp [same, assemble]) tailFree.1
  | cons block blocks inductionHypothesis =>
    cases others with
    | nil =>
      rw [assemble] at same
      exact absurd (by simp [← same, assemble]) endingFree.1
    | cons other others =>
      rw [List.forall_mem_cons] at headers bodies otherHeaders otherBodies
      obtain ⟨sameHeader, behind⟩ := headers.1.eq_of_append otherHeaders.1 same
      obtain ⟨sameBody, later⟩ := bodies.1.eq_of_append otherBodies.1 behind
      obtain ⟨rfl, rfl⟩ := inductionHypothesis headers.2 bodies.2 later otherHeaders.2 otherBodies.2
      obtain ⟨header, body⟩ := block
      obtain ⟨otherHeader, otherBody⟩ := other
      obtain rfl : header = otherHeader := sameHeader
      obtain rfl : body = otherBody := sameBody
      exact ⟨rfl, rfl⟩

end CodeCensus.Source
