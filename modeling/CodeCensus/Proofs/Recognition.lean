import CodeCensus.Proofs.Count
import CodeCensus.Source.Recognizer
import CodeCensus.Files.Basic
import Mathlib.Algebra.Order.BigOperators.Group.List

/-!
# What is recognised is no larger than its text

A class takes at least the brace that opens its body, and a method the first character of its name.
A source file never counts more classes and functions than it has characters, nor more characters
than bytes.
-/

namespace CodeCensus

namespace Source

/-- A comment or a literal is never blanked into a longer text. -/
theorem length_blankFrom (region : Region) (text : List Char) :
    (blankFrom region text).length ≤ text.length := by
  fun_induction blankFrom region text <;> grind

/-- The characters that a type takes at least: its opening brace and its body. -/
def TypeBody.weight (type : TypeBody) : Nat := type.body.length + 1

/-- The body that goes on and the types that come later take different characters, and every brace
that is still open needs another one. -/
theorem splitFrom_weight {depth : Nat} {header text body : List Char} {later : List TypeBody}
    (split : splitFrom depth header text = some (body, later)) :
    body.length + (later.map TypeBody.weight).sum + (depth - 1) ≤ text.length := by
  fun_induction splitFrom depth header text generalizing body later with
  | case1 => simp_all
  | case2 | case3 | case6 | case9 | case12 => cases split
  | case4 _ _ _ _ inner _ _ inductionHypothesis =>
    -- The text opens a type.
    have inside := inductionHypothesis inner
    cases split
    simp only [List.length_cons, List.length_nil, List.map_cons, List.sum_cons, TypeBody.weight]
    omega
  | case5 _ _ _ _ inner _ inductionHypothesis =>
    have inside := inductionHypothesis inner
    cases split
    simp only [List.length_cons, List.length_nil]
    omega
  | case10 _ _ _ _ inner inductionHypothesis =>
    -- A group inside a body shows as its two braces.
    have inside := inductionHypothesis inner
    cases split
    simp only [List.length_cons]
    omega
  | case13 _ _ _ _ _ _ _ inner inductionHypothesis =>
    have inside := inductionHypothesis inner
    cases split
    simp only [List.length_cons]
    omega
  | case7 _ _ inductionHypothesis | case8 _ _ _ _ _ _ inductionHypothesis
  | case11 _ _ inductionHypothesis | case14 _ _ _ inductionHypothesis
  | case15 _ _ _ inductionHypothesis | case16 _ _ _ _ _ _ inductionHypothesis =>
    have inside := inductionHypothesis split
    simp only [List.length_cons]
    omega

/-- Each call of a text has a name of its own. -/
theorem length_callsFrom (behind : List Char) (inName : Nat) (text : List Char) :
    (callsFrom behind inName text).length ≤ text.length := by
  fun_induction callsFrom behind inName text <;> grind

/-- A type has no more methods than its body has characters. -/
theorem TypeBody.length_methods {type : TypeBody} {methods : List (List Char)}
    (done : type.methods = .ok methods) : methods.length ≤ type.body.length := by
  obtain ⟨found, each, same⟩ := Fault.bind_eq_ok.mp done
  obtain rfl := Except.ok.inj same
  have members : type.members.length ≤ type.body.length := by
    unfold members
    split
    · calc ((type.body.dropWhile (· != ';')).tail).length
        _ ≤ (type.body.dropWhile (· != ';')).length := by simp
        _ ≤ type.body.length := (List.dropWhile_sublist _).length_le
    · exact Nat.le_refl _
  calc (found.filterMap id).length
    _ ≤ found.length := List.length_filterMap_le _ _
    _ = (calls type.members).length := (Fault.mapM_eq_ok.mp each).length_eq.symm
    _ ≤ type.members.length := length_callsFrom [] 0 type.members
    _ ≤ type.body.length := members

/-- A class and its functions take different characters. -/
theorem TypeBody.toEntry_weight {type : TypeBody} {entry : Entry}
    (done : type.toEntry = .ok entry) :
    0 ≤ entry.counts.functions ∧ 1 + entry.counts.functions ≤ type.weight := by
  obtain ⟨methods, listed, same⟩ := Fault.bind_eq_ok.mp done
  obtain rfl := Except.ok.inj same
  have length := TypeBody.length_methods listed
  simp only [Entry.ofClass, List.length_map, TypeBody.weight]
  omega

/-- The classes of a text and their functions together are no more than its characters. -/
theorem classes_weight {text : List Char} {types : List TypeBody} {classes : List Entry}
    (bodies : typeBodies? text = some types) (made : types.mapM TypeBody.toEntry = .ok classes) :
    (∀ inner ∈ classes, 0 ≤ inner.counts.functions) ∧
      classes.length + (classes.map fun inner => inner.counts.functions).sum ≤
        (text.length : Int) := by
  have weighed : ∀ {types : List TypeBody} {classes : List Entry},
      List.Forall₂ (fun type entry => type.toEntry = .ok entry) types classes →
      (∀ inner ∈ classes, 0 ≤ inner.counts.functions) ∧
      classes.length + (classes.map fun inner => inner.counts.functions).sum ≤
        ((types.map TypeBody.weight).sum : Nat) := by
    intro types classes paired
    induction paired with
    | nil => simp
    | cons first _ inductionHypothesis =>
      obtain ⟨nonnegative, weight⟩ := TypeBody.toEntry_weight first
      refine ⟨List.forall_mem_cons.mpr ⟨nonnegative, inductionHypothesis.1⟩, ?_⟩
      simp only [List.length_cons, List.map_cons, List.sum_cons]
      omega
  obtain ⟨⟨body, later⟩, split, rfl⟩ := Option.map_eq_some_iff.mp bodies
  have weight := splitFrom_weight split
  obtain ⟨nonnegative, bound⟩ := weighed (Fault.mapM_eq_ok.mp made)
  refine ⟨nonnegative, bound.trans ?_⟩
  dsimp only
  omega

/-- What the classes of a text count together is a tally of no more than its characters. -/
theorem classes_upTo {text : List Char} {types : List TypeBody} {classes : List Entry}
    (bodies : typeBodies? text = some types) (made : types.mapM TypeBody.toEntry = .ok classes) :
    Count.UpTo ⟨classes.length, (classes.map fun inner => inner.counts.functions).sum⟩ text.length := by
  obtain ⟨nonnegative, bound⟩ := classes_weight bodies made
  refine ⟨⟨Int.natCast_nonneg _, ?_⟩, bound⟩
  apply List.sum_nonneg
  intro functions member
  obtain ⟨inner, innerMember, rfl⟩ := List.mem_map.mp member
  exact nonnegative inner innerMember

/-- A source file counts no more classes and functions than its text has characters. -/
theorem recognize_size {fileName contents : String} {entry : Entry}
    (recognized : recognize fileName contents = .ok (some entry)) :
    entry.counts.UpTo contents.toList.length := by
  unfold recognize at recognized
  split at recognized
  · cases recognized
  · next types bodies =>
    obtain ⟨classes, each, rest⟩ := Fault.bind_eq_ok.mp recognized
    obtain ⟨made, built, same⟩ := Fault.bind_eq_ok.mp rest
    obtain rfl : made = entry := Option.some.inj (Except.ok.inj same)
    obtain ⟨functions, totalled, sameEntry⟩ := Fault.bind_eq_ok.mp built
    obtain rfl := Except.ok.inj sameEntry
    obtain ⟨rfl, -⟩ := Count.total_eq_ok totalled
    have counted := (classes_upTo bodies each).mono (length_blankFrom .code contents.toList)
    simpa only [Count.sum_functions, List.map_map, Function.comp_def] using counted

/-- A text of fewer characters than a word can count has no more methods than that either. -/
theorem sourceFile_ends {fileName : String} {text : List Char} {types : List TypeBody}
    {classes : List Entry} (bodies : typeBodies? text = some types)
    (made : types.mapM TypeBody.toEntry = .ok classes) (fits : text.length < 2 ^ 63) :
    ∃ file, Entry.sourceFile fileName classes = .ok file := by
  obtain ⟨nonnegative, -⟩ := classes_weight bodies made
  have upTo := classes_upTo bodies made
  have tallies : ∀ count ∈ classes.map fun inner => (⟨0, inner.counts.functions⟩ : Count),
      count.IsTally := by
    intro count member
    obtain ⟨inner, innerMember, rfl⟩ := List.mem_map.mp member
    exact ⟨Int.le_refl 0, nonnegative inner innerMember⟩
  have inRange : (classes.map fun inner => (⟨0, inner.counts.functions⟩ : Count)).sum.inRange := by
    have words := upTo.inRange fits
    rw [Count.inRange_iff] at words ⊢
    have noClasses : (classes.map fun _ => (0 : Int)).sum = 0 := by simp
    simp only [Count.sum_classes, Count.sum_functions, List.map_map, Function.comp_def, noClasses]
    dsimp only at words
    omega
  exact ⟨_, Fault.bind_eq_ok.mpr ⟨_, Count.total_of_tallies tallies inRange, rfl⟩⟩

end Source

/-- A character takes at least one byte. -/
theorem length_le_byteSize (text : String) : text.toList.length ≤ text.utf8ByteSize := by
  have chars : ∀ chars : List Char, chars.length ≤ (String.ofList chars).utf8ByteSize := by
    intro chars
    induction chars with
    | nil => exact Nat.zero_le _
    | cons c chars inductionHypothesis =>
      have oneByte : 1 ≤ c.utf8Size := c.utf8Size_pos
      have bytes : (String.ofList (c :: chars)).utf8ByteSize =
          c.utf8Size + (String.ofList chars).utf8ByteSize := by
        rw [String.ofList_cons, String.utf8ByteSize_append, String.utf8ByteSize_singleton]
      rw [bytes, List.length_cons]
      omega
  simpa using chars text.toList

/-- A text has no more characters than the bytes that it was in. -/
theorem length_le_size {bytes : ByteArray} {contents : String}
    (text : textOfBytes bytes = .ok contents) : contents.toList.length ≤ bytes.size := by
  have decoded : String.fromUTF8? bytes = some contents := by
    unfold textOfBytes at text
    split at text
    · next decoded => exact Except.ok.inj text ▸ decoded
    · cases text
  obtain ⟨valid, same⟩ := Option.dite_none_right_eq_some.mp decoded
  obtain rfl := Option.some.inj same
  exact length_le_byteSize _

end CodeCensus
