import CodeCensus.Proofs.Holdings
import CodeCensus.Settings.Merge
import Mathlib.Data.List.Sort

/-!
# Lists merged with their overlays

The items of an overlay speak one after the other, each of them about one text: the text is to be in
the list, or to be out of it. The last item that speaks of a text decides, and where none does, the
text is in the list if it was there before. So overlays can be put together before they are merged,
and nothing of the list below them counts but its members.
-/

namespace CodeCensus

namespace Text

/-! ### The order of bytes -/

/-- The bytes of a text in UTF-8. -/
def bytes (text : String) : List UInt8 :=
  text.toUTF8.data.toList

private theorem bytes_eq (text : String) :
    bytes text = text.toList.flatMap String.utf8EncodeChar := by
  rw [bytes, String.toUTF8_eq_toByteArray]
  conv => lhs; rw [← String.ofList_toList (s := text)]
  exact List.toList_data_toByteArray

/-- A character takes one byte to four: its digits to the base 64, each behind a mark of its own. -/
theorem encoded_cases (c : Char) :
    (∃ a, a < 128 ∧ c.val.toNat = a ∧ String.utf8EncodeChar c = [.ofNat a]) ∨
    (∃ a b, a < 32 ∧ b < 64 ∧ c.val.toNat = a * 64 + b ∧ 128 ≤ c.val.toNat ∧
      String.utf8EncodeChar c = [.ofNat (a + 192), .ofNat (b + 128)]) ∨
    (∃ a b d, a < 16 ∧ b < 64 ∧ d < 64 ∧ c.val.toNat = (a * 64 + b) * 64 + d ∧
      2048 ≤ c.val.toNat ∧
      String.utf8EncodeChar c = [.ofNat (a + 224), .ofNat (b + 128), .ofNat (d + 128)]) ∨
    (∃ a b d e, a < 8 ∧ b < 64 ∧ d < 64 ∧ e < 64 ∧
      c.val.toNat = ((a * 64 + b) * 64 + d) * 64 + e ∧ 65536 ≤ c.val.toNat ∧
      String.utf8EncodeChar c =
        [.ofNat (a + 240), .ofNat (b + 128), .ofNat (d + 128), .ofNat (e + 128)]) := by
  have bound : c.val.toNat < 0x110000 := by
    rcases c.valid with low | ⟨-, high⟩
    · exact Nat.lt_trans low (by decide)
    · exact high
  simp only [String.utf8EncodeChar]
  split
  · exact .inl ⟨_, by omega, rfl, rfl⟩
  · split
    · exact .inr (.inl ⟨_, _, by omega, by omega, by omega, by omega, rfl⟩)
    · split
      · exact .inr (.inr (.inl ⟨_, _, _, by omega, by omega, by omega, by omega, by omega, rfl⟩))
      · exact .inr (.inr (.inr
          ⟨_, _, _, _, by omega, by omega, by omega, by omega, by omega, by omega, rfl⟩))

/-- The smaller character has the smaller bytes, whatever stands behind them. -/
theorem encoded_lt {c d : Char} (less : c < d) (left right : List UInt8) :
    String.utf8EncodeChar c ++ left < String.utf8EncodeChar d ++ right := by
  have smaller : c.val.toNat < d.val.toNat := less
  rcases encoded_cases c with ⟨_, _, here, first⟩ | ⟨_, _, _, _, here, _, first⟩ |
      ⟨_, _, _, _, _, _, here, _, first⟩ | ⟨_, _, _, _, _, _, _, _, here, _, first⟩ <;>
    rcases encoded_cases d with ⟨_, _, there, other⟩ | ⟨_, _, _, _, there, _, other⟩ |
      ⟨_, _, _, _, _, _, there, _, other⟩ | ⟨_, _, _, _, _, _, _, _, there, _, other⟩ <;>
    simp only [first, other, List.cons_append, List.nil_append, List.cons_lt_cons_iff,
      UInt8.lt_iff_toNat_lt, ← UInt8.toNat_inj, UInt8.toNat_ofNat'] <;>
    omega

private theorem append_lt_append (front : List UInt8) {left right : List UInt8}
    (less : left < right) :
    front ++ left < front ++ right := by
  induction front with
  | nil => exact less
  | cons byte front inductionHypothesis =>
    exact List.cons_lt_cons_iff.mpr (.inr ⟨rfl, inductionHypothesis⟩)

private theorem flatMap_lt {front back : List Char} (less : front < back) :
    front.flatMap String.utf8EncodeChar < back.flatMap String.utf8EncodeChar := by
  induction front generalizing back with
  | nil =>
    cases back with
    | nil => cases less
    | cons d back =>
      rw [List.flatMap_nil, List.flatMap_cons]
      have some : String.utf8EncodeChar d ≠ [] := by
        rw [← List.length_pos_iff, String.length_utf8EncodeChar]
        exact d.utf8Size_pos
      obtain ⟨byte, bytes, encoded⟩ := List.exists_cons_of_ne_nil some
      rw [encoded]
      exact List.nil_lt_cons ..
  | cons c front inductionHypothesis =>
    cases back with
    | nil => cases less
    | cons d back =>
      rw [List.flatMap_cons, List.flatMap_cons]
      rcases List.cons_lt_cons_iff.mp less with smaller | ⟨rfl, later⟩
      · exact encoded_lt smaller _ _
      · exact append_lt_append _ (inductionHypothesis later)

/-- Texts are in order when their bytes are. -/
theorem bytes_lt_iff {text other : String} : bytes text < bytes other ↔ text < other := by
  have increasing : ∀ {text other : String}, text < other → bytes text < bytes other := by
    intro text other less
    rw [bytes_eq, bytes_eq]
    exact flatMap_lt (String.lt_iff_toList_lt.mp less)
  refine ⟨fun less => ?_, increasing⟩
  rcases lt_trichotomy text other with smaller | rfl | greater
  · exact smaller
  · exact absurd less (List.lt_irrefl _)
  · exact absurd less (List.lt_asymm (increasing greater))

end Text

variable {base other overlay : List String} {text item : String}

/-! ### What an item speaks of -/

/-- The text starts with an exclamation mark. -/
def Marked (text : String) : Prop :=
  text.toList.head? = some '!'

/-- An item speaks of a text: it is the text itself, which has no mark, or the text with a mark
before it. -/
def Mentions (item text : String) : Prop :=
  (item = text ∧ ¬Marked text) ∨ item.toList = '!' :: text.toList

/-- The last item of the overlay that speaks of the text. -/
def LastMention (overlay : List String) (text item : String) : Prop :=
  ∃ before after, overlay = before ++ item :: after ∧ Mentions item text ∧
    ∀ later ∈ after, ¬Mentions later text

instance (text : String) : Decidable (Marked text) :=
  inferInstanceAs (Decidable (_ = _))

instance (item text : String) : Decidable (Mentions item text) :=
  inferInstanceAs (Decidable (_ ∨ _))

/-- No text is itself with a mark before it. -/
theorem ne_marked (text : String) : text.toList ≠ '!' :: text.toList :=
  fun same => List.cons_ne_self '!' text.toList same.symm

/-- An item leaves the texts it does not speak of as they are. -/
theorem mem_mergeItem_of_not_mentions (silent : ¬Mentions item text) :
    text ∈ mergeItem base item ↔ text ∈ base := by
  obtain ⟨notItself, notMarked⟩ := not_or.mp silent
  rw [mergeItem]
  split
  · next named spelled =>
    have apart : text ≠ String.ofList named := by
      rintro rfl
      exact notMarked (by simpa using spelled)
    simp [apart]
  · next unmarked =>
    have apart : text ≠ item := by
      rintro rfl
      refine notItself ⟨rfl, fun marked => ?_⟩
      obtain ⟨rest, spelled⟩ := List.head?_eq_some_iff.mp marked
      exact unmarked rest spelled
    simp [apart]

/-- An item puts in the text it speaks of if it is the text itself, and else takes it out. -/
theorem mem_mergeItem_of_mentions (mentions : Mentions item text) :
    text ∈ mergeItem base item ↔ item = text := by
  rcases mentions with ⟨rfl, unmarked⟩ | marked
  · rw [mergeItem]
    split
    · next rest spelled => exact absurd (List.head?_eq_some_iff.mpr ⟨rest, spelled⟩) unmarked
    · simp
  · have apart : item ≠ text := by
      rintro rfl
      exact ne_marked item marked
    rw [mergeItem, marked]
    simp [apart]

/-! ### The last mention -/

private theorem lastMention_nil : ¬LastMention [] text item := by
  rintro ⟨before, after, same, -⟩
  exact absurd same (by simp)

/-- An item at the end of the overlay that speaks of the text is the last one that does. -/
theorem lastMention_of_mentions {last : String} (mentions : Mentions last text) :
    LastMention (overlay ++ [last]) text item ↔ item = last := by
  constructor
  · rintro ⟨before, after, same, -, silent⟩
    rcases List.eq_nil_or_concat after with rfl | ⟨front, final, rfl⟩
    · exact (List.head_eq_of_cons_eq (List.append_inj' same rfl).2).symm
    · rw [List.concat_eq_append] at same silent
      rw [← List.cons_append, ← List.append_assoc] at same
      obtain rfl := List.head_eq_of_cons_eq (List.append_inj' same rfl).2
      exact absurd mentions (silent last (by simp))
  · rintro rfl
    exact ⟨overlay, [], rfl, mentions, by simp⟩

/-- An item at the end that does not speak of the text leaves the last mention to the others. -/
theorem lastMention_of_not_mentions {last : String} (silent : ¬Mentions last text) :
    LastMention (overlay ++ [last]) text item ↔ LastMention overlay text item := by
  constructor
  · rintro ⟨before, after, same, mentions, others⟩
    rcases List.eq_nil_or_concat after with rfl | ⟨front, final, rfl⟩
    · obtain rfl := List.head_eq_of_cons_eq (List.append_inj' same rfl).2
      exact absurd mentions silent
    · rw [List.concat_eq_append] at same others
      rw [← List.cons_append, ← List.append_assoc] at same
      refine ⟨before, front, (List.append_inj' same rfl).1, mentions, fun later member => ?_⟩
      exact others later (by simp [member])
  · rintro ⟨before, after, rfl, mentions, others⟩
    refine ⟨before, after ++ [last], by simp, mentions, fun later member => ?_⟩
    rcases List.mem_append.mp member with earlier | final
    · exact others later earlier
    · rwa [List.mem_singleton.mp final]

/-! ### Merging -/

private theorem mem_mergeLists : text ∈ mergeLists base overlay ↔
    LastMention overlay text text ∨ (∀ item ∈ overlay, ¬Mentions item text) ∧ text ∈ base := by
  rw [mergeLists, Text.mem_sortDistinct]
  -- From the front to the back, as the last item is applied to what the others leave.
  induction overlay using List.reverseRecOn with
  | nil => simp [lastMention_nil]
  | append_singleton overlay last inductionHypothesis =>
    rw [List.foldl_append, List.foldl_cons, List.foldl_nil, List.forall_mem_append,
      List.forall_mem_singleton]
    by_cases mentions : Mentions last text
    · rw [mem_mergeItem_of_mentions mentions, lastMention_of_mentions mentions]
      simp [mentions, eq_comm]
    · rw [mem_mergeItem_of_not_mentions mentions, lastMention_of_not_mentions mentions,
        inductionHypothesis]
      simp [mentions]

private theorem mergeLists_increasing (base overlay : List String) :
    (mergeLists base overlay).Pairwise fun text other => Text.bytes text < Text.bytes other :=
  (Text.sorted_sortDistinct _).imp Text.bytes_lt_iff.mpr

/-- A merged list is told by its members. -/
theorem mergeLists_eq_of_mem {second : List String}
    (same : ∀ text, text ∈ mergeLists base overlay ↔ text ∈ mergeLists other second) :
    mergeLists base overlay = mergeLists other second :=
  (Text.sorted_sortDistinct _).eq_of_mem_iff (Text.sorted_sortDistinct _) same

/-- Nothing of a list counts but its members. -/
theorem mergeLists_congr (same : ∀ text, text ∈ base ↔ text ∈ other) (overlay : List String) :
    mergeLists base overlay = mergeLists other overlay := by
  apply mergeLists_eq_of_mem
  simp only [mem_mergeLists, same, implies_true]

private theorem mem_foldl_mergeItem : text ∈ overlay.foldl mergeItem base ↔
    text ∈ mergeLists base overlay :=
  Text.mem_sortDistinct.symm

/-- Overlays one after the other are one overlay. -/
theorem mergeLists_mergeLists (base first second : List String) :
    mergeLists (mergeLists base first) second = mergeLists base (first ++ second) := by
  rw [mergeLists_congr (fun _ => mem_foldl_mergeItem.symm) second]
  rw [mergeLists, mergeLists, List.foldl_append]

/-- An overlay that is merged once more changes nothing. -/
theorem mergeLists_again (base overlay : List String) :
    mergeLists (mergeLists base overlay) overlay = mergeLists base overlay := by
  apply mergeLists_eq_of_mem
  intro text
  rw [mem_mergeLists, mem_mergeLists]
  tauto

/-- A merged list is in the order of bytes, and holds a text if the last item of the overlay that
speaks of it is the text itself, or if no item speaks of it and the list below holds it. So overlays
one after the other are one overlay, an overlay is merged once for all, and the order and the
repetitions of the list below do not matter. -/
theorem last_mention_decides :
    (∀ base overlay : List String,
      ((mergeLists base overlay).Pairwise fun text other => Text.bytes text < Text.bytes other) ∧
      ∀ text, text ∈ mergeLists base overlay ↔ LastMention overlay text text ∨
        (∀ item ∈ overlay, ¬Mentions item text) ∧ text ∈ base) ∧
    (∀ base first second : List String,
      mergeLists (mergeLists base first) second = mergeLists base (first ++ second)) ∧
    (∀ base overlay : List String,
      mergeLists (mergeLists base overlay) overlay = mergeLists base overlay) ∧
    ∀ base other overlay : List String, (∀ text, text ∈ base ↔ text ∈ other) →
      mergeLists base overlay = mergeLists other overlay :=
  ⟨fun base overlay => ⟨mergeLists_increasing base overlay, fun _ => mem_mergeLists⟩,
    mergeLists_mergeLists, mergeLists_again, fun _ _ overlay same => mergeLists_congr same overlay⟩

/-- An overlay that takes a text out and puts it in again, and takes out one that has a mark. -/
def changingOverlay : List String := ["!out", "gen", "!!gen", "out", "!gen", "!build"]

/-- The order and the repetitions of the list below do not matter, with marks in it or without. -/
theorem marked_texts_are_merged :
    (∀ text, text ∈ ["out", "!gen", "build", "out"] ↔ text ∈ ["build", "!gen", "out"]) ∧
      mergeLists ["out", "!gen", "build", "out"] changingOverlay = ["out"] ∧
      mergeLists ["build", "!gen", "out"] changingOverlay = ["out"] := by
  have same : ∀ text, text ∈ ["out", "!gen", "build", "out"] ↔ text ∈ ["build", "!gen", "out"] := by
    intro text
    simp only [List.mem_cons, List.not_mem_nil]
    tauto
  have merged : mergeLists ["build", "!gen", "out"] changingOverlay = ["out"] := by decide +kernel
  have independent := last_mention_decides.2.2.2 _ _ changingOverlay same
  exact ⟨same, independent.trans merged, merged⟩

end CodeCensus
