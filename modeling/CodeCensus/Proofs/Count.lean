import CodeCensus.Count
import CodeCensus.Proofs.Fault
import Mathlib.Algebra.BigOperators.Group.List.Basic
import Mathlib.Algebra.Group.Defs
import Mathlib.Algebra.Order.Monoid.Defs
import Mathlib.Tactic.Abel
import Mathlib.Tactic.Tauto

/-!
# The group of counts

Exact counts form a commutative group. Counters in words agree with it until one leaves its word,
and then they fault.
-/

namespace CodeCensus.Count

@[simp] theorem neg_classes (a : Count) : (-a).classes = -a.classes := rfl

@[simp] theorem neg_functions (a : Count) : (-a).functions = -a.functions := rfl

instance : AddCommGroup Count where
  add_assoc a b c := ext (Int.add_assoc ..) (Int.add_assoc ..)
  zero_add a := ext (Int.zero_add _) (Int.zero_add _)
  add_zero a := ext (Int.add_zero _) (Int.add_zero _)
  add_comm a b := ext (Int.add_comm ..) (Int.add_comm ..)
  neg_add_cancel a := ext (Int.add_left_neg _) (Int.add_left_neg _)
  sub_eq_add_neg a b := ext Int.sub_eq_add_neg Int.sub_eq_add_neg
  nsmul := nsmulRec
  zsmul := zsmulRec

@[simp] theorem isZero_iff (count : Count) : count.isZero = true ↔ count = 0 := by
  simp [isZero]

/-- Counters that fit in a word pass the check. -/
theorem checked_of_inRange {count : Count} (fits : count.inRange) : checked count = .ok count := by
  simp [checked, fits]

/-- What passes the check fits in a word and stays as it is. -/
theorem checked_eq_ok {count result : Count} :
    checked count = .ok result ↔ count.inRange ∧ result = count := by
  unfold checked
  split
  · next fits => simp [fits, eq_comm]
  · next exceeds => simp [exceeds]

/-- The classes of a sum are the sum of the classes. -/
theorem sum_classes (counts : List Count) : counts.sum.classes = (counts.map classes).sum := by
  induction counts with
  | nil => rfl
  | cons count counts inductionHypothesis =>
    rw [List.sum_cons, add_classes, inductionHypothesis, List.map_cons, List.sum_cons]

/-- The functions of a sum are the sum of the functions. -/
theorem sum_functions (counts : List Count) :
    counts.sum.functions = (counts.map functions).sum := by
  induction counts with
  | nil => rfl
  | cons count counts inductionHypothesis =>
    rw [List.sum_cons, add_functions, inductionHypothesis, List.map_cons, List.sum_cons]

/-! ### Order -/

/-- A count is below another if neither of its counters exceeds that of the other. -/
instance : PartialOrder Count where
  le a b := a.classes ≤ b.classes ∧ a.functions ≤ b.functions
  le_refl _ := ⟨Int.le_refl _, Int.le_refl _⟩
  le_trans _ _ _ first second :=
    ⟨Int.le_trans first.1 second.1, Int.le_trans first.2 second.2⟩
  le_antisymm _ _ first second :=
    ext (Int.le_antisymm first.1 second.1) (Int.le_antisymm first.2 second.2)

/-- Counters are ordered one by one. -/
theorem le_iff {a b : Count} : a ≤ b ↔ a.classes ≤ b.classes ∧ a.functions ≤ b.functions :=
  Iff.rfl

instance : IsOrderedAddMonoid Count where
  add_le_add_left _ _ less c :=
    ⟨Int.add_le_add_right less.1 c.classes, Int.add_le_add_right less.2 c.functions⟩

/-! ### Tallies -/

/-- What was counted, rather than a difference of two such counts. -/
def IsTally (count : Count) : Prop :=
  0 ≤ count.classes ∧ 0 ≤ count.functions

/-- Nothing is a tally. -/
theorem isTally_zero : IsTally 0 := ⟨Int.le_refl 0, Int.le_refl 0⟩

/-- One class is a tally. -/
theorem isTally_class : IsTally ⟨1, 0⟩ := ⟨by decide, by decide⟩

/-- One function is a tally. -/
theorem isTally_function : IsTally ⟨0, 1⟩ := ⟨by decide, by decide⟩

/-- Two tallies add up to one. -/
theorem IsTally.add {a b : Count} (left : a.IsTally) (right : b.IsTally) : (a + b).IsTally :=
  ⟨Int.add_nonneg left.1 right.1, Int.add_nonneg left.2 right.2⟩

/-- Tallies sum up to a tally. -/
theorem isTally_sum {counts : List Count} (each : ∀ count ∈ counts, count.IsTally) :
    counts.sum.IsTally := by
  induction counts with
  | nil => exact isTally_zero
  | cons count counts inductionHypothesis =>
    rw [List.sum_cons]
    exact (each count (by simp)).add
      (inductionHypothesis fun other member => each other (by simp [member]))

/-- The bounds of a signed 64-bit word, for both counters. -/
theorem inRange_iff (count : Count) : count.inRange = true ↔
    (-9223372036854775808 ≤ count.classes ∧ count.classes ≤ 9223372036854775807) ∧
      -9223372036854775808 ≤ count.functions ∧ count.functions ≤ 9223372036854775807 := by
  simp [inRange, fitsWord]

/-- Between nothing and a count in range is a count in range. -/
theorem inRange_of_le {a b : Count} (nonneg : 0 ≤ a) (less : a ≤ b) (inRange : b.inRange) :
    a.inRange := by
  rw [le_iff] at nonneg less
  rw [inRange_iff] at inRange ⊢
  simp only [zero_classes, zero_functions] at nonneg
  omega

/-- A part of a tally in range is in range. -/
theorem inRange_of_add {a b : Count} (left : a.IsTally) (right : b.IsTally)
    (inRange : (a + b).inRange) : a.inRange := by
  obtain ⟨classes, functions⟩ := left
  obtain ⟨moreClasses, moreFunctions⟩ := right
  rw [inRange_iff] at inRange ⊢
  simp only [add_classes, add_functions] at inRange
  omega

/-- A tally fits in a word if it is part of a sum of tallies that does. -/
theorem inRange_of_mem {counts : List Count} {count : Count} (member : count ∈ counts)
    (each : ∀ count ∈ counts, count.IsTally) (inRange : counts.sum.inRange) : count.inRange := by
  obtain ⟨before, after, rfl⟩ := List.append_of_mem member
  have rearranged : (before ++ count :: after).sum = count + (before ++ after).sum := by
    simp only [List.sum_append, List.sum_cons]
    abel
  rw [rearranged] at inRange
  refine inRange_of_add (each count member) (isTally_sum fun other otherMember => ?_) inRange
  refine each other ?_
  simp only [List.mem_append, List.mem_cons] at otherMember ⊢
  tauto

/-- A tally of at most so many classes and functions together. -/
structure UpTo (count : Count) (bound : Nat) : Prop where
  tally : count.IsTally
  bounded : count.classes + count.functions ≤ bound

/-- Nothing is within every bound. -/
theorem upTo_zero (bound : Nat) : UpTo 0 bound :=
  ⟨isTally_zero, Int.natCast_nonneg bound⟩

/-- What is within a bound is within a larger one. -/
theorem UpTo.mono {count : Count} {bound more : Nat} (upTo : count.UpTo bound)
    (less : bound ≤ more) : count.UpTo more :=
  ⟨upTo.tally, Int.le_trans upTo.bounded (Int.ofNat_le.mpr less)⟩

/-- What is within two bounds adds up to what is within their sum. -/
theorem UpTo.add {a b : Count} {bound more : Nat} (left : a.UpTo bound) (right : b.UpTo more) :
    (a + b).UpTo (bound + more) := by
  refine ⟨left.tally.add right.tally, ?_⟩
  have first := left.bounded
  have second := right.bounded
  simp only [add_classes, add_functions, Nat.cast_add]
  omega

/-- A tally of less than a word holds is in range. -/
theorem UpTo.inRange {count : Count} {bound : Nat} (upTo : count.UpTo bound)
    (fits : bound < 2 ^ 63) : count.inRange := by
  obtain ⟨⟨classes, functions⟩, bounded⟩ := upTo
  rw [inRange_iff]
  omega

private theorem foldlM_plus_eq_ok {start result : Count} {counts : List Count}
    (done : counts.foldlM plus start = .ok result) :
    result = start + counts.sum ∧ (start.inRange → result.inRange) := by
  induction counts generalizing start with
  | nil =>
    obtain rfl : start = result := Except.ok.inj done
    exact ⟨by simp, id⟩
  | cons count counts inductionHypothesis =>
    rw [List.foldlM_cons] at done
    obtain ⟨next, added, rest⟩ := Fault.bind_eq_ok.mp done
    obtain ⟨fits, rfl⟩ := checked_eq_ok.mp added
    obtain ⟨same, inRange⟩ := inductionHypothesis rest
    exact ⟨by rw [same, List.sum_cons, add_assoc], fun _ => inRange fits⟩

/-- A total that does not fault is the exact sum, in range. -/
theorem total_eq_ok {counts : List Count} {result : Count} (done : total counts = .ok result) :
    result = counts.sum ∧ result.inRange := by
  obtain ⟨same, inRange⟩ := foldlM_plus_eq_ok done
  exact ⟨by rw [same, zero_add], inRange (by decide)⟩

/-- Additions from the left end when no sum on the way leaves its word. -/
theorem foldlM_plus_ends_iff {start : Count} {counts : List Count} (fits : start.inRange) :
    (∃ result, counts.foldlM plus start = .ok result) ↔
      ∀ number, (start + (counts.take number).sum).inRange := by
  induction counts generalizing start with
  | nil => simp [pure, Except.pure, fits]
  | cons count counts inductionHypothesis =>
    rw [List.foldlM_cons]
    constructor
    · rintro ⟨result, done⟩ number
      obtain ⟨next, added, rest⟩ := Fault.bind_eq_ok.mp done
      obtain ⟨nextFits, rfl⟩ := checked_eq_ok.mp added
      cases number with
      | zero => simpa using fits
      | succ number =>
        rw [List.take_succ_cons, List.sum_cons, ← add_assoc]
        exact (inductionHypothesis nextFits).mp ⟨result, rest⟩ number
    · intro onWay
      have nextFits : (start + count).inRange := by simpa using onWay 1
      have later : ∀ number, (start + count + (counts.take number).sum).inRange := by
        intro number
        have next := onWay (number + 1)
        rwa [List.take_succ_cons, List.sum_cons, ← add_assoc] at next
      obtain ⟨result, done⟩ := (inductionHypothesis nextFits).mpr later
      exact ⟨result, Fault.bind_eq_ok.mpr ⟨_, checked_of_inRange nextFits, done⟩⟩

/-- There is a total when no partial sum leaves its word. -/
theorem total_ends_iff {counts : List Count} :
    (∃ result, total counts = .ok result) ↔ ∀ number, (counts.take number).sum.inRange := by
  have onWay : (∃ result, counts.foldlM plus 0 = .ok result) ↔
      ∀ number, (0 + (counts.take number).sum).inRange := foldlM_plus_ends_iff (by decide)
  simp only [zero_add] at onWay
  exact onWay

/-! ### Faults -/

/-- The check fails by an overflow only. -/
theorem checked_only (count : Count) : Fault.Only .counterOverflow count.checked := by
  unfold checked
  split
  · exact Fault.only_ok _
  · rintro _ ⟨⟩
    rfl

/-- Summing up fails by an overflow only. -/
theorem total_only (counts : List Count) : Fault.Only .counterOverflow (total counts) :=
  Fault.Only.foldlM 0 fun state count _ => checked_only (state + count)

/-- Tallies with a sum in range have a total: no partial sum exceeds the whole. -/
theorem total_of_tallies {counts : List Count} (each : ∀ count ∈ counts, count.IsTally)
    (inRange : counts.sum.inRange) : total counts = .ok counts.sum := by
  have onward : ∀ (start : Count) (rest : List Count), start.IsTally →
      (∀ count ∈ rest, count.IsTally) → (start + rest.sum).inRange →
      rest.foldlM plus start = .ok (start + rest.sum) := by
    intro start rest
    induction rest generalizing start with
    | nil => simp [pure, Except.pure]
    | cons count rest inductionHypothesis =>
      intro isTally eachRest whole
      have eachLater : ∀ other ∈ rest, other.IsTally :=
        fun other member => eachRest other (List.mem_cons_of_mem _ member)
      have restTally := isTally_sum eachLater
      have nextTally := isTally.add (eachRest count (by simp))
      rw [List.sum_cons, ← add_assoc] at whole ⊢
      have fits := inRange_of_add nextTally restTally whole
      rw [List.foldlM_cons, plus, checked_of_inRange fits]
      exact inductionHypothesis _ nextTally eachLater whole
  have whole := onward 0 counts isTally_zero each (by rwa [zero_add])
  rwa [zero_add] at whole

end CodeCensus.Count
