import CodeCensus.Fault
import Mathlib.Data.List.Forall2

/-!
# Computations that may fault

A sequence of computations ends well exactly when each of them does.
-/

namespace CodeCensus.Fault

variable {α β : Type} {first : Except Fault α} {next : α → Except Fault β}

/-- Two steps give a result if the first gives a value from which the second gives the result. -/
theorem bind_eq_ok {result : β} :
    first.bind next = .ok result ↔ ∃ value, first = .ok value ∧ next value = .ok result := by
  cases first with
  | error fault => simp [Except.bind]
  | ok value => simp [Except.bind]

/-- A computation whose result passes a test has a result. -/
theorem ok_of_any {ε : Type} {computation : Except ε α} {test : α → Bool}
    (passes : computation.toOption.any test = true) :
    ∃ value, computation = .ok value ∧ test value = true := by
  cases computation with
  | error cause => cases passes
  | ok value => exact ⟨value, rfl, passes⟩

/-- A computation for each item ends well when all of them do, with their results in order. -/
theorem mapM_eq_ok {compute : α → Except Fault β} {items : List α} {results : List β} :
    items.mapM compute = .ok results ↔
      List.Forall₂ (fun item result => compute item = .ok result) items results := by
  induction items generalizing results with
  | nil =>
    rw [List.mapM_nil, List.forall₂_nil_left_iff]
    exact ⟨fun done => (Except.ok.inj done).symm, fun same => congrArg Except.ok same.symm⟩
  | cons item items inductionHypothesis =>
    rw [List.mapM_cons, List.forall₂_cons_left_iff]
    constructor
    · intro done
      obtain ⟨result, first, rest⟩ := bind_eq_ok.mp done
      obtain ⟨others, later, same⟩ := bind_eq_ok.mp rest
      exact ⟨result, others, first, inductionHypothesis.mp later, (Except.ok.inj same).symm⟩
    · rintro ⟨result, others, first, later, rfl⟩
      exact bind_eq_ok.mpr ⟨result, first, bind_eq_ok.mpr
        ⟨others, inductionHypothesis.mpr later, rfl⟩⟩

/-- When all computations end well, each item has its result among the results. -/
theorem mapM_mem {compute : α → Except Fault β} {items : List α} {results : List β} {item : α}
    (done : items.mapM compute = .ok results) (member : item ∈ items) :
    ∃ result ∈ results, compute item = .ok result := by
  have paired := mapM_eq_ok.mp done
  clear done
  induction paired with
  | nil => cases member
  | @cons first result _ _ here _ inductionHypothesis =>
    rcases List.mem_cons.mp member with rfl | later
    · exact ⟨result, by simp, here⟩
    · obtain ⟨other, otherMember, told⟩ := inductionHypothesis later
      exact ⟨other, List.mem_cons_of_mem _ otherMember, told⟩

/-- When all computations end well, each result is the result of some item. -/
theorem mapM_source {compute : α → Except Fault β} {items : List α} {results : List β} {result : β}
    (done : items.mapM compute = .ok results) (member : result ∈ results) :
    ∃ item ∈ items, compute item = .ok result := by
  have paired := mapM_eq_ok.mp done
  clear done
  induction paired with
  | nil => cases member
  | @cons first _ _ _ here _ inductionHypothesis =>
    rcases List.mem_cons.mp member with rfl | later
    · exact ⟨first, by simp, here⟩
    · obtain ⟨other, otherMember, told⟩ := inductionHypothesis later
      exact ⟨other, List.mem_cons_of_mem _ otherMember, told⟩

/-- When each result is what a function tells of its item, all results are. -/
theorem mapM_eq_map {compute : α → Except Fault β} {image : α → β} {items : List α}
    {results : List β} (done : items.mapM compute = .ok results)
    (each : ∀ item ∈ items, ∀ result, compute item = .ok result → result = image item) :
    results = items.map image := by
  have paired := mapM_eq_ok.mp done
  clear done
  induction paired with
  | nil => rfl
  | @cons item result items results here _ inductionHypothesis =>
    rw [List.map_cons, each item (by simp) result here,
      inductionHypothesis fun other member => each other (by simp [member])]

/-- Computations for all items end well together when each of them does. -/
theorem mapM_ends_iff {compute : α → Except Fault β} {items : List α} :
    (∃ results, items.mapM compute = .ok results) ↔
      ∀ item ∈ items, ∃ result, compute item = .ok result := by
  constructor
  · rintro ⟨results, done⟩ item member
    obtain ⟨result, -, here⟩ := mapM_mem done member
    exact ⟨result, here⟩
  · intro each
    induction items with
    | nil => exact ⟨[], rfl⟩
    | cons item items inductionHypothesis =>
      obtain ⟨result, first⟩ := each item (by simp)
      obtain ⟨results, rest⟩ := inductionHypothesis fun other member => each other (by simp [member])
      exact ⟨result :: results, mapM_eq_ok.mpr (.cons first (mapM_eq_ok.mp rest))⟩

/-- Computations that agree on all items have the same results for them. -/
theorem mapM_congr {compute other : α → Except Fault β} {items : List α}
    (same : ∀ item ∈ items, compute item = other item) : items.mapM compute = items.mapM other := by
  induction items with
  | nil => rfl
  | cons item items inductionHypothesis =>
    rw [List.mapM_cons, List.mapM_cons, same item (by simp),
      inductionHypothesis fun later member => same later (by simp [member])]

/-- Computations for items that go together in pairs have the same results where each pair has. -/
theorem mapM_congr_pairs {γ : Type} {compute : α → Except Fault β} {other : γ → Except Fault β}
    {items : List α} {images : List γ}
    (same : List.Forall₂ (fun item image => compute item = other image) items images) :
    items.mapM compute = images.mapM other := by
  induction same with
  | nil => rfl
  | cons first _ inductionHypothesis =>
    rw [List.mapM_cons, List.mapM_cons, first, inductionHypothesis]

/-! ### Which faults there can be -/

/-- The fault that a computation ends in. -/
def stop? : Except Fault α → Option Fault
  | .error fault => some fault
  | .ok _ => none

/-- What stops a computation is its fault. -/
theorem stop?_eq_some {computation : Except Fault α} {fault : Fault} :
    stop? computation = some fault ↔ computation = .error fault := by
  cases computation <;> simp [stop?]

/-- Two steps fail if the first does, or the second after it. -/
theorem bind_eq_error {fault : Fault} : first.bind next = .error fault ↔
    first = .error fault ∨ ∃ value, first = .ok value ∧ next value = .error fault := by
  cases first with
  | error other => simp [Except.bind]
  | ok value => simp [Except.bind]

/-- What cannot fault itself adds no fault. -/
theorem bind_total_eq_error {fault : Fault} {finish : α → β} :
    (first.bind fun value => .ok (finish value)) = .error fault ↔ first = .error fault := by
  simp [bind_eq_error]

/-- Nothing stops the computation but one fault. -/
def Only (fault : Fault) (computation : Except Fault α) : Prop :=
  ∀ other, computation = .error other → other = fault

variable {fault : Fault} {computation : Except Fault α}

/-- A computation that ends fails by nothing. -/
theorem only_ok (value : α) : Only fault (.ok value : Except Fault α) :=
  fun _ impossible => nomatch impossible

/-- A computation either has a result or ends in the only fault there can be. -/
theorem Only.ends (only : Only fault computation) :
    (∃ value, computation = .ok value) ∨ computation = .error fault := by
  cases computation with
  | ok value => exact .inl ⟨value, rfl⟩
  | error other => exact .inr (congrArg Except.error (only other rfl))

/-- Two steps fail by one fault only if each of them does. -/
theorem Only.bind (only : Only fault first)
    (later : ∀ value, first = .ok value → Only fault (next value)) :
    Only fault (first.bind next) := by
  intro other faulted
  rcases bind_eq_error.mp faulted with early | ⟨value, done, late⟩
  · exact only other early
  · exact later value done other late

/-- A list is computed with one fault only if each item is. -/
theorem Only.mapM {compute : α → Except Fault β} {items : List α}
    (each : ∀ item ∈ items, Only fault (compute item)) : Only fault (items.mapM compute) := by
  induction items with
  | nil => exact only_ok _
  | cons item items inductionHypothesis =>
    rw [List.mapM_cons]
    apply (each item (by simp)).bind
    intro result _
    apply (inductionHypothesis fun other member => each other (List.mem_cons_of_mem _ member)).bind
    exact fun results _ => only_ok _

/-- Where there can be but one fault, it stops all computations when it stops one of them. -/
theorem Only.mapM_eq_error {compute : α → Except Fault β} {items : List α}
    (each : ∀ item ∈ items, Only fault (compute item)) :
    items.mapM compute = .error fault ↔ ∃ item ∈ items, compute item = .error fault := by
  constructor
  · intro faulted
    by_contra none_faults
    have all : ∃ results, items.mapM compute = .ok results := by
      apply mapM_ends_iff.mpr
      intro item member
      rcases (each item member).ends with ended | faults
      · exact ended
      · exact absurd ⟨item, member, faults⟩ none_faults
    obtain ⟨results, done⟩ := all
    rw [done] at faulted
    cases faulted
  · rintro ⟨item, member, faults⟩
    rcases (Only.mapM each).ends with ⟨results, done⟩ | faulted
    · obtain ⟨result, -, here⟩ := mapM_mem done member
      rw [faults] at here
      cases here
    · exact faulted

/-- A list is folded with one fault only if each step fails by no other. -/
theorem Only.foldlM {compute : β → α → Except Fault β} {items : List α} (start : β)
    (each : ∀ state, ∀ item ∈ items, Only fault (compute state item)) :
    Only fault (items.foldlM compute start) := by
  induction items generalizing start with
  | nil => exact only_ok _
  | cons item items inductionHypothesis =>
    rw [List.foldlM_cons]
    apply (each start item (by simp)).bind
    intro next _
    exact inductionHypothesis next
      fun state other member => each state other (List.mem_cons_of_mem _ member)

end CodeCensus.Fault
