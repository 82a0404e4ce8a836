import CodeCensus.Proofs.Excess
import CodeCensus.Proofs.Lookup
import CodeCensus.Proofs.Revision

/-!
# Alterations

A creation or a deletion finds its nodes by name, and then it alters the tree of handles: the
counters on the way to one node change, its children grow, or one of them is cut off. What an
alteration does to a handle does not depend on positions, so alterations commute handle by handle,
except for the order in which one node gets two new children. A mutation does the same to every
revised tree in which its names find the same handles.
-/

namespace CodeCensus

/-- A mutation that adds an entry or removes a unit. -/
inductive Mutation.AddsOrRemoves : Mutation → Prop
  | create (scope : String) (entry : Entry) : AddsOrRemoves (.create scope entry)
  | delete (scope name : String) : AddsOrRemoves (.delete scope name)

/-- The names that a mutation looks for. -/
def Mutation.sought : Mutation → List String
  | .create scope _ => [scope]
  | .update scope entry => [scope, entry.name]
  | .rename scope previous _ => [scope, previous]
  | .delete scope name => [scope, name]

/-- The names of the units that a mutation makes of an entry, at any depth. -/
def Mutation.made (mutation : Mutation) : List String :=
  mutation.entry?.toList.flatMap fun entry => (Outline.ofEntry entry).labels.map Facts.name

/-! ### Alterations -/

/-- What a creation or a deletion does to a tree of handles. -/
structure Alteration where
  /-- Where counters change. -/
  way : List Handle
  delta : Count
  /-- The node that is taken away, with its subtree. -/
  cut : Option Handle
  /-- The node whose children grow. -/
  under : Handle
  grown : List Outline

namespace Revision

variable {revision : Revision Handle Facts} {first second : Alteration}

/-- The revision that leaves everything as it is. -/
def plain (facts : Handle → Facts) : Revision Handle Facts :=
  ⟨facts, fun _ => false, fun _ => []⟩

/-- The revision with an alteration on top. -/
def alter (revision : Revision Handle Facts) (alteration : Alteration) :
    Revision Handle Facts where
  image handle :=
    if handle ∈ alteration.way then (revision.image handle).raise alteration.delta
    else revision.image handle
  gone handle := revision.gone handle || decide (alteration.cut = some handle)
  extra handle :=
    if handle = alteration.under then revision.extra handle ++ alteration.grown
    else revision.extra handle

/-- Alterations commute, unless both have children for one node. -/
theorem alter_comm
    (apart : first.under = second.under → first.grown = [] ∨ second.grown = []) :
    (revision.alter first).alter second = (revision.alter second).alter first := by
  ext1
  · funext handle
    have swapped : ((revision.image handle).raise first.delta).raise second.delta =
        ((revision.image handle).raise second.delta).raise first.delta := by
      have sum := congrFun (Facts.raise_raise first.delta second.delta) (revision.image handle)
      rw [add_comm, ← Facts.raise_raise] at sum
      exact sum
    by_cases onFirst : handle ∈ first.way <;> by_cases onSecond : handle ∈ second.way <;>
      simp [alter, onFirst, onSecond, swapped]
  · funext handle
    simp only [alter, Bool.or_assoc, Bool.or_comm (decide (first.cut = some handle))]
  · funext handle
    by_cases underFirst : handle = first.under
    · by_cases underSecond : handle = second.under
      · rcases apart (underFirst.symm.trans underSecond) with none | none <;>
          simp [alter, none]
      · simp only [alter, if_pos underFirst, if_neg underSecond]
    · simp only [alter, if_neg underFirst]

end Revision

/-! ### What a mutation resolves to -/

namespace Rose

variable {shape subshape cut : Rose Handle} {position upper lower : Position}

/-- The first handle that shows a name. -/
def named? (shape : Rose Handle) (facts : Handle → Facts) (name : String) :
    Option (Position × Rose Handle) :=
  shape.locate? fun handle => (facts handle).name == name

/-- What is found under a name has the name. -/
theorem name_of_named? {facts : Handle → Facts} {name : String}
    (found : shape.named? facts name = some (position, subshape)) :
    (facts subshape.label).name = name := by
  simpa using List.find?_some found

/-- A label on the way to a position is at a position further up. -/
theorem exists_of_mem_spine {α : Type} {tree subtree : Rose α} {label : α}
    (here : tree.at? position = some subtree) (onWay : label ∈ tree.spine position) :
    ∃ upper lower above, position = upper ++ lower ∧ tree.at? upper = some above ∧
      above.label = label ∧ above.at? lower = some subtree := by
  induction position generalizing tree with
  | nil =>
    obtain rfl : label = tree.label := List.mem_singleton.mp onWay
    exact ⟨[], [], tree, rfl, rfl, rfl, here⟩
  | cons index rest inductionHypothesis =>
    obtain ⟨child, found, below⟩ := Option.bind_eq_some_iff.mp here
    rw [spine, found, List.mem_cons] at onWay
    rcases onWay with rfl | further
    · exact ⟨[], index :: rest, tree, rfl, rfl, rfl, here⟩
    · obtain ⟨upper, lower, above, rfl, there, named, onward⟩ := inductionHypothesis below further
      refine ⟨index :: upper, lower, above, rfl, ?_, named, onward⟩
      rw [at?_cons, found, Option.bind_some, there]

/-- What is on the way to a node has the node below it. -/
theorem mem_labels_of_top_mem_spine (distinct : shape.labels.Nodup)
    (here : shape.at? position = some subshape) (there : shape.at? upper = some cut)
    (onWay : cut.label ∈ shape.spine position) : subshape.label ∈ cut.labels := by
  obtain ⟨way, rest, above, rfl, aboveHere, same, onward⟩ := exists_of_mem_spine here onWay
  obtain rfl := (position_eq_iff distinct aboveHere there).mpr same
  obtain rfl := Option.some.inj (aboveHere.symm.trans there)
  exact label_mem_of_at? onward

/-- The way on from a node is part of the whole way. -/
theorem mem_spine_of_below {handle : Handle} (here : shape.at? upper = some subshape)
    (onWay : handle ∈ subshape.spine lower) : handle ∈ shape.spine (upper ++ lower) := by
  induction upper generalizing shape with
  | nil =>
    obtain rfl : shape = subshape := Option.some.inj here
    exact onWay
  | cons index rest inductionHypothesis =>
    obtain ⟨child, found, below⟩ := Option.bind_eq_some_iff.mp here
    rw [List.cons_append, spine, found]
    exact List.mem_cons_of_mem _ (inductionHypothesis below)

end Rose

/-- Which handles of a shape a creation or a deletion resolves to, and what it plans: to refuse, to do
nothing, or an alteration. -/
inductive Resolution (shape : Rose Handle) (facts : Handle → Facts) :
    Mutation → List Handle → Except TreeError (Option Alteration) → Prop
  | nowhere {scope : String} {entry : Entry} (missing : shape.named? facts scope = none) :
      Resolution shape facts (.create scope entry) [] (.ok none)
  | inLeaf {scope : String} {entry : Entry} {position : Position} {within : Rose Handle}
      (found : shape.named? facts scope = some (position, within))
      (leaf : (facts within.label).kind.isLeaf = true) :
      Resolution shape facts (.create scope entry) [within.label]
        (.error (.notABranch (facts within.label).name))
  | created {scope : String} {entry : Entry} {position : Position} {within : Rose Handle}
      (found : shape.named? facts scope = some (position, within))
      (branch : (facts within.label).kind.isLeaf = false) :
      Resolution shape facts (.create scope entry) [within.label]
        (.ok (some ⟨shape.spine position, entry.counts, none, within.label,
          [Outline.ofEntry entry]⟩))
  | noScope {scope name : String} (missing : shape.named? facts scope = none) :
      Resolution shape facts (.delete scope name) [] (.ok none)
  | noTarget {scope name : String} {upper : Position} {within : Rose Handle}
      (found : shape.named? facts scope = some (upper, within))
      (missing : within.named? facts name = none) :
      Resolution shape facts (.delete scope name) [within.label] (.ok none)
  | atRoot {scope name : String} {within target : Rose Handle}
      (found : shape.named? facts scope = some ([], within))
      (targetFound : within.named? facts name = some ([], target)) :
      Resolution shape facts (.delete scope name) [within.label, target.label]
        (.error (.rootDetach (facts target.label).name))
  | deleted {scope name : String} {upper lower above : Position} {index : Nat}
      {within target parent : Rose Handle}
      (found : shape.named? facts scope = some (upper, within))
      (targetFound : within.named? facts name = some (lower, target))
      (steps : upper ++ lower = above ++ [index])
      (parentHere : shape.at? above = some parent)
      (below : parent.children[index]? = some target) :
      Resolution shape facts (.delete scope name) [within.label, target.label, parent.label]
        (.ok (some ⟨shape.spine above, -(facts target.label).counts, some target.label,
          parent.label, []⟩))

namespace Revision

/-- The revision with what is planned on top. -/
def meet (revision : Revision Handle Facts) :
    Except TreeError (Option Alteration) → Revision Handle Facts
  | .ok (some alteration) => revision.alter alteration
  | .ok none => revision
  | .error _ => revision

/-- Plans can be carried out in any order, unless both have children for one node. -/
theorem meet_comm {revision : Revision Handle Facts}
    (first second : Except TreeError (Option Alteration))
    (apart : ∀ one other, first = .ok (some one) → second = .ok (some other) →
      one.under = other.under → one.grown = [] ∨ other.grown = []) :
    (revision.meet first).meet second = (revision.meet second).meet first := by
  match first, second with
  | .ok (some one), .ok (some other) => exact alter_comm (apart one other rfl rfl)
  | .ok (some _), .ok none | .ok (some _), .error _ => rfl
  | .ok none, .ok none | .ok none, .ok (some _) | .ok none, .error _ => rfl
  | .error _, .ok none | .error _, .ok (some _) | .error _, .error _ => rfl

/-- A revision under which a mutation resolves to the same handles. -/
structure Suits (revision : Revision Handle Facts) (shape : Rose Handle) (facts : Handle → Facts)
    (names : List String) (seen : List Handle) : Prop where
  name : ∀ handle, (revision.image handle).name = (facts handle).name
  kind : ∀ handle, (revision.image handle).kind = (facts handle).kind
  fresh : ∀ handle, ∀ grown ∈ revision.extra handle, ∀ new ∈ grown.labels, new.name ∉ names
  stays : ∀ position subshape, shape.at? position = some subshape → subshape.label ∈ seen →
    ∀ handle ∈ shape.spine position, revision.gone handle = false

variable {revision : Revision Handle Facts} {shape within target : Rose Handle}
  {facts : Handle → Facts} {names : List String} {seen : List Handle} {name : String}
  {upper lower position : Position}

/-- A revision that keeps everything as it is suits every mutation. -/
theorem plain_suits : (plain facts).Suits shape facts names seen :=
  ⟨fun _ => rfl, fun _ => rfl, nofun, fun _ _ _ _ _ _ => rfl⟩

/-- Nothing that is appended has a name that is looked for. -/
theorem Suits.unlike (suits : revision.Suits shape facts names seen) (sought : name ∈ names) :
    ∀ handle, ∀ grown ∈ revision.extra handle, ∀ new ∈ grown.labels, (new.name == name) = false := by
  intro handle grown isExtra new inGrown
  rw [beq_eq_false_iff_ne]
  rintro rfl
  exact suits.fresh handle grown isExtra new inGrown sought

/-- What a name finds below a node, it finds below the revised node. -/
theorem Suits.find? (suits : revision.Suits shape facts names seen)
    (here : shape.at? upper = some within)
    (found : within.named? facts name = some (lower, target)) (sought : name ∈ names)
    (resolved : target.label ∈ seen) :
    Outline.find? (within.revise revision) name =
      some (within.place revision lower, target.revise revision) := by
  have targetHere : shape.at? (upper ++ lower) = some target := by
    rw [Rose.at?_append, here, Option.bind_some, Rose.at?_of_locate? found]
  refine Rose.locate?_revise found (fun handle _ => by rw [suits.name])
    (fun handle _ => suits.unlike sought handle) fun handle onWay => ?_
  exact suits.stays _ _ targetHere resolved handle (Rose.mem_spine_of_below here onWay)

/-- What a name does not find below a node, it does not find below the revised node. -/
theorem Suits.find?_none (suits : revision.Suits shape facts names seen)
    (missing : within.named? facts name = none) (sought : name ∈ names) :
    Outline.find? (within.revise revision) name = none :=
  Rose.locate?_revise_none missing (fun handle _ => by rw [suits.name])
    fun handle _ => suits.unlike sought handle

/-! ### What an alteration does to the outline -/

/-- Below the node whose children change, an alteration says nothing but what is cut off. -/
theorem alter_agreesAt {alteration : Alteration} {subshape child : Rose Handle} {handle : Handle}
    (distinct : shape.labels.Nodup) (here : shape.at? position = some subshape)
    (way : alteration.way = shape.spine position) (under : alteration.under = subshape.label)
    (member : child ∈ subshape.children) (below : handle ∈ child.labels)
    (uncut : alteration.cut ≠ some handle) : (revision.alter alteration).AgreesAt revision handle where
  image := by
    have offWay := Rose.not_mem_spine_of_child distinct here member below
    simp only [alter, way, if_neg offWay]
  gone := by simp [alter, uncut]
  extra := by
    have apart : handle ≠ subshape.label := by
      rintro rfl
      exact Rose.not_mem_spine_of_child distinct here member below (Rose.label_mem_spine here)
    simp only [alter, under, if_neg apart]

/-- An alteration is one change of the outline. -/
theorem revise_alter {alteration : Alteration} {subshape : Rose Handle}
    (distinct : shape.labels.Nodup) (here : shape.at? position = some subshape)
    (stays : ∀ handle ∈ shape.spine position, revision.gone handle = false)
    (way : alteration.way = shape.spine position) (under : alteration.under = subshape.label)
    (cut : ∀ handle, alteration.cut = some handle →
      ∃ child ∈ subshape.children, handle ∈ child.labels) :
    shape.revise (revision.alter alteration) =
      (shape.revise revision).amend (Facts.raise alteration.delta)
        (fun _ => subshape.revise (revision.alter alteration)) (shape.place revision position) := by
  refine Rose.revise_along distinct here stays ?_ ?_ ?_ ?_
  · intro handle onWay _
    simp only [alter, way, if_pos onWay]
  · intro handle _ offWay _
    simp only [alter, way, if_neg offWay]
  · intro handle _ apart
    have uncut : alteration.cut ≠ some handle := by
      intro isCut
      obtain ⟨child, member, below⟩ := cut handle isCut
      rcases apart with onWay | outside
      · exact Rose.not_mem_spine_of_child distinct here member below onWay
      · exact outside (Rose.mem_labels_of_child member below)
    simp [alter, uncut]
  · intro handle _ outside
    have apart : handle ≠ subshape.label := by
      rintro rfl
      exact outside (Rose.label_mem_labels subshape)
    simp only [alter, under, if_neg apart]

/-- Children that grow are an exchange. -/
theorem revise_created {subshape : Rose Handle} (distinct : shape.labels.Nodup)
    (here : shape.at? position = some subshape)
    (stays : ∀ handle ∈ shape.spine position, revision.gone handle = false) (delta : Count)
    (grown : List Outline) :
    shape.revise (revision.alter ⟨shape.spine position, delta, none, subshape.label, grown⟩) =
      Outline.exchange delta (· ++ grown) (shape.place revision position)
        (shape.revise revision) := by
  have agree : ∀ child ∈ subshape.children, ∀ handle ∈ child.labels,
      (revision.alter ⟨shape.spine position, delta, none, subshape.label, grown⟩).AgreesAt
        revision handle :=
    fun child member handle below => alter_agreesAt distinct here rfl rfl member below nofun
  have uncut : ∀ handle, (none : Option Handle) = some handle →
      ∃ child ∈ subshape.children, handle ∈ child.labels := nofun
  rw [revise_alter distinct here stays rfl rfl uncut]
  refine Rose.amend_congr (Rose.at?_revise here stays) ?_
  have onWay := Rose.label_mem_spine here
  obtain ⟨label, children⟩ := subshape
  rw [Rose.revise_mk, Rose.revise_mk, Rose.row_congr agree]
  simp [alter, onWay]

/-- A child that is cut off is an exchange, where the index of the child may have changed. -/
theorem revise_deleted {parent : Rose Handle} {index : Nat} (distinct : shape.labels.Nodup)
    (here : shape.at? position = some parent) (below : parent.children[index]? = some target)
    (stays : ∀ handle ∈ shape.spine (position ++ [index]), revision.gone handle = false)
    (delta : Count) :
    ∃ later, shape.place revision (position ++ [index]) =
        shape.place revision position ++ [later] ∧
      shape.revise (revision.alter
          ⟨shape.spine position, delta, some target.label, parent.label, []⟩) =
        Outline.exchange delta (·.eraseIdx later) (shape.place revision position)
          (shape.revise revision) := by
  rw [Rose.spine_append here below] at stays
  have parentStays : ∀ handle ∈ shape.spine position, revision.gone handle = false :=
    fun handle onWay => stays handle (List.mem_append_left _ onWay)
  have targetStays : revision.gone target.label = false :=
    stays _ (List.mem_append_right _ (List.mem_singleton_self _))
  have cutBelow : ∀ handle, some target.label = some handle →
      ∃ child ∈ parent.children, handle ∈ child.labels := by
    rintro _ ⟨⟩
    exact ⟨target, List.mem_of_getElem? below, Rose.label_mem_labels target⟩
  have subDistinct := Rose.distinct_of_at? distinct here
  have onWay := Rose.label_mem_spine here
  rw [Rose.place_append _ _ here, revise_alter distinct here parentStays rfl rfl cutBelow]
  have there := Rose.at?_revise here parentStays
  have agree : ∀ child ∈ parent.children, ∀ handle ∈ child.labels, handle ≠ target.label →
      (revision.alter
        ⟨shape.spine position, delta, some target.label, parent.label, []⟩).AgreesAt
          revision handle := by
    intro child member handle inChild apart
    refine alter_agreesAt distinct here rfl rfl member inChild fun same => ?_
    exact apart (Option.some.inj same).symm
  obtain ⟨label, children⟩ := parent
  obtain ⟨before, after, rfl, rfl⟩ := Rose.children_split below
  obtain ⟨-, -, siblings⟩ := Rose.distinct_split subDistinct
  have apart : ∀ sibling ∈ before ++ after, ∀ handle ∈ sibling.labels, handle ≠ target.label := by
    rintro sibling member handle inSibling rfl
    exact (siblings sibling member _ inSibling).2 (Rose.label_mem_labels target)
  have onBefore := Rose.row_congr fun sibling member handle inSibling =>
    agree sibling (by simp [member]) handle inSibling
      (apart sibling (List.mem_append_left after member) handle inSibling)
  have onAfter := Rose.row_congr fun sibling member handle inSibling =>
    agree sibling (by simp [member]) handle inSibling
      (apart sibling (List.mem_append_right before member) handle inSibling)
  refine ⟨(before.filter revision.keeps).length, ?_, Rose.amend_congr there ?_⟩
  · rw [Rose.place_split, Rose.place_nil]
  · have leaves : (revision.alter
        ⟨shape.spine position, delta, some target.label, label, []⟩).keeps target = false := by
      simp [keeps, alter]
    rw [Rose.revise_split targetStays, Rose.revise_mk, List.filter_append,
      List.filter_cons_of_neg (by simp [leaves]), List.map_append, onBefore, onAfter]
    simp [alter, onWay, List.eraseIdx_append_of_length_le]

end Revision

namespace Resolution

variable {shape : Rose Handle} {facts : Handle → Facts} {mutation first second : Mutation}
  {seen firstSeen secondSeen : List Handle}
  {planned firstPlanned secondPlanned : Except TreeError (Option Alteration)}
  {revision : Revision Handle Facts} {alteration : Alteration}

/-- A mutation does to a revised tree what it plans, if it resolves to the same handles there and its
target counts the same. -/
theorem mutate (resolution : Resolution shape facts mutation seen planned)
    (distinct : shape.labels.Nodup) (suits : revision.Suits shape facts mutation.sought seen)
    (target : ∀ alteration, planned = .ok (some alteration) →
      ∀ handle, alteration.cut = some handle → revision.image handle = facts handle) :
    Outline.mutate (shape.revise revision) mutation =
      planned.map fun _ => shape.revise (revision.meet planned) := by
  have top := Rose.at?_nil shape
  cases resolution with
  | nowhere missing =>
    have there := suits.find?_none missing List.mem_cons_self
    simp [Outline.mutate, Outline.create, there, Except.map, Revision.meet]
  | inLeaf found leaf =>
    have there := suits.find? top found List.mem_cons_self List.mem_cons_self
    simp [Outline.mutate, Outline.create, there, suits.name, suits.kind, leaf, Except.map]
  | @created scope entry position within found branch =>
    have there := suits.find? top found List.mem_cons_self List.mem_cons_self
    have here := Rose.at?_of_locate? found
    have stays := suits.stays _ _ here List.mem_cons_self
    have exchanged := Revision.revise_created distinct here stays entry.counts
      [Outline.ofEntry entry]
    simp only [Outline.mutate, Outline.create, there, Rose.label_revise, suits.kind, branch,
      Except.map, Revision.meet, exchanged, Bool.false_eq_true, if_false]
  | noScope missing =>
    have there := suits.find?_none missing List.mem_cons_self
    simp [Outline.mutate, Outline.delete, Outline.findWithin?, there, Except.map, Revision.meet]
  | noTarget found missing =>
    have there := suits.find? top found List.mem_cons_self List.mem_cons_self
    have absent := suits.find?_none missing (List.mem_cons_of_mem _ List.mem_cons_self)
    simp [Outline.mutate, Outline.delete, Outline.findWithin?, there, absent, Except.map,
      Revision.meet]
  | atRoot found targetFound =>
    have there := suits.find? top found List.mem_cons_self List.mem_cons_self
    have sees := suits.find? (Rose.at?_of_locate? found) targetFound
      (List.mem_cons_of_mem _ List.mem_cons_self) (List.mem_cons_of_mem _ List.mem_cons_self)
    simp [Outline.mutate, Outline.delete, Outline.findWithin?, there, sees, suits.name, Except.map]
  | @deleted scope name upper lower above index within target' parent found targetFound steps
      parentHere below =>
    have there := suits.find? top found List.mem_cons_self List.mem_cons_self
    have withinHere := Rose.at?_of_locate? found
    have sees := suits.find? withinHere targetFound
      (List.mem_cons_of_mem _ List.mem_cons_self) (List.mem_cons_of_mem _ List.mem_cons_self)
    have targetHere : shape.at? (above ++ [index]) = some target' := by
      simp [Rose.at?_append, parentHere, below]
    have stays := suits.stays _ _ targetHere (List.mem_cons_of_mem _ List.mem_cons_self)
    obtain ⟨later, placed, exchanged⟩ := Revision.revise_deleted distinct parentHere below stays
      (-(facts target'.label).counts)
    have found? : Outline.findWithin? (shape.revise revision) scope name =
        some (shape.place revision above ++ [later], target'.revise revision) := by
      rw [Outline.findWithin?, there, Option.bind_some, sees, Option.map_some, ← placed, ← steps,
        Rose.place_append _ _ withinHere]
    have counts : (revision.image target'.label).counts = (facts target'.label).counts := by
      rw [target _ rfl _ rfl]
    simp only [Outline.mutate, Outline.delete, found?, List.getLast?_concat, List.dropLast_concat,
      Rose.label_revise, counts, Except.map, Revision.meet, exchanged]

/-! ### Resolving again -/

/-- Where an alteration changes counters, whose children grow by what, and what is cut off. -/
theorem altered (resolution : Resolution shape facts mutation seen (.ok (some alteration))) :
    (∃ position subshape, shape.at? position = some subshape ∧ subshape.label ∈ seen ∧
      alteration.way = shape.spine position) ∧
    (∀ grown ∈ alteration.grown, ∀ new ∈ grown.labels, new.name ∈ mutation.made) ∧
    ∀ handle, alteration.cut = some handle →
      ∃ position cut, shape.at? position = some cut ∧ cut.label = handle := by
  cases resolution with
  | @created scope entry position within found branch =>
    refine ⟨⟨position, within, Rose.at?_of_locate? found, List.mem_cons_self, rfl⟩, ?_, nofun⟩
    rintro _ (_ | ⟨_, ⟨⟩⟩) new member
    simpa [Mutation.made, Mutation.entry?] using ⟨new, member, rfl⟩
  | @deleted scope name upper lower above index within target parent found targetFound steps
      parentHere below =>
    refine ⟨⟨above, parent, parentHere, by simp, rfl⟩, nofun, ?_⟩
    rintro _ ⟨⟩
    exact ⟨above ++ [index], target, by simp [Rose.at?_append, parentHere, below], rfl⟩

/-- Only a creation lets children grow, below the unit that the name of its scope finds. -/
theorem grows (resolution : Resolution shape facts mutation seen (.ok (some alteration)))
    (grows : alteration.grown ≠ []) :
    ∃ scope entry position within, mutation = .create scope entry ∧
      shape.named? facts scope = some (position, within) ∧
      (facts within.label).kind.isLeaf = false ∧ alteration.under = within.label := by
  cases resolution with
  | created found branch => exact ⟨_, _, _, _, rfl, found, branch, rfl⟩
  | deleted => exact absurd rfl grows

/-- After what one mutation plans, another resolves to the same handles, if the names that the first
makes are not looked for and nothing that is resolved to is cut off. -/
theorem suits (resolution : Resolution shape facts first firstSeen firstPlanned)
    (distinct : shape.labels.Nodup) (names : ∀ name ∈ first.made, name ∉ second.sought)
    (nodes : ∀ alteration, firstPlanned = .ok (some alteration) → ∀ position cut,
      shape.at? position = some cut → alteration.cut = some cut.label →
        ∀ handle ∈ cut.labels, handle ∉ secondSeen) :
    (Revision.meet (.plain facts) firstPlanned).Suits shape facts second.sought secondSeen := by
  match firstPlanned with
  | .error _ => exact Revision.plain_suits
  | .ok none => exact Revision.plain_suits
  | .ok (some alteration) =>
    obtain ⟨-, fresh, -⟩ := resolution.altered
    refine ⟨fun handle => ?_, fun handle => ?_, fun handle grown isExtra new inGrown sought => ?_,
      fun position subshape here resolved handle onWay => ?_⟩
    · by_cases onWay : handle ∈ alteration.way <;>
        simp [Revision.meet, Revision.alter, Revision.plain, onWay]
    · by_cases onWay : handle ∈ alteration.way <;>
        simp [Revision.meet, Revision.alter, Revision.plain, onWay]
    · have isGrown : grown ∈ alteration.grown := by
        by_cases isUnder : handle = alteration.under
        · simpa [Revision.meet, Revision.alter, Revision.plain, isUnder] using isExtra
        · simp [Revision.meet, Revision.alter, Revision.plain, isUnder] at isExtra
      exact names _ (fresh grown isGrown new inGrown) sought
    · have uncut : alteration.cut ≠ some handle := by
        intro isCut
        obtain ⟨-, -, atCut⟩ := resolution.altered
        obtain ⟨upper, cut, there, rfl⟩ := atCut handle isCut
        exact nodes alteration rfl upper cut there isCut _
          (Rose.mem_labels_of_top_mem_spine distinct here there onWay) resolved
      simp [Revision.meet, Revision.alter, Revision.plain, uncut]

/-- What one mutation plans does not change what another cuts off, if what is cut off has nothing
that the first resolves to. -/
theorem target_kept (resolution : Resolution shape facts first firstSeen firstPlanned)
    (other : Resolution shape facts second secondSeen secondPlanned) (distinct : shape.labels.Nodup)
    (nodes : ∀ alteration, secondPlanned = .ok (some alteration) → ∀ position cut,
      shape.at? position = some cut → alteration.cut = some cut.label →
        ∀ handle ∈ cut.labels, handle ∉ firstSeen) :
    ∀ alteration, secondPlanned = .ok (some alteration) → ∀ handle, alteration.cut = some handle →
      (Revision.meet (.plain facts) firstPlanned).image handle = facts handle := by
  rintro alteration rfl handle isCut
  obtain ⟨-, -, atCut⟩ := other.altered
  obtain ⟨upper, cut, there, rfl⟩ := atCut handle isCut
  match firstPlanned with
  | .error _ => rfl
  | .ok none => rfl
  | .ok (some earlier) =>
    obtain ⟨⟨position, subshape, here, resolved, way⟩, -, -⟩ := resolution.altered
    have offWay : cut.label ∉ earlier.way := by
      intro onWay
      rw [way] at onWay
      exact nodes alteration rfl upper cut there isCut _
        (Rose.mem_labels_of_top_mem_spine distinct here there onWay) resolved
    simp [Revision.meet, Revision.alter, Revision.plain, offWay]

end Resolution

/-- Two creations below one unit append both entries, in their order. -/
theorem Outline.create_create {outline parent : Outline} {scope : String} {entry other : Entry}
    {position : Position} (found : outline.find? scope = some (position, parent))
    (branch : parent.label.kind.isLeaf = false) :
    ∃ middle, outline.create scope entry = .ok middle ∧ middle.create scope other =
      .ok (outline.exchange (entry.counts + other.counts)
        (· ++ [ofEntry entry, ofEntry other]) position) := by
  have again := find?_exchange entry.counts (· ++ [ofEntry entry]) found
  refine ⟨outline.exchange entry.counts (· ++ [ofEntry entry]) position, ?_, ?_⟩
  · simp only [create, found, branch, Bool.false_eq_true, if_false]
  · simp only [create, again, Facts.raise_kind, branch, Bool.false_eq_true, if_false,
      exchange_exchange, List.append_assoc, List.singleton_append]

end CodeCensus
