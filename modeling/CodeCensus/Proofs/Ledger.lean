import CodeCensus.Files.Memory
import CodeCensus.Proofs.FailedEvent
import CodeCensus.Proofs.FreshScan
import CodeCensus.Proofs.Surplus
import Mathlib.Data.Finset.Card

/-!
# Counters within bounds

The ledger of a session lists the trees it went through since the last scan, and with them every node
that was ever materialized. Counters may drift away from the population they stand for, but whatever
the events and the files, they stay between the population and what was ever materialized. So as long
as the nodes of a whole ledger are fewer than a word can count, no counter leaves its word.
-/

namespace CodeCensus

namespace Tree

variable {tree : Tree} {history : List Tree} {handle : Handle} {node : Node}
  {mutation : Mutation} {outcome : Outcome} {test : Kind → Bool}

/-! ### What was ever materialized -/

/-- The handles of the live nodes whose kind passes a test. -/
def standing (tree : Tree) (test : Kind → Bool) : Finset Handle :=
  (Finset.range tree.forest.fresh).filter fun handle =>
    (tree.node? handle).any fun node => test node.kind

/-- The handles of the nodes whose kind passes a test, live in some tree of a history. -/
def materialized (history : List Tree) (test : Kind → Bool) : Finset Handle :=
  history.foldr (fun tree known => tree.standing test ∪ known) ∅

/-- How many classes and functions were live in some tree of a history. -/
def everCounted (history : List Tree) : Count :=
  ⟨(materialized history fun kind => kind = .classLike).card,
    (materialized history fun kind => kind = .function).card⟩

private theorem mem_standing : handle ∈ tree.standing test ↔
    ∃ node, tree.node? handle = some node ∧ test node.kind = true := by
  simp only [standing, Finset.mem_filter, Finset.mem_range, Option.any_eq_true]
  constructor
  · rintro ⟨-, found⟩
    exact found
  · rintro ⟨node, live, passes⟩
    exact ⟨Forest.lt_fresh_of_node? live, node, live, passes⟩

@[simp] theorem materialized_cons (tree : Tree) (history : List Tree) (test : Kind → Bool) :
    materialized (tree :: history) test = tree.standing test ∪ materialized history test := rfl

private theorem mem_materialized : handle ∈ materialized history test ↔
    ∃ tree ∈ history, handle ∈ tree.standing test := by
  induction history with
  | nil => simp [materialized]
  | cons tree history inductionHypothesis => simp [inductionHypothesis]

/-- Classes and functions are nodes. -/
theorem everCounted_le (history : List Tree) : everCounted history ≤
    ⟨(materialized history fun _ => true).card, (materialized history fun _ => true).card⟩ := by
  have less : ∀ test : Kind → Bool,
      (materialized history test).card ≤ (materialized history fun _ => true).card := by
    intro test
    apply Finset.card_le_card
    intro handle member
    obtain ⟨tree, inHistory, stands⟩ := mem_materialized.mp member
    obtain ⟨node, live, -⟩ := mem_standing.mp stands
    exact mem_materialized.mpr ⟨tree, inHistory, mem_standing.mpr ⟨node, live, rfl⟩⟩
  exact ⟨Int.ofNat_le.mpr (less _), Int.ofNat_le.mpr (less _)⟩

/-- What stands below a node was materialized. -/
theorem population_le_standing {shape : Rose Handle} {outline : Outline}
    (shows : tree.Shows shape outline) (live : tree.node? handle = some node) :
    tree.population handle ≤ everCounted [tree] := by
  have less : ∀ kind : Kind,
      tree.countBelow kind handle ≤ (materialized [tree] fun other => other = kind).card := by
    intro kind
    obtain ⟨distinct, -⟩ := shows.mem_below live
    rw [countBelow, List.countP_eq_length_filter,
      ← List.toFinset_card_of_nodup (distinct.filter _)]
    apply Finset.card_le_card
    intro lower member
    rw [List.mem_toFinset, List.mem_filter, Option.any_eq_true] at member
    exact mem_materialized.mpr ⟨tree, List.mem_singleton_self tree, mem_standing.mpr member.2⟩
  exact ⟨Int.ofNat_le.mpr (less _), Int.ofNat_le.mpr (less _)⟩

/-! ### Trees that a history accounts for -/

/-- Everything in a tree is known to a history, which knows no handle that is still to be given, and
the root counts no more than the history knows. -/
structure Accounted (tree : Tree) (history : List Tree) : Prop where
  shows : ∃ shape outline, tree.Shows shape outline
  surplus : tree.Surplus
  known : ∀ test, tree.standing test ⊆ materialized history test
  given : ∀ test, ∀ handle ∈ materialized history test, handle < tree.forest.fresh
  total : tree.total ≤ everCounted history

private theorem Accounted.congr {later : List Tree} (accounted : tree.Accounted history)
    (same : ∀ test, materialized later test = materialized history test) :
    tree.Accounted later := by
  refine ⟨accounted.shows, accounted.surplus, fun test => ?_, fun test => ?_, ?_⟩
  · rw [same]
    exact accounted.known test
  · rw [same]
    exact accounted.given test
  · rw [everCounted, same, same]
    exact accounted.total

/-- A tree that a history accounts for may be entered in it. -/
theorem Accounted.entered (accounted : tree.Accounted history) : tree.Accounted (tree :: history) :=
  accounted.congr fun test => Finset.union_eq_right.mpr (accounted.known test)

/-- Nodes that embody units are of their kinds. -/
theorem countP_embodied {handles : List Handle} {units : List Entry}
    (embodied : List.Forall₂ tree.Embodies handles units)
    (live : ∀ handle ∈ handles, ∃ node, tree.node? handle = some node) (test : Kind → Bool) :
    handles.countP (fun handle => (tree.node? handle).any fun node => test node.kind) =
      units.countP fun unit => test unit.kind := by
  induction embodied with
  | nil => rfl
  | @cons handle unit handles units here _ inductionHypothesis =>
    obtain ⟨node, found⟩ := live handle (by simp)
    have rest := inductionHypothesis fun other member => live other (List.mem_cons_of_mem _ member)
    rw [List.countP_cons, List.countP_cons, rest, found, Option.any_some, here.kind found]

/-- A mutation that succeeds makes as many nodes known as it brings: no handle is given twice. -/
theorem Accounted.arrivals_le (accounted : tree.Accounted history)
    (done : tree.mutate mutation = .ok outcome) (success : outcome.result = .ok ())
    (test : Kind → Bool) :
    (materialized history test).card + (tree.arrivals mutation).countP (fun unit => test unit.kind) ≤
      (materialized (outcome.tree :: history) test).card := by
  obtain ⟨shape, outline, shows⟩ := accounted.shows
  obtain ⟨-, -, continues, -⟩ := (shows.mutate mutation).1 outcome done
  obtain ⟨arrived, distinct, arrives, embodied⟩ := shows.arrivals_embodied done success
  let newcomers := (arrived.filter fun handle =>
    (outcome.tree.node? handle).any fun node => test node.kind).toFinset
  have number : newcomers.card =
      (tree.arrivals mutation).countP fun unit => test unit.kind := by
    rw [List.toFinset_card_of_nodup (distinct.filter _), ← List.countP_eq_length_filter]
    exact countP_embodied embodied (fun handle member => ((arrives handle).mp member).2) test
  have apart : Disjoint (materialized history test) newcomers := by
    rw [Finset.disjoint_left]
    intro handle member new
    rw [List.mem_toFinset, List.mem_filter] at new
    obtain ⟨gone, node, live⟩ := (arrives handle).mp new.1
    have stays := continues.retired handle (accounted.given test handle member) gone
    rw [node?, stays] at live
    cases live
  rw [← number, ← Finset.card_union_of_disjoint apart]
  apply Finset.card_le_card
  rw [materialized_cons, Finset.union_comm]
  apply Finset.union_subset_union_left
  intro handle new
  rw [List.mem_toFinset, List.mem_filter, Option.any_eq_true] at new
  exact mem_standing.mpr new.2

/-- A history that accounts for a tree accounts for what a mutation makes of it, with the tree that
results entered in it. -/
theorem Accounted.mutated (accounted : tree.Accounted history)
    (sound : ∀ entry, mutation.entry? = some entry → Outline.Sound entry)
    (done : tree.mutate mutation = .ok outcome) :
    outcome.tree.Accounted (outcome.tree :: history) := by
  obtain ⟨shape, outline, shows⟩ := accounted.shows
  obtain ⟨-, ⟨laterShape, laterShows⟩, continues, -⟩ := (shows.mutate mutation).1 outcome done
  have counted := shows.total_mutated accounted.surplus sound done
  refine ⟨⟨laterShape, _, laterShows⟩, shows.surplus_mutated accounted.surplus sound done,
    fun test => Finset.subset_union_left, fun test handle member => ?_, ?_⟩
  · rw [materialized_cons, Finset.mem_union] at member
    rcases member with stands | known
    · obtain ⟨node, live, -⟩ := mem_standing.mp stands
      exact Forest.lt_fresh_of_node? live
    · exact Nat.lt_of_lt_of_le (accounted.given test handle known) continues.slots
  · cases result : outcome.result with
    | error cause =>
      rw [((shows.course done).refusal_of_error result).2]
      exact accounted.entered.total
    | ok _ =>
      have classes := accounted.arrivals_le done result fun kind => kind = .classLike
      have functions := accounted.arrivals_le done result fun kind => kind = .function
      have known := accounted.total
      rw [Entry.tally_eq] at counted
      rw [Count.le_iff] at counted known ⊢
      simp only [Count.add_classes, Count.add_functions, everCounted] at counted known ⊢
      omega

/-- A mutation that brings nothing makes nothing known. -/
theorem Accounted.reduced (accounted : tree.Accounted history) (brings : mutation.entry? = none)
    (done : tree.mutate mutation = .ok outcome) : outcome.tree.Accounted history := by
  obtain ⟨shape, outline, shows⟩ := accounted.shows
  obtain ⟨-, -, continues, -⟩ := (shows.mutate mutation).1 outcome done
  have remains : ∀ test, outcome.tree.standing test ⊆ tree.standing test := by
    intro test handle member
    cases result : outcome.result with
    | error cause => rwa [((shows.course done).refusal_of_error result).2] at member
    | ok _ =>
      obtain ⟨arrived, -, arrives, embodied⟩ := shows.arrivals_embodied done result
      obtain ⟨node, live, passes⟩ := mem_standing.mp member
      cases was : tree.node? handle with
      | some old =>
        obtain ⟨sameKind, -⟩ := continues.steady handle old node was live
        exact mem_standing.mpr ⟨old, was, sameKind ▸ passes⟩
      | none =>
        obtain ⟨unit, unitMember, -⟩ :=
          unit_of_embodied embodied ((arrives handle).mpr ⟨was, node, live⟩)
        obtain ⟨entry, brought, -⟩ := entry_of_arrivals unitMember
        rw [brings] at brought
        cases brought
  refine (accounted.mutated (fun entry brought => ?_) done).congr fun test => ?_
  · rw [brings] at brought
    cases brought
  · exact (Finset.union_eq_right.mpr ((remains test).trans (accounted.known test))).symm

/-- As long as the nodes that are known and those that a mutation brings are fewer than a word can
count, the mutation ends. -/
theorem Accounted.mutation_ends (accounted : tree.Accounted history) (mutation : Mutation)
    (sound : ∀ entry, mutation.entry? = some entry → Outline.Sound entry)
    (room : (materialized history fun _ => true).card + Entry.nodes mutation.entry? < 2 ^ 63 - 1) :
    ∃ outcome, tree.mutate mutation = .ok outcome := by
  obtain ⟨shape, outline, shows⟩ := accounted.shows
  obtain ⟨nonneg, gain⟩ := gain_between sound
  have total := shows.within accounted.surplus (Rose.label_mem_labels shape)
  rw [shows.top, ← Tree.total] at total
  apply shows.mutation_ends accounted.surplus nonneg
  apply Count.inRange_of_le (add_nonneg total.1 nonneg)
    (add_le_add (accounted.total.trans (everCounted_le history)) gain)
  rw [Count.inRange_iff]
  simp only [Count.add_classes, Count.add_functions]
  omega

private theorem Accounted.recount_ends (accounted : tree.Accounted history)
    (few : (materialized history fun _ => true).card < 2 ^ 63 - 1) :
    ∃ found, tree.recount = .ok found := by
  obtain ⟨shape, outline, shows⟩ := accounted.shows
  have total := shows.within accounted.surplus (Rose.label_mem_labels shape)
  rw [shows.top, ← Tree.total] at total
  apply shows.recount_ends accounted.surplus
  apply Count.inRange_of_le total.1 (accounted.total.trans (everCounted_le history))
  rw [Count.inRange_iff]
  dsimp only
  omega

/-- Observers are not accounted for. -/
theorem Accounted.observed (accounted : tree.Accounted history) (observers : Observers) :
    Accounted { tree with observers } ({ tree with observers } :: history) := by
  obtain ⟨⟨shape, outline, shows⟩, surplus, known, given, total⟩ := accounted
  have carried : Accounted { tree with observers } history :=
    ⟨⟨shape, outline, shows.observed observers⟩, surplus, known, given, total⟩
  exact carried.entered

/-- A tree whose branches count what stands below them accounts for itself. -/
theorem accounted_of_truthful {shape : Rose Handle} {outline : Outline}
    (shows : tree.Shows shape outline) (truthful : tree.Truthful) : tree.Accounted [tree] := by
  have balanced := shows.truthful_iff.mp truthful
  refine ⟨⟨shape, outline, shows⟩, fun handle node live => ?_, fun test => ?_,
    fun test handle member => ?_, ?_⟩
  · exact (balanced handle (shows.live_iff.mp ⟨node, live⟩)).ge
  · exact Finset.subset_union_left
  · obtain ⟨other, inHistory, stands⟩ := mem_materialized.mp member
    obtain rfl := List.mem_singleton.mp inHistory
    obtain ⟨node, live, -⟩ := mem_standing.mp stands
    exact Forest.lt_fresh_of_node? live
  · obtain ⟨top, live, -⟩ := shows.root_live
    have branch : top.isLeaf = false := by
      have isModule := shows.module
      rw [← shows.facts, Rose.label_map, shows.top, Forest.facts_of_node? live] at isModule
      exact congrArg Kind.isLeaf isModule
    have counted := truthful tree.root top live branch
    rw [Tree.total, Forest.facts_of_node? live]
    exact counted.le.trans (population_le_standing shows live)

end Tree

namespace Session

open CodeCensus.Tree (Accounted materialized everCounted)

variable {settings : Settings} {files : Files} {tree : Tree} {history : List Tree} {path : Path}
  {event : FileEvent} {outcome : Outcome} {now : Session} {past : List Session}

/-! ### One event -/

/-- Mutates a tree by what is read at a path, in the scope of its directory. -/
def bring (mutation : String → Entry → Mutation) (settings : Settings) (files : Files) (tree : Tree)
    (path : Path) : Except Fault Outcome :=
  match path.parentName? with
  | none => .ok (unchanged tree)
  | some scope => do
    match ← settings.read files path with
    | none => return unchanged tree
    | some entry => tree.mutate (mutation scope entry)

private theorem bring_accounted (mutation : String → Entry → Mutation)
    (brings : ∀ scope entry, Mutation.entry? (mutation scope entry) = some entry)
    (accounted : tree.Accounted history)
    (done : bring mutation settings files tree path = .ok outcome) :
    outcome.tree.Accounted (outcome.tree :: history) := by
  unfold bring at done
  split at done
  · obtain rfl := Except.ok.inj done
    exact accounted.entered
  · next scope _ =>
    obtain ⟨brought, read, rest⟩ := Fault.bind_eq_ok.mp done
    cases brought with
    | none =>
      obtain rfl := Except.ok.inj rest
      exact accounted.entered
    | some entry =>
      have sound : ∀ other, Mutation.entry? (mutation scope entry) = some other → Outline.Sound other := by
        intro other same
        obtain rfl := Option.some.inj ((brings scope entry).symm.trans same)
        exact (Settings.read_sound read).2.2
      exact accounted.mutated sound rest

/-- What is read at a path finds room in the tree. -/
theorem bring_ends {brought : Option Entry} (mutation : String → Entry → Mutation)
    (brings : ∀ scope entry, Mutation.entry? (mutation scope entry) = some entry)
    (accounted : tree.Accounted history) (read : settings.read files path = .ok brought)
    (room : (materialized history fun _ => true).card + Entry.nodes brought < 2 ^ 63 - 1) :
    ∃ outcome, bring mutation settings files tree path = .ok outcome := by
  unfold bring
  split
  · exact ⟨_, rfl⟩
  · next scope _ =>
    rw [read]
    cases brought with
    | none => exact ⟨_, rfl⟩
    | some entry =>
      rw [← brings scope entry] at room
      apply accounted.mutation_ends (mutation scope entry) _ room
      intro other same
      obtain rfl := Option.some.inj ((brings scope entry).symm.trans same)
      exact (Settings.read_sound read).2.2

private theorem removePath_accounted (accounted : tree.Accounted history)
    (done : removePath tree path = .ok outcome) : outcome.tree.Accounted history := by
  rcases removePath_cases done with rfl | ⟨scope, name, removed⟩
  · exact accounted
  · exact accounted.reduced rfl removed

private theorem removePath_ends (accounted : tree.Accounted history) (path : Path)
    (few : (materialized history fun _ => true).card < 2 ^ 63 - 1) :
    ∃ outcome, removePath tree path = .ok outcome := by
  unfold removePath
  split
  · exact ⟨_, rfl⟩
  · next scope _ =>
    exact accounted.mutation_ends (.delete scope path.fileName)
      (fun _ impossible => nomatch impossible) few

/-- The path that is read for an event, where the event is one that brings something. -/
def source? (settings : Settings) : FileEvent → Option Path
  | .created path => some path
  | .copied source target => if settings.supports source then some target else none
  | .moved _ target => some target
  | .contentChanged path => if settings.supports path then some path else none
  | _ => none

/-- What applying an event to a tree comes to, where the given path is read for it: nothing, a mutation
that brings nothing, one that brings what is read, or a removal followed, if it succeeds, by such a
one. -/
inductive Applies (settings : Settings) (files : Files) (tree : Tree) (source? : Option Path) :
    Except Fault Outcome → Prop
  | idle : Applies settings files tree source? (.ok (unchanged tree))
  | renames (scope previous name : String) :
      Applies settings files tree source? (tree.mutate (.rename scope previous name))
  | removes (path : Path) : Applies settings files tree source? (removePath tree path)
  | brings {path : Path} (mutation : String → Entry → Mutation)
      (brought : ∀ scope entry, Mutation.entry? (mutation scope entry) = some entry)
      (read : source? = some path) :
      Applies settings files tree source? (bring mutation settings files tree path)
  | moves {path : Path} (source : Path) (read : source? = some path) :
      Applies settings files tree source? ((removePath tree source).bind fun removed =>
        match removed.result with
        | .error _ => .ok removed
        | .ok _ => bring .create settings files removed.tree path)

/-- Applying an event comes to one of the cases. -/
theorem applies (settings : Settings) (files : Files) (tree : Tree) (event : FileEvent) :
    Applies settings files tree (source? settings event) (apply settings files tree event) := by
  cases event with
  | created path => exact .brings .create (fun _ _ => rfl) rfl
  | copied source target =>
    simp only [apply]
    split
    · next supported => exact .brings .create (fun _ _ => rfl) (if_pos supported)
    · exact .idle
  | deleted path => exact .removes path
  | moved source target => exact .moves source rfl
  | contentChanged path =>
    simp only [apply]
    split
    · next supported => exact .brings .update (fun _ _ => rfl) (if_pos supported)
    · exact .idle
  | renamed path previous name =>
    simp only [apply]
    split
    · exact .idle
    · next scope _ => exact .renames scope previous name
  | propertyChanged path property => exact .idle

/-- A history that accounts for a tree accounts for what an event makes of it, with the tree that
results entered in it. Between the two halves of a move nothing is materialized. -/
theorem Applies.accounted {source? : Option Path} {computation : Except Fault Outcome}
    (applies : Applies settings files tree source? computation) (accounted : tree.Accounted history)
    (done : computation = .ok outcome) : outcome.tree.Accounted (outcome.tree :: history) := by
  cases applies with
  | idle =>
    obtain rfl := Except.ok.inj done
    exact accounted.entered
  | renames scope previous name => exact (accounted.reduced rfl done).entered
  | removes path => exact (removePath_accounted accounted done).entered
  | brings mutation brought _ => exact bring_accounted mutation brought accounted done
  | moves source _ =>
    obtain ⟨removed, taken, rest⟩ := Fault.bind_eq_ok.mp done
    have middle := removePath_accounted accounted taken
    split at rest
    · obtain rfl := Except.ok.inj rest
      exact middle.entered
    · exact bring_accounted .create (fun _ _ => rfl) middle rest

/-- An event whose reading ends is applied, as long as the nodes that are known and those that it
brings are fewer than a word can count. -/
theorem Applies.ends {source? : Option Path} {computation : Except Fault Outcome}
    {brought : Option Entry} (applies : Applies settings files tree source? computation)
    (accounted : tree.Accounted history)
    (read : source?.elim (.ok none) (settings.read files) = .ok brought)
    (room : (materialized history fun _ => true).card + Entry.nodes brought < 2 ^ 63 - 1) :
    ∃ outcome, computation = .ok outcome := by
  have few : (materialized history fun _ => true).card < 2 ^ 63 - 1 :=
    Nat.lt_of_le_of_lt (Nat.le_add_right _ _) room
  cases applies with
  | idle => exact ⟨_, rfl⟩
  | renames scope previous name => exact ⟨_, rfl⟩
  | removes path => exact removePath_ends accounted path few
  | brings mutation brings source =>
    subst source
    exact bring_ends mutation brings accounted read room
  | moves departed source =>
    subst source
    obtain ⟨removed, taken⟩ := removePath_ends accounted departed few
    have middle := removePath_accounted accounted taken
    simp only [taken, Except.bind]
    split
    · exact ⟨_, rfl⟩
    · exact bring_ends .create (fun _ _ => rfl) middle read room

/-- What is read for an event, where the event is one that brings something. -/
def reading (session : Session) (files : Files) : FileEvent → Except Fault (Option Entry)
  | .created path => session.settings.read files path
  | .copied source target =>
    if session.settings.supports source then session.settings.read files target else .ok none
  | .moved _ target => session.settings.read files target
  | .contentChanged path =>
    if session.settings.supports path then session.settings.read files path else .ok none
  | _ => .ok none

/-- A session reads the path that an event brings in, if it brings one in. -/
theorem reading_eq (session : Session) (files : Files) (event : FileEvent) :
    session.reading files event =
      (source? session.settings event).elim (.ok none) (session.settings.read files) := by
  cases event with
  | copied source target =>
    simp only [reading, source?]
    split <;> rfl
  | contentChanged path =>
    simp only [reading, source?]
    split <;> rfl
  | _ => rfl

/-! ### Whole sessions -/

/-- The states of a session since its tree was built, the present one apart and first. A new scan that
succeeds starts a new ledger; one that fails changes nothing. -/
inductive Ledger : Session → List Session → Prop
  | started {settings : Settings} {files : Files} {project : Path} {session : Session}
      (opened : start settings files project = .ok (.ok session)) : Ledger session []
  | refreshed {session : Session} {past : List Session} {files : Files} {step : Step Unit}
      (earlier : Ledger session past) (done : session.refresh files = .ok step)
      (succeeded : step.result = .ok ()) : Ledger step.session []
  | dispatched {session : Session} {past : List Session} {files : Files} {event : FileEvent}
      {step : Step Unit} (earlier : Ledger session past)
      (done : session.dispatch files event = .ok step) : Ledger step.session (session :: past)
  | observed {session : Session} {past : List Session} (earlier : Ledger session past)
      (observers : Observers) :
      Ledger { session with tree := { session.tree with observers } } (session :: past)

/-- Every session that can come about has a ledger. -/
theorem Reachable.ledger (reachable : now.Reachable) : ∃ past, Ledger now past := by
  induction reachable with
  | started opened => exact ⟨[], .started opened⟩
  | dispatched _ done inductionHypothesis =>
    obtain ⟨past, earlier⟩ := inductionHypothesis
    exact ⟨_, .dispatched earlier done⟩
  | @refreshed session files step _ done inductionHypothesis =>
    obtain ⟨past, earlier⟩ := inductionHypothesis
    cases result : step.result with
    | ok _ => exact ⟨[], .refreshed earlier done result⟩
    | error failure =>
      obtain ⟨fresh, -, rest⟩ := Fault.bind_eq_ok.mp done
      cases fresh with
      | error cause =>
        obtain rfl := Except.ok.inj rest
        exact ⟨past, earlier⟩
      | ok tree =>
        obtain rfl := Except.ok.inj rest
        cases result
  | observed _ observers inductionHypothesis =>
    obtain ⟨past, earlier⟩ := inductionHypothesis
    exact ⟨_, .observed earlier observers⟩

/-- The ledger of a session accounts for its tree. -/
theorem Ledger.accounted (ledger : Ledger now past) :
    now.tree.Accounted ((now :: past).map Session.tree) := by
  have truthful : ∀ {tree : Tree}, Settles tree True → tree.Accounted [tree] := by
    intro tree settles
    obtain ⟨shape, outline, shows, -⟩ := id settles
    exact Tree.accounted_of_truthful shows settles.truthful.2
  induction ledger with
  | started opened => exact truthful (start_settles opened)
  | refreshed _ done succeeded _ => exact truthful (refresh_settles done succeeded)
  | dispatched _ done inductionHypothesis =>
    obtain ⟨outcome, applied, same⟩ := Fault.bind_eq_ok.mp done
    obtain rfl := Except.ok.inj same
    exact (applies _ _ _ _).accounted inductionHypothesis applied
  | observed _ observers inductionHypothesis => exact inductionHypothesis.observed observers

/-- An event whose reading ends leads to a step, as long as the nodes in the ledger and those that it
brings are fewer than a word can count. -/
theorem Ledger.dispatch_ends {brought : Option Entry} (ledger : Ledger now past)
    (read : now.reading files event = .ok brought)
    (room : (materialized ((now :: past).map Session.tree) fun _ => true).card +
      Entry.nodes brought < 2 ^ 63 - 1) : ∃ step, now.dispatch files event = .ok step := by
  rw [reading_eq] at read
  obtain ⟨outcome, applied⟩ := (applies _ _ _ event).ends ledger.accounted read room
  exact ⟨_, Fault.bind_eq_ok.mpr ⟨outcome, applied, rfl⟩⟩

/-- Whatever happened to a session, each node counts at least the classes and functions below it, and
at most those that were materialized since its tree was built. As long as fewer nodes were
materialized than a word can count, no counter leaves its word: neither in an audit nor in any event
for which the files can be read. -/
theorem counters_stay_in_bounds :
    (∀ session : Session, session.Reachable → ∃ past, Ledger session past) ∧
    ∀ now past, Ledger now past →
      (∀ handle node, now.tree.node? handle = some node → 0 ≤ node.counts ∧
        now.tree.population handle ≤ node.counts ∧
        node.counts ≤ everCounted ((now :: past).map Session.tree)) ∧
      ((materialized ((now :: past).map Session.tree) fun _ => true).card < 2 ^ 63 - 1 →
        ∃ found, now.tree.recount = .ok found) ∧
      ∀ files event brought, now.reading files event = .ok brought →
        (materialized ((now :: past).map Session.tree) fun _ => true).card + Entry.nodes brought <
          2 ^ 63 - 1 →
        ∃ step, now.dispatch files event = .ok step := by
  refine ⟨fun _ reachable => reachable.ledger, fun now past ledger => ?_⟩
  have accounted := ledger.accounted
  refine ⟨fun handle node live => ?_, accounted.recount_ends, ?_⟩
  · obtain ⟨shape, outline, shows⟩ := accounted.shows
    obtain ⟨atLeast, atMost⟩ := shows.counts_between accounted.surplus live
    have nonneg := (shows.within accounted.surplus (shows.live_iff.mp ⟨node, live⟩)).1
    rw [Forest.facts_of_node? live] at nonneg
    exact ⟨nonneg, atLeast, atMost.trans accounted.total⟩
  · intro files event brought read room
    exact ledger.dispatch_ends read room

/-- After the method left the tree with the directory of its name, its class counts one function
more than stands below it, and no more than ever was there. The directory can come back. -/
theorem drifted_class_is_in_bounds : ∃ session later,
    start .standard methodLikeDirectory.view ⟨"/p"⟩ = .ok (.ok session) ∧
    session.advance ((methodLikeDirectory.remove ["/", "p", "test"]).view,
      .deleted ⟨"/p/test"⟩) = .ok later ∧ Ledger later [session] ∧
    later.tree.population 2 = 0 ∧ everCounted [later.tree, session.tree] = ⟨2, 1⟩ ∧
    (∃ node, later.tree.node? 2 = some node ∧ node.counts = ⟨0, 1⟩ ∧
      0 ≤ node.counts ∧ later.tree.population 2 ≤ node.counts ∧
      node.counts ≤ everCounted [later.tree, session.tree]) ∧
    (∃ found, later.tree.recount = .ok found) ∧
    ∃ step, later.dispatch methodLikeDirectory.view (.created ⟨"/p/test"⟩) = .ok step := by
  let gone : Files × FileEvent :=
    ((methodLikeDirectory.remove ["/", "p", "test"]).view, .deleted ⟨"/p/test"⟩)
  have computed : (start .standard methodLikeDirectory.view ⟨"/p"⟩).toOption.any (fun opened =>
      opened.toOption.any fun session => (session.dispatch gone.1 gone.2).toOption.any fun step =>
        let later := step.session
        decide (later.tree.population 2 = 0) &&
        decide (everCounted [later.tree, session.tree] = ⟨2, 1⟩) &&
        (later.tree.node? 2).any (fun node => decide (node.counts = ⟨0, 1⟩)) &&
        (later.reading methodLikeDirectory.view (.created ⟨"/p/test"⟩)).toOption.any fun brought =>
          decide ((materialized [later.tree, session.tree] fun _ => true).card +
            Entry.nodes brought < 2 ^ 63 - 1)) = true := by
    decide +kernel
  obtain ⟨opened, started, ready⟩ := Fault.ok_of_any computed
  obtain ⟨session, rfl, moves⟩ := Fault.ok_of_any ready
  obtain ⟨step, dispatched, checks⟩ := Fault.ok_of_any moves
  simp only [Bool.and_eq_true, decide_eq_true_eq] at checks
  obtain ⟨⟨⟨population, ever⟩, drifted⟩, reads⟩ := checks
  obtain ⟨node, live, counts⟩ := (Option.any_eq_true _ _).mp drifted
  obtain ⟨brought, read, roomy⟩ := Fault.ok_of_any reads
  have room := of_decide_eq_true roomy
  have advanced : session.advance gone = .ok step.session :=
    Fault.bind_eq_ok.mpr ⟨step, dispatched, rfl⟩
  have ledger : Ledger step.session [session] := .dispatched (.started started) dispatched
  obtain ⟨bounds, audited, applied⟩ := counters_stay_in_bounds.2 _ _ ledger
  refine ⟨session, step.session, started, advanced, ledger, population, ever,
    ⟨node, live, of_decide_eq_true counts, bounds 2 node live⟩, audited ?_,
    applied _ _ brought read room⟩
  exact Nat.lt_of_le_of_lt (Nat.le_add_right _ _) room

end Session

end CodeCensus
