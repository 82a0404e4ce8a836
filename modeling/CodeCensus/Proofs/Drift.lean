import CodeCensus.Files.Memory
import CodeCensus.Project.Session
import CodeCensus.Proofs.Evolution
import CodeCensus.Proofs.Reading
import CodeCensus.Proofs.Recount

/-!
# When counters drift

A session follows events one after the other, whatever becomes of each, while the files change as
they like. Every event reaches the tree by name. As long as no event takes away or replaces a class
or a function, which share names with files and directories, the audit of the tree stays silent; the
first event that does leaves an unbalanced parent behind.
-/

namespace CodeCensus

open Outline (Balanced Sound)

variable {tree : Tree} {shape : Rose Handle} {outline : Outline}

namespace Tree

/-- The first node with the given name inside the first node with the name of the scope. -/
def nodeWithin? (tree : Tree) (scope name : String) : Option Node :=
  (tree.findWithin? scope name).bind tree.node?

/-- The tree and its outline agree on what is taken away. -/
theorem Shows.remainder_iff (shows : tree.Shows shape outline) (scope name : String) :
    (∀ position unit, outline.findWithin? scope name = some (position, unit) →
      unit.label.kind.leavesRemainder = false) ↔
    ∀ node, tree.nodeWithin? scope name = some node → node.kind.leavesRemainder = false := by
  rcases shows.findWithin_cases scope name with
    ⟨absent, none_there⟩ | ⟨position, target, here, found, there⟩
  · simp [nodeWithin?, absent, none_there]
  · obtain ⟨_, subshaped⟩ := shows.shaped.at? here
    obtain ⟨node, live, -⟩ := subshaped.top
    have sameNode : tree.node? target.label = some node := live
    have sameKind : (tree.forest.facts target.label).kind = node.kind := by
      rw [Forest.facts_of_node? live]
      rfl
    simp [nodeWithin?, found, there, sameNode, sameKind]

end Tree

namespace Session

/-- The node that an event takes away or replaces. -/
def target? (session : Session) (files : Files) : FileEvent → Option Node
  | .deleted path => path.parentName?.bind fun scope =>
      session.tree.nodeWithin? scope path.fileName
  | .moved source _ => source.parentName?.bind fun scope =>
      session.tree.nodeWithin? scope source.fileName
  | .contentChanged path =>
    if session.settings.supports path then
      match session.settings.read files path with
      | .ok (some entry) => path.parentName?.bind fun scope =>
          session.tree.nodeWithin? scope entry.name
      | _ => none
    else
      none
  | _ => none

/-- Dispatches one event, whatever its result, with the files as they are then. -/
def advance (session : Session) (step : Files × FileEvent) : Except Fault Session := do
  let done ← session.dispatch step.1 step.2
  return done.session

/-- Dispatches events one after the other. -/
def follow (session : Session) (steps : List (Files × FileEvent)) : Except Fault Session :=
  steps.foldlM advance session

variable {settings : Settings} {files : Files} {path : Path} {outcome : Outcome}

/-- A changed tree whose balance is known. -/
def Settles (tree : Tree) (balanced : Prop) : Prop :=
  ∃ shape outline, tree.Shows shape outline ∧ outline.label.counts.inRange ∧
    (outline.Balanced ↔ balanced)

private theorem addPath_settles (shows : tree.Shows shape outline)
    (words : outline.label.counts.inRange)
    (done : addPath settings files tree path = .ok outcome) :
    Settles outcome.tree outline.Balanced := by
  have idle : Settles tree outline.Balanced := ⟨shape, outline, shows, words, Iff.rfl⟩
  unfold addPath at done
  split at done
  · obtain rfl := Except.ok.inj done
    exact idle
  · next scope _ =>
    obtain ⟨contents, read, rest⟩ := Fault.bind_eq_ok.mp done
    cases contents with
    | none =>
      obtain rfl := Except.ok.inj rest
      exact idle
    | some entry =>
      obtain ⟨-, ⟨later, laterShows⟩, -, -, laterWords⟩ := (shows.create scope entry).1 outcome rest
      exact ⟨later, _, laterShows, laterWords words,
        Outline.create_balanced (Settings.read_sound read).2.2 scope⟩

private theorem removePath_settles (shows : tree.Shows shape outline)
    (words : outline.label.counts.inRange) (balanced : outline.Balanced)
    (done : removePath tree path = .ok outcome) :
    Settles outcome.tree (∀ node, (path.parentName?.bind fun scope =>
      tree.nodeWithin? scope path.fileName) = some node → node.kind.leavesRemainder = false) := by
  unfold removePath at done
  split at done
  · next absent =>
    obtain rfl := Except.ok.inj done
    exact ⟨shape, outline, shows, words, iff_of_true balanced (by simp [absent])⟩
  · next scope found =>
    obtain ⟨-, ⟨later, laterShows⟩, -, -, laterWords⟩ :=
      (shows.delete scope path.fileName).1 outcome done
    refine ⟨later, _, laterShows, laterWords words, ?_⟩
    rw [found, Option.bind_some, ← shows.remainder_iff]
    exact balanced.delete_iff shows.module scope path.fileName

private theorem updatePath_settles (shows : tree.Shows shape outline)
    (words : outline.label.counts.inRange) (balanced : outline.Balanced)
    (done : updatePath settings files tree path = .ok outcome) :
    Settles outcome.tree (∀ node,
      (match settings.read files path with
        | .ok (some entry) => path.parentName?.bind fun scope =>
            tree.nodeWithin? scope entry.name
        | _ => none) = some node → node.kind.leavesRemainder = false) := by
  unfold updatePath at done
  split at done
  · next absent =>
    obtain rfl := Except.ok.inj done
    refine ⟨shape, outline, shows, words, iff_of_true balanced fun node found => ?_⟩
    rw [absent] at found
    split at found <;> cases found
  · next scope found =>
    obtain ⟨contents, read, rest⟩ := Fault.bind_eq_ok.mp done
    rw [read]
    cases contents with
    | none =>
      obtain rfl := Except.ok.inj rest
      exact ⟨shape, outline, shows, words, iff_of_true balanced (by simp)⟩
    | some entry =>
      obtain ⟨-, ⟨later, laterShows⟩, -, -, laterWords⟩ := (shows.update scope entry).1 outcome rest
      refine ⟨later, _, laterShows, laterWords words, ?_⟩
      simp only [found, Option.bind_some]
      rw [← shows.remainder_iff]
      exact balanced.update_iff shows.module (Settings.read_sound read).2.2 scope

/-- One event keeps a balanced tree balanced exactly when what it takes away leaves no remainder. -/
theorem apply_settles {session : Session} {event : FileEvent}
    (shows : session.tree.Shows shape outline) (words : outline.label.counts.inRange)
    (balanced : outline.Balanced)
    (done : apply session.settings files session.tree event = .ok outcome) :
    Settles outcome.tree (∀ node, session.target? files event = some node →
      node.kind.leavesRemainder = false) := by
  have idle : ∀ {target : Option Node}, target = none → Settles session.tree
      (∀ node, target = some node → node.kind.leavesRemainder = false) := by
    rintro _ rfl
    exact ⟨shape, outline, shows, words, iff_of_true balanced (by simp)⟩
  have kept : ∀ {later : Tree}, Settles later outline.Balanced → Settles later
      (∀ node, (none : Option Node) = some node → node.kind.leavesRemainder = false) := by
    rintro later ⟨laterShape, laterOutline, laterShows, laterWords, same⟩
    exact ⟨laterShape, laterOutline, laterShows, laterWords,
      iff_of_true (same.mpr balanced) (by simp)⟩
  cases event with
  | created path => exact kept (addPath_settles shows words done)
  | copied source target =>
    simp only [apply] at done
    split at done
    · exact kept (addPath_settles shows words done)
    · obtain rfl := Except.ok.inj done
      exact idle rfl
  | deleted path => exact removePath_settles shows words balanced done
  | moved source target =>
    obtain ⟨removed, taken, rest⟩ := Fault.bind_eq_ok.mp done
    obtain ⟨midShape, mid, midShows, midWords, same⟩ :=
      removePath_settles shows words balanced taken
    cases result : removed.result with
    | error cause =>
      rw [result] at rest
      obtain rfl := Except.ok.inj rest
      exact ⟨midShape, mid, midShows, midWords, same⟩
    | ok _ =>
      rw [result] at rest
      obtain ⟨laterShape, later, laterShows, laterWords, laterSame⟩ :=
        addPath_settles midShows midWords rest
      exact ⟨laterShape, later, laterShows, laterWords, laterSame.trans same⟩
  | contentChanged path =>
    simp only [apply] at done
    simp only [target?]
    split at done
    · next supported =>
      rw [if_pos supported]
      exact updatePath_settles shows words balanced done
    · next unsupported =>
      obtain rfl := Except.ok.inj done
      rw [if_neg unsupported]
      exact idle rfl
  | renamed path previous name =>
    simp only [apply] at done
    split at done
    · obtain rfl := Except.ok.inj done
      exact idle rfl
    · next scope _ =>
      obtain ⟨-, ⟨later, laterShows⟩, -, -, laterWords⟩ :=
        (shows.rename scope previous name).1 outcome done
      refine kept ⟨later, _, laterShows, laterWords words, ?_⟩
      exact Outline.rename_balanced scope previous name
  | propertyChanged path property =>
    obtain rfl := Except.ok.inj done
    exact idle rfl

/-- A fresh tree shows the balanced outline of the scan. -/
theorem freshTree_settles {project : Path} {fresh : Tree}
    (made : freshTree settings files project = .ok (.ok fresh)) : Settles fresh True := by
  obtain ⟨scanned, scan, grown⟩ := Fault.bind_eq_ok.mp made
  cases scanned with
  | error failure => cases grown
  | ok entry =>
    obtain ⟨-, kind, sound, words⟩ := Settings.scan_sound scan
    obtain ⟨ready, shape, shows⟩ := Tree.ofEntry_shows entry
    simp only [ready] at grown
    obtain rfl := Except.ok.inj (Except.ok.inj grown)
    have asModule := Entry.withKind_sound sound (by rw [kind]; rfl)
    have sameWords : (Outline.ofEntry (entry.withKind .module)).label.counts = entry.counts := by
      rw [Entry.withKind, Outline.ofEntry_branch]
    exact ⟨shape, _, shows, sameWords ▸ words, iff_true_intro asModule.1⟩

/-- A session starts with a balanced tree. -/
theorem start_settles {project : Path} {session : Session}
    (opened : start settings files project = .ok (.ok session)) :
    Settles session.tree True := by
  obtain ⟨fresh, made, rest⟩ := Fault.bind_eq_ok.mp opened
  cases fresh with
  | error failure => cases rest
  | ok tree =>
    obtain rfl := Except.ok.inj (Except.ok.inj rest)
    exact freshTree_settles made

/-- One step keeps the audit silent exactly when what it takes away leaves no remainder. -/
theorem advance_settles {session later : Session} {event : FileEvent}
    (settles : Settles session.tree True)
    (advanced : session.advance (files, event) = .ok later) :
    Settles later.tree (∀ node, session.target? files event = some node →
      node.kind.leavesRemainder = false) := by
  obtain ⟨shape, outline, shows, words, balanced⟩ := settles
  obtain ⟨step, dispatched, same⟩ := Fault.bind_eq_ok.mp advanced
  obtain ⟨outcome, applied, rest⟩ := Fault.bind_eq_ok.mp dispatched
  obtain rfl := Except.ok.inj rest
  obtain rfl := Except.ok.inj same
  exact apply_settles shows words (of_iff_true balanced) applied

/-- The audit of a changed tree is silent exactly if what its balance depends on holds. -/
theorem Settles.recount_iff {balanced : Prop} (settles : Settles tree balanced) :
    tree.recount = .ok [] ↔ balanced := by
  obtain ⟨shape, outline, shows, words, same⟩ := settles
  exact (shows.recount_iff words).trans same

private theorem follow_concat (session : Session) (steps : List (Files × FileEvent))
    (step : Files × FileEvent) :
    session.follow (steps ++ [step]) = (session.follow steps).bind fun now => now.advance step := by
  rw [follow, List.foldlM_append]
  change (session.follow steps).bind _ = _
  congr 1
  funext now
  simp

private theorem Settles.of_holds {balanced : Prop} (settles : Settles tree balanced)
    (holds : balanced) :
    Settles tree True := by
  obtain ⟨shape, outline, shows, words, same⟩ := settles
  exact ⟨shape, outline, shows, words, same.trans (iff_true_intro holds)⟩

/-- A session whose every step keeps the tree balanced has a balanced tree. -/
theorem follow_settles {session now : Session} {steps : List (Files × FileEvent)}
    (settles : Settles session.tree True)
    (keeps : ∀ earlier step, earlier ++ [step] <+: steps → ∀ before later,
      session.follow earlier = .ok before → before.advance step = .ok later →
      Settles before.tree True → Settles later.tree True)
    (followed : session.follow steps = .ok now) : Settles now.tree True := by
  induction steps using List.reverseRecOn generalizing now with
  | nil =>
    obtain rfl : session = now := Except.ok.inj followed
    exact settles
  | append_singleton steps step inductionHypothesis =>
    rw [follow_concat] at followed
    obtain ⟨before, reached, advanced⟩ := Fault.bind_eq_ok.mp followed
    have early := inductionHypothesis (fun earlier other sofar =>
      keeps earlier other (sofar.trans (List.prefix_append _ _))) reached
    exact keeps steps step (List.prefix_refl _) before now reached advanced early

/-- The audit of a session is silent after the opening and after every event that follows, whatever
the files are then, exactly when no event takes away or replaces a class or a function. -/
theorem recount_stays_empty_iff (settings : Settings) (files : Files) (project : Path)
    (session : Session) (opened : start settings files project = .ok (.ok session))
    (steps : List (Files × FileEvent)) :
    (∀ earlier, earlier <+: steps → ∀ now, session.follow earlier = .ok now →
      now.tree.recount = .ok []) ↔
    ∀ earlier files event, earlier ++ [(files, event)] <+: steps →
      ∀ now, session.follow earlier = .ok now → ∀ later, now.advance (files, event) = .ok later →
        ∀ node, now.target? files event = some node →
          node.kind ≠ .classLike ∧ node.kind ≠ .function := by
  have remainder_iff : ∀ kind : Kind, kind.leavesRemainder = false ↔
      kind ≠ .classLike ∧ kind ≠ .function := by
    rintro ((_ | _ | _ | _) | _) <;> decide
  simp only [← remainder_iff]
  have settles := start_settles opened
  have reach : ∀ {earlier : List (Files × FileEvent)} {step : Files × FileEvent}
      {now later : Session}, session.follow earlier = .ok now → now.advance step = .ok later →
      session.follow (earlier ++ [step]) = .ok later := by
    intro earlier step now later reached advanced
    rw [follow_concat]
    exact Fault.bind_eq_ok.mpr ⟨now, reached, advanced⟩
  constructor
  · intro silent earlier files event sofar now reached later advanced
    have nowSettles : Settles now.tree True := by
      refine follow_settles settles (fun first step within before next was is early => ?_) reached
      have further := within.trans ((List.prefix_append _ _).trans sofar)
      have nextSettles := advance_settles early is
      exact nextSettles.of_holds (nextSettles.recount_iff.mp (silent _ further next (reach was is)))
    exact (advance_settles nowSettles advanced).recount_iff.mp
      (silent _ sofar later (reach reached advanced))
  · intro harmless earlier sofar now reached
    refine (follow_settles settles ?_ reached).recount_iff.mpr trivial
    intro first step within before next was is early
    exact (advance_settles early is).of_holds
      (harmless first step.1 step.2 (within.trans sofar) before was next is)

/-- A method and a directory share a name. -/
def methodLikeDirectory : MemoryFiles :=
  (MemoryFiles.empty.addFile ["/", "p", "A.java"] "class A { void test() {} }".toUTF8).addFile
    ["/", "p", "test", "B.java"] "class B {}".toUTF8

/-- When the directory is deleted, the method of the same name leaves the tree, and the class keeps
counting it. -/
theorem deleted_directory_drifts : ∃ session,
    start .standard methodLikeDirectory.view ⟨"/p"⟩ = .ok (.ok session) ∧
    session.tree.recount = .ok [] ∧ ∃ later,
      session.advance ((methodLikeDirectory.remove ["/", "p", "test"]).view,
        .deleted ⟨"/p/test"⟩) = .ok later ∧
      later.tree.recount = .ok [⟨2, ⟨0, 1⟩, ⟨0, 0⟩⟩] := by
  have computed : (start .standard methodLikeDirectory.view ⟨"/p"⟩).toOption.any (fun opened =>
      opened.toOption.any fun session => decide (session.tree.recount = .ok []) &&
        (session.advance ((methodLikeDirectory.remove ["/", "p", "test"]).view,
          .deleted ⟨"/p/test"⟩)).toOption.any fun later =>
            decide (later.tree.recount = .ok [⟨2, ⟨0, 1⟩, ⟨0, 0⟩⟩])) = true := by
    decide +kernel
  obtain ⟨opened, started, ready⟩ := Fault.ok_of_any computed
  obtain ⟨session, rfl, checks⟩ := Fault.ok_of_any ready
  obtain ⟨silent, moves⟩ := Bool.and_eq_true_iff.mp checks
  obtain ⟨later, advanced, drifted⟩ := Fault.ok_of_any moves
  exact ⟨session, started, of_decide_eq_true silent, later, advanced, of_decide_eq_true drifted⟩

/-- When a file is deleted that shares its name with nothing, the counters stay right. -/
theorem deleted_file_keeps_silence : ∃ session,
    start .standard methodLikeDirectory.view ⟨"/p"⟩ = .ok (.ok session) ∧ ∃ later,
      session.follow [((methodLikeDirectory.remove ["/", "p", "A.java"]).view,
        .deleted ⟨"/p/A.java"⟩)] = .ok later ∧
      later.tree.recount = .ok [] := by
  let step : Files × FileEvent :=
    ((methodLikeDirectory.remove ["/", "p", "A.java"]).view, .deleted ⟨"/p/A.java"⟩)
  have computed : (start .standard methodLikeDirectory.view ⟨"/p"⟩).toOption.any (fun opened =>
      opened.toOption.any fun session => (session.target? step.1 step.2).all
          (fun node => decide (node.kind ≠ .classLike ∧ node.kind ≠ .function)) &&
        (session.follow [step]).toOption.any fun _ => true) = true := by
    decide +kernel
  obtain ⟨opened, started, ready⟩ := Fault.ok_of_any computed
  obtain ⟨session, rfl, checks⟩ := Fault.ok_of_any ready
  obtain ⟨harmless, moves⟩ := Bool.and_eq_true_iff.mp checks
  obtain ⟨later, followed, -⟩ := Fault.ok_of_any moves
  refine ⟨session, started, later, followed, ?_⟩
  refine (recount_stays_empty_iff _ _ _ session started [step]).mpr ?_ [step]
    (List.prefix_refl _) later followed
  rintro earlier files event ⟨rest, same⟩ now reached - - node found
  obtain rfl : earlier = [] := by
    cases earlier with
    | nil => rfl
    | cons first others => simp at same
  obtain ⟨sameStep, -⟩ := List.cons.inj same
  obtain rfl : session = now := Except.ok.inj reached
  rw [← sameStep, found, Option.all_some] at harmless
  exact of_decide_eq_true harmless

end Session

end CodeCensus
