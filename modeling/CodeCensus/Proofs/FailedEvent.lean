import CodeCensus.Files.Memory
import CodeCensus.Project.Session
import CodeCensus.Proofs.Refusal

/-!
# Failed events

An event fails when the tree refuses a mutation. All events but moves make one mutation, so a failed
one leaves the session as it was. A move makes two, a removal and then an addition, and nothing takes
the first back: when the addition is refused, what is left is the session after the removal.
-/

namespace CodeCensus

namespace Tree

variable {first tree later : Tree}

private theorem Evolves.trans (firstly : first.Evolves tree) (secondly : tree.Evolves later) :
    first.Evolves later := by
  induction secondly with
  | refl => exact firstly
  | mutated _ done inductionHypothesis => exact .mutated inductionHypothesis done
  | observed _ observers inductionHypothesis => exact .observed inductionHypothesis observers

private theorem Reachable.evolves (reachable : tree.Reachable) (evolves : tree.Evolves later) :
    later.Reachable := by
  obtain ⟨entry, evolved⟩ := reachable
  exact ⟨entry, evolved.trans evolves⟩

/-- A failed mutation of a reachable tree changes nothing. -/
theorem Reachable.unchanged {mutation : Mutation} {outcome : Outcome} {cause : TreeError}
    (reachable : tree.Reachable) (done : tree.mutate mutation = .ok outcome)
    (failed : outcome.result = .error cause) : outcome.tree = tree := by
  obtain ⟨shape, outline, shows⟩ := reachable.shows
  exact ((shows.course done).refusal_of_error failed).2

end Tree

namespace Session

variable {settings : Settings} {files : Files} {tree : Tree} {path : Path} {outcome : Outcome}
  {session : Session} {event : FileEvent}

/-- The sessions that can come about: opened on a project, then led through any events and any new
scans, whatever came of them, with any files at each of them and any observers in between. -/
inductive Reachable : Session → Prop
  | started {settings : Settings} {files : Files} {project : Path} {session : Session}
      (opened : start settings files project = .ok (.ok session)) : Reachable session
  | dispatched {session : Session} {files : Files} {event : FileEvent} {step : Step Unit}
      (earlier : Reachable session) (done : session.dispatch files event = .ok step) :
      Reachable step.session
  | refreshed {session : Session} {files : Files} {step : Step Unit}
      (earlier : Reachable session) (done : session.refresh files = .ok step) :
      Reachable step.session
  | observed {session : Session} (earlier : Reachable session) (observers : Observers) :
      Reachable { session with tree := { session.tree with observers } }

/-! ### What an event makes of a tree -/

/-- What is at a path, added to a tree: nothing at all, or one creation. -/
theorem addPath_cases (done : addPath settings files tree path = .ok outcome) :
    outcome = unchanged tree ∨
      ∃ scope entry, tree.mutate (.create scope entry) = .ok outcome := by
  unfold addPath at done
  split at done
  · exact .inl (Except.ok.inj done).symm
  · next scope _ =>
    obtain ⟨contents, -, rest⟩ := Fault.bind_eq_ok.mp done
    cases contents with
    | none => exact .inl (Except.ok.inj rest).symm
    | some entry => exact .inr ⟨scope, entry, rest⟩

private theorem updatePath_cases (done : updatePath settings files tree path = .ok outcome) :
    outcome = unchanged tree ∨
      ∃ scope entry, tree.mutate (.update scope entry) = .ok outcome := by
  unfold updatePath at done
  split at done
  · exact .inl (Except.ok.inj done).symm
  · next scope _ =>
    obtain ⟨contents, -, rest⟩ := Fault.bind_eq_ok.mp done
    cases contents with
    | none => exact .inl (Except.ok.inj rest).symm
    | some entry => exact .inr ⟨scope, entry, rest⟩

/-- Removing a path leaves the tree alone or deletes one unit. -/
theorem removePath_cases (done : removePath tree path = .ok outcome) :
    outcome = unchanged tree ∨ ∃ scope name, tree.mutate (.delete scope name) = .ok outcome := by
  unfold removePath at done
  split at done
  · exact .inl (Except.ok.inj done).symm
  · next scope _ => exact .inr ⟨scope, path.fileName, done⟩

/-- An event does nothing, or makes one mutation, or is a move: a removal that is followed by an
addition if it succeeds. -/
theorem apply_cases (done : apply settings files tree event = .ok outcome) :
    outcome = unchanged tree ∨ (∃ mutation, tree.mutate mutation = .ok outcome) ∨
      ∃ source target removed, event = .moved source target ∧
        removePath tree source = .ok removed ∧ removed.result = .ok () ∧
        addPath settings files removed.tree target = .ok outcome := by
  have idleOrOne : ∀ {α β : Type} {mutation : α → β → Mutation},
      (outcome = unchanged tree ∨ ∃ first second, tree.mutate (mutation first second) = .ok outcome) →
      outcome = unchanged tree ∨ (∃ mutation, tree.mutate mutation = .ok outcome) ∨
        ∃ source target removed, event = .moved source target ∧
          removePath tree source = .ok removed ∧ removed.result = .ok () ∧
          addPath settings files removed.tree target = .ok outcome := by
    rintro α β mutation (idle | ⟨first, second, mutated⟩)
    · exact .inl idle
    · exact .inr (.inl ⟨_, mutated⟩)
  cases event with
  | created path => exact idleOrOne (addPath_cases done)
  | copied source target =>
    simp only [apply] at done
    split at done
    · exact idleOrOne (addPath_cases done)
    · exact .inl (Except.ok.inj done).symm
  | deleted path => exact idleOrOne (removePath_cases done)
  | moved source target =>
    obtain ⟨removed, taken, rest⟩ := Fault.bind_eq_ok.mp done
    cases result : removed.result with
    | error cause =>
      rw [result] at rest
      obtain rfl := Except.ok.inj rest
      exact idleOrOne (removePath_cases taken)
    | ok _ =>
      rw [result] at rest
      exact .inr (.inr ⟨source, target, removed, rfl, taken, result, rest⟩)
  | contentChanged path =>
    simp only [apply] at done
    split at done
    · exact idleOrOne (updatePath_cases done)
    · exact .inl (Except.ok.inj done).symm
  | renamed path previous name =>
    simp only [apply] at done
    split at done
    · exact .inl (Except.ok.inj done).symm
    · next scope _ => exact .inr (.inl ⟨.rename scope previous name, done⟩)
  | propertyChanged path property => exact .inl (Except.ok.inj done).symm

private theorem evolves_of_mutations {α β : Type} {mutation : α → β → Mutation}
    (ended : outcome = unchanged tree ∨
      ∃ first second, tree.mutate (mutation first second) = .ok outcome) :
    tree.Evolves outcome.tree := by
  rcases ended with rfl | ⟨first, second, done⟩
  · exact .refl
  · exact .mutated .refl done

/-- Events make a tree evolve. -/
theorem apply_evolves (done : apply settings files tree event = .ok outcome) :
    tree.Evolves outcome.tree := by
  rcases apply_cases done with
    rfl | ⟨mutation, mutated⟩ | ⟨source, target, removed, -, taken, -, added⟩
  · exact .refl
  · exact .mutated .refl mutated
  · exact (evolves_of_mutations (removePath_cases taken)).trans
      (evolves_of_mutations (addPath_cases added))

private theorem freshTree_reachable {project : Path}
    (made : freshTree settings files project = .ok (.ok tree)) :
    tree.Reachable := by
  obtain ⟨scanned, -, grown⟩ := Fault.bind_eq_ok.mp made
  cases scanned with
  | error failure => cases grown
  | ok entry =>
    obtain ⟨ready, -⟩ := Tree.ofEntry_shows entry
    simp only [ready] at grown
    obtain rfl := Except.ok.inj (Except.ok.inj grown)
    exact ⟨entry, .refl⟩

/-- The tree of a session is one that mutations made from an entry. -/
theorem Reachable.tree_reachable (reachable : session.Reachable) : session.tree.Reachable := by
  induction reachable with
  | started opened =>
    obtain ⟨fresh, made, rest⟩ := Fault.bind_eq_ok.mp opened
    cases fresh with
    | error failure => cases rest
    | ok tree =>
      obtain rfl := Except.ok.inj (Except.ok.inj rest)
      exact freshTree_reachable made
  | dispatched _ done inductionHypothesis =>
    obtain ⟨outcome, applied, same⟩ := Fault.bind_eq_ok.mp done
    obtain rfl := Except.ok.inj same
    exact inductionHypothesis.evolves (apply_evolves applied)
  | refreshed _ done inductionHypothesis =>
    obtain ⟨fresh, made, rest⟩ := Fault.bind_eq_ok.mp done
    cases fresh with
    | error failure =>
      obtain rfl := Except.ok.inj rest
      exact inductionHypothesis
    | ok tree =>
      obtain rfl := Except.ok.inj rest
      exact (freshTree_reachable made).evolves (.observed .refl _)
  | observed _ observers inductionHypothesis =>
    exact inductionHypothesis.evolves (.observed .refl observers)

/-! ### What a failure leaves -/

/-- A failed addition or removal leaves the tree as it was. -/
theorem tree_of_failure {α β : Type} {mutation : α → β → Mutation} {cause : TreeError}
    (reachable : tree.Reachable)
    (ended : outcome = unchanged tree ∨
      ∃ first second, tree.mutate (mutation first second) = .ok outcome)
    (failed : outcome.result = .error cause) : outcome.tree = tree := by
  rcases ended with rfl | ⟨first, second, done⟩
  · rfl
  · exact reachable.unchanged done failed

/-- A dispatch that fails hands on the error of the tree. -/
theorem dispatch_eq_ok {step : Step Unit} {failure : Failure}
    (dispatched : session.dispatch files event = .ok step) (failed : step.result = .error failure) :
    ∃ outcome cause, apply session.settings files session.tree event = .ok outcome ∧
      outcome.result = .error cause ∧ failure = .tree cause ∧
      step = ⟨{ session with tree := outcome.tree }, .error (.tree cause)⟩ := by
  obtain ⟨outcome, applied, same⟩ := Fault.bind_eq_ok.mp dispatched
  obtain rfl := Except.ok.inj same
  cases result : outcome.result with
  | ok _ => simp [result, Except.mapError] at failed
  | error cause =>
    simp only [result, Except.mapError, Except.error.injEq] at failed ⊢
    exact ⟨outcome, cause, applied, result, failed.symm, rfl⟩

/-- A failed event leaves the session as it was, with its tree, all handles and all that the
observers have, unless it is a move that got as far as its removal. Then the session is what the
deletion of the source alone makes of it, and the addition that failed has left nothing behind. -/
theorem failed_event_leaves_no_trace (session : Session) (reachable : session.Reachable)
    (files : Files) (event : FileEvent) (step : Step Unit) (failure : Failure)
    (dispatched : session.dispatch files event = .ok step)
    (failed : step.result = .error failure) :
    step.session = session ∨
    ∃ source target, event = .moved source target ∧
      session.dispatch files (.deleted source) = .ok ⟨step.session, .ok ()⟩ ∧
      step.session.dispatch files (.created target) = .ok step := by
  obtain ⟨outcome, cause, applied, result, rfl, rfl⟩ := dispatch_eq_ok dispatched failed
  rcases apply_cases applied with
    rfl | ⟨mutation, mutated⟩ | ⟨source, target, removed, rfl, taken, success, added⟩
  · cases result
  · left
    rw [reachable.tree_reachable.unchanged mutated result]
  · right
    have middle := reachable.tree_reachable.evolves (evolves_of_mutations (removePath_cases taken))
    have same := tree_of_failure middle (addPath_cases added) result
    refine ⟨source, target, rfl, ?_, ?_⟩
    · refine Fault.bind_eq_ok.mpr ⟨removed, taken, ?_⟩
      rw [success, same]
      rfl
    · refine Fault.bind_eq_ok.mpr ⟨outcome, ?_, ?_⟩
      · rw [← same] at added
        exact added
      · rw [result]
        rfl

/-- A class with a method, and a file beside it. -/
def methodBesideFile : MemoryFiles :=
  (MemoryFiles.empty.addFile ["/", "p", "A.java"] "class A { void test() {} }".toUTF8).addFile
    ["/", "p", "B.java"] "class B {}".toUTF8

/-- The same after the file went into a directory with the name of the method. -/
def fileBelowMethodName : MemoryFiles :=
  (MemoryFiles.empty.addFile ["/", "p", "A.java"] "class A { void test() {} }".toUTF8).addFile
    ["/", "p", "test", "B.java"] "class B {}".toUTF8

/-- A move is refused, and yet the moved file has left the tree, and its observer was told so. -/
theorem refused_move_loses_its_file : ∃ opened,
    start .standard methodBesideFile.view ⟨"/p"⟩ = .ok (.ok opened) ∧
    let session := { opened with tree := opened.tree.subscribe.1 }
    session.Reachable ∧ ∃ step,
      session.dispatch fileBelowMethodName.view (.moved ⟨"/p/B.java"⟩ ⟨"/p/test/B.java"⟩) = .ok step ∧
      step.result = .error (.tree (.notABranch "test")) ∧
      session.tree.find? "B.java" = some 4 ∧ step.session.tree.find? "B.java" = none ∧
      (step.session.tree.observers.mailbox? 0).map (fun mailbox => mailbox.pending.toList) =
        some [.changed 0, .removed 0 1 4] := by
  have computed : (start .standard methodBesideFile.view ⟨"/p"⟩).toOption.any (fun opened =>
      opened.toOption.any fun opened =>
        let session := { opened with tree := opened.tree.subscribe.1 }
        (session.dispatch fileBelowMethodName.view
            (.moved ⟨"/p/B.java"⟩ ⟨"/p/test/B.java"⟩)).toOption.any fun step =>
          decide (step.result = .error (.tree (.notABranch "test")) ∧
            session.tree.find? "B.java" = some 4 ∧ step.session.tree.find? "B.java" = none ∧
            (step.session.tree.observers.mailbox? 0).map (fun mailbox => mailbox.pending.toList) =
              some [.changed 0, .removed 0 1 4])) = true := by
    decide +kernel
  obtain ⟨opened, started, ready⟩ := Fault.ok_of_any computed
  obtain ⟨session, rfl, moves⟩ := Fault.ok_of_any ready
  obtain ⟨step, dispatched, lost⟩ := Fault.ok_of_any moves
  exact ⟨session, started, .observed (.started started) _, step, dispatched, of_decide_eq_true lost⟩

/-- The same file is refused as a new one, and nothing has changed. -/
theorem refused_file_changes_nothing : ∃ session,
    start .standard methodBesideFile.view ⟨"/p"⟩ = .ok (.ok session) ∧ ∃ step,
      session.dispatch fileBelowMethodName.view (.created ⟨"/p/test/B.java"⟩) = .ok step ∧
      step.result = .error (.tree (.notABranch "test")) ∧ step.session = session := by
  have computed : (start .standard methodBesideFile.view ⟨"/p"⟩).toOption.any (fun opened =>
      opened.toOption.any fun session =>
        (session.dispatch fileBelowMethodName.view (.created ⟨"/p/test/B.java"⟩)).toOption.any
          fun step => decide (step.result = .error (.tree (.notABranch "test")))) = true := by
    decide +kernel
  obtain ⟨opened, started, ready⟩ := Fault.ok_of_any computed
  obtain ⟨session, rfl, creates⟩ := Fault.ok_of_any ready
  obtain ⟨step, dispatched, refused⟩ := Fault.ok_of_any creates
  have failed := of_decide_eq_true refused
  refine ⟨session, started, step, dispatched, failed, ?_⟩
  rcases failed_event_leaves_no_trace session (.started started) _ _ step _ dispatched failed with
    same | ⟨source, target, isMove, -⟩
  · exact same
  · cases isMove

end Session

end CodeCensus
