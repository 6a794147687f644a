import GraphQLClient.Building.Operation
import GraphQLClient.Building.Tracker

set_option autoImplicit false

/-!
# Builds that report to trackers

A program makes trackers, clones them and hands them to builds. What it has in hand are handles. Each
stands for one tracker, and a clone of a handle stands for the same tracker. A build reports the types
that it visits to the tracker it was given.
-/

namespace GraphQLClient

namespace OperationDraft

/-- The operation that a run of the program in this scope has made. -/
def completed (draft : OperationDraft) (scope : Scope) :
    Except BuildError Unit × Draft → Except BuildError Operation
  | (.error e, _) => .error e
  | (.ok (), after) =>
    if after.selections.isEmpty then .error (.emptySelection scope.type.name)
    else
      .ok ⟨draft.kind, draft.name, scope.declarations, draft.directives,
        ⟨scope.type.name, after.selections⟩⟩

/-- Builds with a tracker to report to. The visits go on from the types that the tracker holds, and
those that came to them are recorded. -/
def buildReporting (draft : OperationDraft) (bundle : Bundle) (tracker : Tracker) :
    Except BuildError Operation × Tracker :=
  match draft.scope bundle with
  | .error e => (.error e, tracker)
  | .ok scope =>
    let run := (show Building Unit from do
      scope.start
      Step.runAll scope draft.program).run { Draft.empty with visits := tracker.types }
    (draft.completed scope run, tracker.recordAll (run.2.visits.drop tracker.types.length))

end OperationDraft

/-- What is done with a tracker by one of its handles. -/
inductive TrackerUse where
  | start
  | pause
  | reset
  | record (name : String)
  | build (draft : OperationDraft) (bundle : Bundle)

/-- What a build returns, and the tracker afterwards. -/
def TrackerUse.run (tracker : Tracker) :
    TrackerUse → Option (Except BuildError Operation) × Tracker
  | .start => (none, tracker.start)
  | .pause => (none, tracker.pause)
  | .reset => (none, tracker.reset)
  | .record name => (none, tracker.record name)
  | .build draft bundle =>
    let (result, after) := draft.buildReporting bundle tracker
    (some result, after)

/-- Handles are counted in the order in which the program gets them. -/
inductive TrackerCall where
  | make
  | clone (handle : Nat)
  | use (handle : Nat) (use : TrackerUse)

/-- The trackers of a program, and for each of its handles the place of the tracker it stands for. -/
structure Trackers where
  states : List Tracker
  handles : List Nat
  grounded : ∀ place ∈ handles, place < states.length

namespace Trackers

def empty : Trackers := ⟨[], [], by simp⟩

/-- The tracker at a place; one that is not made yet is new. -/
def state (trackers : Trackers) (place : Nat) : Tracker := trackers.states.getD place .new

def tracker? (trackers : Trackers) (handle : Nat) : Option Tracker :=
  trackers.handles[handle]?.map trackers.state

def make (trackers : Trackers) : Trackers where
  states := trackers.states ++ [.new]
  handles := trackers.handles ++ [trackers.states.length]
  grounded place h := by
    have hplace : place ∈ trackers.handles ∨ place = trackers.states.length := by simpa using h
    rw [List.length_append, List.length_singleton]
    rcases hplace with h | rfl
    · exact Nat.lt_succ_of_lt (trackers.grounded place h)
    · exact Nat.lt_succ_self _

def clone (trackers : Trackers) (handle : Nat) : Trackers where
  states := trackers.states
  handles := trackers.handles ++ trackers.handles[handle]?.toList
  grounded place h := by
    refine trackers.grounded place ((List.mem_append.1 h).elim id fun h => ?_)
    exact List.mem_of_getElem? (Option.mem_toList.1 h)

def set (trackers : Trackers) (place : Nat) (tracker : Tracker) : Trackers where
  states := trackers.states.set place tracker
  handles := trackers.handles
  grounded other h := by simpa using trackers.grounded other h

/-- One call, with what it returns if it is a build. Where there is no such handle, nothing is done. -/
def perform (trackers : Trackers) :
    TrackerCall → Option (Except BuildError Operation) × Trackers
  | .make => (none, trackers.make)
  | .clone handle => (none, trackers.clone handle)
  | .use handle use =>
    match trackers.handles[handle]? with
    | none => (none, trackers)
    | some place =>
      let (result, after) := use.run (trackers.state place)
      (result, trackers.set place after)

def performAll (trackers : Trackers) (calls : List TrackerCall) : Trackers :=
  calls.foldl (fun trackers call => (trackers.perform call).2) trackers

/-- What a program has after these calls. -/
def after (calls : List TrackerCall) : Trackers := empty.performAll calls

end Trackers

end GraphQLClient
