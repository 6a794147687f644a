import GraphQLClient.Building.Reporting
import GraphQLClient.Proofs.Building.Tracking
import GraphQLClient.Proofs.Building.Parallels

set_option autoImplicit false

/-!
# What a tracker holds after a history of calls

A tracker is told by what was done with it by all its handles, in order (`Trackers.history`): it holds
the names that were reported while the last control call was a start and that no reset followed, sorted
and each once. What a build returns is not told by the tracker it reports to: of what was visited before
no step takes notice.
-/

namespace GraphQLClient

namespace Building

variable {α β : Type} {m : Building α} {f : α → Building β} {body : Building Unit}

/-- The draft with other types visited before all that it has. -/
def preceded (earlier : List String) (draft : Draft) : Draft :=
  { draft with visits := earlier ++ draft.visits }

theorem visits_preceded (earlier : List String) (draft : Draft) :
    (preceded earlier draft).visits = earlier ++ draft.visits := rfl

/-- The visits are a log: the computation does the same whatever is in it, and only adds to it. -/
def Logs (m : Building α) : Prop :=
  ∀ (earlier : List String) (draft : Draft),
    m.run (preceded earlier draft) = ((m.run draft).1, preceded earlier (m.run draft).2)

theorem logs_visit (typeName : String) : Logs (visit typeName) := by
  intro earlier draft
  have hvisits : (earlier ++ draft.visits) ++ [typeName] = earlier ++ (draft.visits ++ [typeName]) :=
    List.append_assoc ..
  exact congrArg (fun visits => (Except.ok (), Draft.mk draft.selections visits draft.journal)) hvisits

theorem logs_bind (h : Logs m) (hf : ∀ a, Logs (f a)) : Logs (m >>= f) := by
  intro earlier draft
  rw [run_bind, run_bind, h earlier draft]
  rcases m.run draft with ⟨e | a, after⟩
  · rfl
  · exact hf a earlier after

theorem logs_nested (h : Logs body) : Logs (nested body) := by
  intro earlier draft
  have hinner := h earlier { draft with selections := [] }
  rw [run_nested, run_nested]
  change body.run { preceded earlier draft with selections := [] } = _ at hinner
  rw [hinner]
  rfl

theorem logs_journaled {kind : StepKind} {typeName : String} (h : Logs body) :
    Logs (journaled kind typeName body) := by
  intro earlier draft
  rw [run_journaled, run_journaled, h earlier draft]
  rcases body.run draft with ⟨e | _, after⟩ <;> rfl

theorem logs_passed (h : Logs body) : Logs (do let _ ← caught body) := by
  intro earlier draft
  rw [run_bind, run_bind, run_caught, run_caught, h earlier draft]
  rcases body.run draft with ⟨e | _, after⟩ <;> rfl

end Building

namespace Scope

open Building

theorem parallel_logs (scope : Scope) : Parallel (fun _ m _ => Logs m) True scope scope where
  value _ := fun _ _ => rfl
  error _ := fun _ _ => rfl
  visit typeName := logs_visit typeName
  note _ := fun _ _ => rfl
  selections := fun _ _ => rfl
  push _ := fun _ _ => rfl
  bind h hf := logs_bind h hf
  nested h := logs_nested h
  journaled _ _ h := logs_journaled h
  attempted _ _ _ h := logs_passed h
  resolve _ _ _ := logs_bind (fun _ _ => rfl) fun _ =>
    logs_bind (logs_visit _) fun _ _ _ => rfl
  targeted _ _ _ hf := logs_bind
    (logs_bind (fun _ _ => rfl) fun _ => by split <;> exact fun _ _ => rfl) hf

theorem logs_program (scope : Scope) (program : List Step) :
    Logs (do
      scope.start
      Step.runAll scope program) :=
  (parallel_logs scope).program scope.type program (.inl trivial)

end Scope

namespace OperationDraft

open Building

variable {draft : OperationDraft} {bundle : Bundle} {scope : Scope}

theorem completed_preceded (draft : OperationDraft) (scope : Scope) (earlier : List String)
    (run : Except BuildError Unit × Draft) :
    draft.completed scope (run.1, preceded earlier run.2) = draft.completed scope run := by
  rcases run with ⟨e | _, after⟩ <;> rfl

theorem result_build_of_scope (h : draft.scope bundle = .ok scope) :
    (draft.build bundle).result = draft.completed scope ((show Building Unit from do
      scope.start
      Step.runAll scope draft.program).run Draft.empty) := by
  rw [build_of_scope h]
  unfold buildSet
  rcases (show Building Unit from do
    scope.start
    Step.runAll scope draft.program).run Draft.empty with ⟨e | _, after⟩
  · rfl
  · by_cases hempty : after.selections.isEmpty = true
    · simp only [completed, if_pos hempty, Except.map]
    · simp only [completed, if_neg hempty, Except.map]

theorem visits_build_of_scope (h : draft.scope bundle = .ok scope) :
    (draft.build bundle).visits = ((show Building Unit from do
      scope.start
      Step.runAll scope draft.program).run Draft.empty).2.visits := by
  rw [build_of_scope h]
  rfl

/-- The operation or the error that a build returns is that of a build without a tracker, which also
tells what it reports. -/
theorem buildReporting_eq (draft : OperationDraft) (bundle : Bundle) (tracker : Tracker) :
    draft.buildReporting bundle tracker =
      ((draft.build bundle).result, tracker.recordAll (draft.build bundle).visits) := by
  unfold buildReporting
  cases hs : draft.scope bundle with
  | error e =>
    rw [build, hs]
    rfl
  | ok scope =>
    have hrun := Scope.logs_program scope draft.program tracker.types Draft.empty
    have hstart : preceded tracker.types Draft.empty = { Draft.empty with visits := tracker.types } := by
      simp [preceded, Draft.empty]
    rw [hstart] at hrun
    rw [result_build_of_scope hs, visits_build_of_scope hs]
    simp only [hrun, completed_preceded, visits_preceded, List.drop_left]

end OperationDraft

namespace TrackerUse

/-- The calls that say whether a tracker collects what is reported. -/
def isControl : TrackerUse → Bool
  | .start | .pause | .reset => true
  | .record _ | .build _ _ => false

/-- The names that a call reports, whether or not they are collected. -/
def reported : TrackerUse → List String
  | .start | .pause | .reset => []
  | .record name => [name]
  | .build draft bundle => (draft.build bundle).visits

/-- The last control call was a start. -/
def Started (history : List TrackerUse) : Prop :=
  ∃ earlier later, history = earlier ++ .start :: later ∧ ∀ use ∈ later, use.isControl = false

/-- The name was reported at a moment when the last control call was a start, and no reset came
later. -/
def Tracked (history : List TrackerUse) (name : String) : Prop :=
  ∃ earlier use later, history = earlier ++ use :: later ∧ Started earlier ∧ name ∈ use.reported ∧
    .reset ∉ later

variable {history : List TrackerUse} {use : TrackerUse} {name : String}

/-- A call of a history that goes on by one is the new one or stands before it. -/
theorem append_singleton_eq_iff {last : TrackerUse} {earlier later : List TrackerUse} :
    history ++ [last] = earlier ++ use :: later ↔
      (history = earlier ∧ last = use ∧ later = []) ∨
        ∃ between, later = between ++ [last] ∧ history = earlier ++ use :: between := by
  rcases List.eq_nil_or_concat' later with rfl | ⟨between, final, rfl⟩
  · simp
  · rw [← List.cons_append, ← List.append_assoc]
    constructor
    · intro h
      obtain ⟨hhistory, hlast⟩ := List.append_inj' h rfl
      exact .inr ⟨between, congrArg (between ++ ·) hlast.symm, hhistory⟩
    · rintro (⟨-, -, hlater⟩ | ⟨between', hlater, hhistory⟩)
      · simp at hlater
      · obtain ⟨rfl, hlast⟩ := List.append_inj' hlater rfl
        rw [hhistory, hlast]

theorem started_append_singleton :
    Started (history ++ [use]) ↔ use = .start ∨ use.isControl = false ∧ Started history := by
  unfold Started
  simp only [append_singleton_eq_iff]
  constructor
  · rintro ⟨earlier, later, ⟨-, huse, -⟩ | ⟨between, rfl, hhistory⟩, hlater⟩
    · exact .inl huse
    · refine .inr ⟨hlater use (by simp), earlier, between, hhistory, fun other ho => ?_⟩
      exact hlater other (List.mem_append_left _ ho)
  · rintro (rfl | ⟨huse, earlier, between, hhistory, hbetween⟩)
    · exact ⟨history, [], .inl ⟨rfl, rfl, rfl⟩, by simp⟩
    · refine ⟨earlier, between ++ [use], .inr ⟨between, rfl, hhistory⟩, fun other ho => ?_⟩
      rcases List.mem_append.1 ho with ho | ho
      · exact hbetween other ho
      · rw [List.mem_singleton.1 ho, huse]

theorem tracked_append_singleton :
    Tracked (history ++ [use]) name ↔
      (Started history ∧ name ∈ use.reported) ∨ (use ≠ .reset ∧ Tracked history name) := by
  unfold Tracked
  simp only [append_singleton_eq_iff]
  constructor
  · rintro ⟨earlier, reporting, later, ⟨rfl, rfl, -⟩ | ⟨between, rfl, hhistory⟩, hs, hn, hr⟩
    · exact .inl ⟨hs, hn⟩
    · rw [List.mem_append, List.mem_singleton, not_or] at hr
      exact .inr ⟨Ne.symm hr.2, earlier, reporting, between, hhistory, hs, hn, hr.1⟩
  · rintro (⟨hs, hn⟩ | ⟨huse, earlier, reporting, between, hhistory, hs, hn, hr⟩)
    · exact ⟨history, use, [], .inl ⟨rfl, rfl, rfl⟩, hs, hn, by simp⟩
    · refine ⟨earlier, reporting, between ++ [use], .inr ⟨between, rfl, hhistory⟩, hs, hn, ?_⟩
      rw [List.mem_append, List.mem_singleton, not_or]
      exact ⟨hr, Ne.symm huse⟩

end TrackerUse

namespace Tracker

open TrackerUse

variable {tracker : Tracker} {history : List TrackerUse} {use : TrackerUse}

theorem active_recordAll (tracker : Tracker) (names : List String) :
    (tracker.recordAll names).active = tracker.active := by
  induction names generalizing tracker with
  | nil => rfl
  | cons name rest ih =>
    rw [recordAll, List.foldl_cons]
    refine (ih _).trans ?_
    unfold record
    split <;> rfl

/-- The tracker is as its history tells. -/
structure ToldBy (tracker : Tracker) (history : List TrackerUse) : Prop where
  sorted : tracker.types.Pairwise (· < ·)
  types : ∀ name, name ∈ tracker.types ↔ Tracked history name
  active : tracker.active = true ↔ Started history

theorem toldBy_new : new.ToldBy [] where
  sorted := List.Pairwise.nil
  types name := by simp [new, Tracked]
  active := by simp [new, Started]

theorem ToldBy.start (h : tracker.ToldBy history) : tracker.start.ToldBy (history ++ [.start]) where
  sorted := h.sorted
  types name := by simpa [tracked_append_singleton, reported, Tracker.start] using h.types name
  active := by simp [started_append_singleton, Tracker.start]

theorem ToldBy.pause (h : tracker.ToldBy history) : tracker.pause.ToldBy (history ++ [.pause]) where
  sorted := h.sorted
  types name := by simpa [tracked_append_singleton, reported, Tracker.pause] using h.types name
  active := by simp [started_append_singleton, isControl, Tracker.pause]

theorem toldBy_reset (tracker : Tracker) (history : List TrackerUse) :
    tracker.reset.ToldBy (history ++ [.reset]) where
  sorted := List.Pairwise.nil
  types name := by simp [tracked_append_singleton, reported, reset, new]
  active := by simp [started_append_singleton, isControl, reset, new]

/-- What is reported is collected if the tracker is active. -/
theorem ToldBy.recordAll (h : tracker.ToldBy history) (hu : use.isControl = false) :
    (tracker.recordAll use.reported).ToldBy (history ++ [use]) where
  sorted := pairwise_recordAll h.sorted
  types name := by
    have hreset : use ≠ .reset := by rintro rfl; cases hu
    rw [tracked_append_singleton, ← h.active, ← h.types name]
    cases ha : tracker.active with
    | false => simp [recordAll_of_not_active ha, hreset]
    | true => simp [mem_recordAll ha, hreset, or_comm]
  active := by
    have hstart : use ≠ .start := by rintro rfl; cases hu
    rw [active_recordAll, h.active, started_append_singleton]
    simp [hstart, hu]

/-- One more call, and the tracker is as the longer history tells. -/
theorem ToldBy.run (h : tracker.ToldBy history) (use : TrackerUse) :
    (use.run tracker).2.ToldBy (history ++ [use]) := by
  cases use with
  | start => exact h.start
  | pause => exact h.pause
  | reset => exact toldBy_reset tracker history
  | record name =>
    have hu : (TrackerUse.record name).isControl = false := rfl
    exact h.recordAll hu
  | build draft bundle =>
    have hu : (TrackerUse.build draft bundle).isControl = false := rfl
    rw [TrackerUse.run, OperationDraft.buildReporting_eq]
    exact h.recordAll hu

/-- The tracker after these calls. -/
def runAll (tracker : Tracker) (history : List TrackerUse) : Tracker :=
  history.foldl (fun tracker use => (use.run tracker).2) tracker

theorem runAll_append (tracker : Tracker) (history more : List TrackerUse) :
    tracker.runAll (history ++ more) = (tracker.runAll history).runAll more := List.foldl_append

theorem toldBy_runAll (history : List TrackerUse) : (new.runAll history).ToldBy history := by
  -- from the end of the history, where the next call comes in
  induction history using List.reverseRecOn with
  | nil => exact toldBy_new
  | append_singleton history use ih =>
    rw [runAll_append]
    exact ih.run use

end Tracker

/-- What a call does with the tracker at a place, where the handles stand for these places. -/
def TrackerCall.usesOf (handles : List Nat) (place : Nat) : TrackerCall → List TrackerUse
  | .make | .clone _ => []
  | .use handle action => if handles[handle]? = some place then [action] else []

namespace Trackers

variable {trackers : Trackers} {place : Nat}

/-- What was done with the tracker at a place from here on, by whichever handle. -/
def historyFrom (trackers : Trackers) (place : Nat) : List TrackerCall → List TrackerUse
  | [] => []
  | call :: rest =>
    call.usesOf trackers.handles place ++ historyFrom (trackers.perform call).2 place rest

def history (place : Nat) (calls : List TrackerCall) : List TrackerUse := empty.historyFrom place calls

theorem state_make (trackers : Trackers) (place : Nat) :
    trackers.make.state place = trackers.state place := by
  unfold state make
  by_cases h : place < trackers.states.length
  · exact List.getD_append _ _ _ _ h
  · have hle : trackers.states.length ≤ place := Nat.le_of_not_lt h
    rw [List.getD_append_right _ _ _ _ hle, List.getD_eq_default _ _ hle]
    rw [List.getD_eq_getElem?_getD, List.getElem?_getD_singleton_default_eq]

theorem state_set (trackers : Trackers) (h : place ∈ trackers.handles) (tracker : Tracker)
    (other : Nat) :
    (trackers.set place tracker).state other =
      if place = other then tracker else trackers.state other := by
  have hlength : place < trackers.states.length := trackers.grounded place h
  unfold state set
  rw [List.getD_eq_getElem?_getD, List.getD_eq_getElem?_getD, List.getElem?_set]
  split_ifs with he
  · rfl
  · rfl

theorem perform_use {handle : Nat} (h : trackers.handles[handle]? = some place)
    (action : TrackerUse) :
    trackers.perform (.use handle action) =
      ((action.run (trackers.state place)).1,
        trackers.set place (action.run (trackers.state place)).2) := by
  rw [perform, h]

/-- A call changes the tracker that it is made for and no other. -/
theorem state_perform (trackers : Trackers) (call : TrackerCall) (place : Nat) :
    (trackers.perform call).2.state place =
      (trackers.state place).runAll (call.usesOf trackers.handles place) := by
  cases call with
  | make => exact state_make trackers place
  | clone handle => rfl
  | use handle action =>
    rw [TrackerCall.usesOf]
    cases hh : trackers.handles[handle]? with
    | none =>
      rw [perform, hh]
      rfl
    | some other =>
      rw [perform_use hh, state_set trackers (List.mem_of_getElem? hh)]
      by_cases he : other = place
      · rw [if_pos he, if_pos (congrArg some he), he]
        rfl
      · rw [if_neg he, if_neg fun heq => he (Option.some.inj heq)]
        rfl

theorem state_performAll (trackers : Trackers) (calls : List TrackerCall) (place : Nat) :
    (trackers.performAll calls).state place =
      (trackers.state place).runAll (trackers.historyFrom place calls) := by
  induction calls generalizing trackers with
  | nil => rfl
  | cons call rest ih =>
    rw [historyFrom, Tracker.runAll_append, ← state_perform]
    exact ih _

theorem toldBy_history (calls : List TrackerCall) (place : Nat) :
    ((after calls).state place).ToldBy (history place calls) := by
  rw [after, state_performAll]
  exact Tracker.toldBy_runAll _

theorem after_append_singleton (calls : List TrackerCall) (call : TrackerCall) :
    after (calls ++ [call]) = ((after calls).perform call).2 := List.foldl_append

theorem handles_clone {handle : Nat} (h : trackers.handles[handle]? = some place) :
    (trackers.clone handle).handles = trackers.handles ++ [place] := by
  have hclone : (trackers.clone handle).handles =
      trackers.handles ++ trackers.handles[handle]?.toList := rfl
  rw [hclone, h, Option.toList_some]

/-- A tracker that is made now has no handle yet. -/
theorem handles_make (trackers : Trackers) :
    ∃ fresh, fresh ∉ trackers.handles ∧ trackers.make.handles = trackers.handles ++ [fresh] :=
  ⟨trackers.states.length, fun h => Nat.lt_irrefl _ (trackers.grounded _ h), rfl⟩

/-- After any calls, each handle of a tracker reads what was done with it by all its handles: the names
that were reported while the last control call was a start and that no reset followed, sorted and each
once, and whether the last control call was a start. A build that reports to the tracker returns what
it returns without one. A clone stands for the same tracker, a new handle for a tracker of its own, and
no other call touches what handles stand for. -/
theorem tracked_after (calls : List TrackerCall) {handle place : Nat}
    (h : (after calls).handles[handle]? = some place) :
    (∃ tracker, (after calls).tracker? handle = some tracker ∧
      tracker.types.Pairwise (· < ·) ∧
      (∀ name, name ∈ tracker.types ↔ TrackerUse.Tracked (history place calls) name) ∧
      (tracker.active = true ↔ TrackerUse.Started (history place calls)) ∧
      tracker.line = ",".intercalate tracker.types) ∧
    (∀ draft bundle, ((after calls).perform (.use handle (.build draft bundle))).1 =
      some (draft.build bundle).result) ∧
    (∀ action, (after (calls ++ [.use handle action])).handles = (after calls).handles) ∧
    (after (calls ++ [.clone handle])).handles = (after calls).handles ++ [place] ∧
    ∃ fresh, fresh ∉ (after calls).handles ∧
      (after (calls ++ [.make])).handles = (after calls).handles ++ [fresh] := by
  have htold := toldBy_history calls place
  refine ⟨⟨(after calls).state place, ?_, htold.sorted, htold.types, htold.active, rfl⟩, ?_, ?_, ?_, ?_⟩
  · rw [tracker?, h, Option.map_some]
  · intro draft bundle
    rw [perform_use h, TrackerUse.run, OperationDraft.buildReporting_eq]
  · intro action
    rw [after_append_singleton, perform_use h]
    rfl
  · rw [after_append_singleton]
    exact handles_clone h
  · rw [after_append_singleton]
    exact handles_make (after calls)

end Trackers

/-- Two trackers, of which one is used by two handles. -/
def sampleCalls : List TrackerCall :=
  let shop : OperationDraft := .ofProgram .query [.object "shop" .none [.field "name" .none]]
  let price : OperationDraft := .ofProgram .query [.object "node" .none [.field "price" .none]]
  [.make, .clone 0, .use 0 (.record "Cart"), .use 1 .start, .use 0 (.record "Money"), .make,
   .use 1 .reset, .use 2 .start, .use 2 (.record "Product"), .use 0 (.build shop sampleBundle),
   .use 0 .start, .use 1 (.build price sampleBundle), .use 1 .pause, .use 0 (.build shop sampleBundle)]

/-- What the clone of the first tracker reads at the end: a build that failed was collected, reports
before the start, before the reset and after the pause were not, nor was what the other tracker got. -/
theorem sampleCalls_tracked :
    (Trackers.after sampleCalls).handles[1]? = some 0 ∧
      (Trackers.after sampleCalls).tracker? 1 = some ⟨false, ["ID", "Node", "Query", "String"]⟩ ∧
      (∀ name, name ∈ ["ID", "Node", "Query", "String"] ↔
        TrackerUse.Tracked (Trackers.history 0 sampleCalls) name) ∧
      ¬ TrackerUse.Started (Trackers.history 0 sampleCalls) := by
  have hhandle : (Trackers.after sampleCalls).handles[1]? = some 0 := rfl
  have hread : (Trackers.after sampleCalls).tracker? 1 =
      some ⟨false, ["ID", "Node", "Query", "String"]⟩ := by decide +kernel
  obtain ⟨⟨tracker, htracker, -, htypes, hactive, -⟩, -⟩ :=
    Trackers.tracked_after sampleCalls hhandle
  obtain rfl := Option.some.inj (hread.symm.trans htracker)
  exact ⟨hhandle, hread, htypes, fun h => Bool.noConfusion (hactive.2 h)⟩

end GraphQLClient
