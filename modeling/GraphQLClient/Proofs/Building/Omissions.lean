import GraphQLClient.Proofs.Building.Acceptance
import GraphQLClient.Proofs.Building.Validity
import GraphQLClient.Proofs.Building.StepOutcomes

set_option autoImplicit false

/-!
# Failed steps leave nothing behind

A step that ends well only appends to the selections that it finds, and at most what it was asked for.
A step that fails leaves them as they are, wherever below it the error arose; only where a list of
selections is added do those in front of the offending one stay. So a program that goes on after errors
does what the program without the failed steps does (`Step.keptAll`).
-/

namespace GraphQLClient

namespace Selection

/-- At most `count` selections came to those before. -/
def Appended (count : Nat) (before after : List Selection) : Prop :=
  before <+: after ∧ after.length ≤ before.length + count

variable {before between after : List Selection}

theorem appended_self (count : Nat) (before : List Selection) : Appended count before before :=
  ⟨List.prefix_rfl, Nat.le_add_right _ _⟩

theorem Appended.trans {count more : Nat} (h : Appended count before between)
    (h' : Appended more between after) : Appended (count + more) before after := by
  have hlength := h.2
  have hlength' := h'.2
  exact ⟨h.1.trans h'.1, by omega⟩

theorem Appended.mono {count more : Nat} (h : Appended count before after) (hle : count ≤ more) :
    Appended more before after :=
  ⟨h.1, Nat.le_trans h.2 (Nat.add_le_add_left hle _)⟩

theorem appended_beside (before : List Selection) (made : Selection) :
    Appended 1 before (beside before made) := by
  rcases beside_cases before made with h | ⟨h, -⟩ <;> rw [h]
  · exact ⟨List.prefix_append _ _, by simp⟩
  · exact appended_self 1 before

end Selection

namespace Scope

open Building Selection

variable {scope : Scope} {before after : List Selection}

theorem Rebuilds.appended {selection : Selection} (h : scope.Rebuilds selection before after) :
    Appended 1 before after := by
  obtain ⟨made, -, -, rfl⟩ := rebuilds_iff.1 h
  exact appended_beside before made

theorem RebuildsAll.appended {selections : List Selection}
    (h : scope.RebuildsAll selections before after) :
    Appended selections.length before after := by
  induction selections generalizing before with
  | nil =>
    unfold RebuildsAll at h
    rw [h]
    exact appended_self 0 before
  | cons selection rest ih =>
    unfold RebuildsAll at h
    obtain ⟨between, hfirst, hrest⟩ := h
    have hall := hfirst.appended.trans (ih hrest)
    rwa [Nat.add_comm, ← List.length_cons] at hall

/-- Those of the selections that are taken before one is refused. -/
def accepted (scope : Scope) (before : List Selection) : List Selection → List Selection
  | [] => []
  | selection :: rest =>
    match outcome (scope.addSelection selection) before with
    | (.ok (), after) => selection :: scope.accepted after rest
    | (.error _, _) => []

/-- A selection that is refused leaves nothing. -/
theorem eq_of_addSelection_error {selection : Selection} {e : BuildError}
    (h : outcome (scope.addSelection selection) before = (.error e, after)) : after = before := by
  have houtcome := (runs_addSelection scope selection before).outcome
  rw [h] at houtcome
  exact houtcome.2

/-- A list of selections leaves what those leave that are taken. -/
theorem outcome_accepted (scope : Scope) (before selections : List Selection) :
    outcome (scope.addSelections (scope.accepted before selections)) before =
      (.ok (), (outcome (scope.addSelections selections) before).2) := by
  induction selections generalizing before with
  | nil =>
    unfold accepted addSelections
    rfl
  | cons selection rest ih =>
    rw [accepted, outcome_addSelections_cons]
    rcases hfirst : outcome (scope.addSelection selection) before with ⟨e | _, after⟩
    · obtain rfl := eq_of_addSelection_error hfirst
      unfold addSelections
      rfl
    · change outcome (scope.addSelections (selection :: scope.accepted after rest)) before = _
      rw [outcome_addSelections_cons, hfirst]
      exact ih after

/-- A list of selections fails at the one behind those that are taken. -/
theorem exists_offending {selections : List Selection} {e : BuildError}
    (h : outcome (scope.addSelections selections) before = (.error e, after)) :
    ∃ offending rest, selections = scope.accepted before selections ++ offending :: rest ∧
      outcome (scope.addSelection offending) after = (.error e, after) := by
  induction selections generalizing before with
  | nil =>
    unfold addSelections at h
    cases congrArg Prod.fst h
  | cons selection rest ih =>
    rw [outcome_addSelections_cons] at h
    rw [accepted]
    rcases hfirst : outcome (scope.addSelection selection) before with ⟨e' | _, between⟩
    · rw [hfirst] at h
      obtain ⟨he, rfl⟩ := Prod.mk.inj h
      obtain rfl := Except.error.inj he
      obtain rfl := eq_of_addSelection_error hfirst
      exact ⟨selection, rest, rfl, hfirst⟩
    · rw [hfirst] at h
      obtain ⟨offending, more, hrest, hoffends⟩ := ih h
      exact ⟨offending, more, congrArg (selection :: ·) hrest, hoffends⟩

/-- The type of the nodes of a connection that is selected under the name. -/
def nodeOf? (scope : Scope) (name : String) : Option TypeDescriptor := do
  let type ← scope.typeOf? name
  let edges ← (scope.within type).typeOf? "edges"
  (scope.within edges).typeOf? "node"

end Scope

namespace Step

open Building Selection

/-- How many selections a step may add. -/
def width : Step → Nat
  | .extend set => set.selections.length
  | .attempt step => width step
  | .snapshot => 0
  | _ => 1

/-- What stays of a step that fails. -/
def remains (scope : Scope) (before : List Selection) : Step → List Step
  | .extend set => [.extend { set with selections := scope.accepted before set.selections }]
  | _ => []

/-- A step failed with the error `e` and left `after`: nothing came to the selections, but for a list of
them those in front of the offending one. -/
def Undone (scope : Scope) (before : List Selection) (e : BuildError) (after : List Selection) :
    Step → Prop
  | .extend set => ∃ offending rest,
      set.selections = scope.accepted before set.selections ++ offending :: rest ∧
      outcome scope (.extend { set with selections := scope.accepted before set.selections }) before =
        (.ok (), after) ∧
      outcome scope (.selection offending) after = (.error e, after)
  | _ => after = before

mutual
/-- The step without the failed steps inside it, or without itself if it was attempted and failed. -/
def kept (scope : Scope) (before : List Selection) : Step → List Step
  | .object name options body =>
    [.object name options
      (match scope.typeOf? name with
        | some type => keptAll (scope.within type) (scope.within type).opening body
        | none => [])]
  | .connection name options body =>
    [.connection name options
      (match scope.nodeOf? name with
        | some node => keptAll (scope.within node) (scope.within node).opening body
        | none => [])]
  | .fragmentOn typeName body =>
    [.fragmentOn typeName
      (match scope.bundle.get? typeName with
        | some target => keptAll (scope.within target) [] body
        | none => [])]
  | .attempt step =>
    match outcome scope step before with
    | (.ok (), _) => kept scope before step
    | (.error _, _) => step.remains scope before
  | .field name options => [.field name options]
  | .spread fragment => [.spread fragment]
  | .selection made => [.selection made]
  | .extend set => [.extend set]
  | .snapshot => [.snapshot]

/-- The program without the steps in it that were attempted and failed, at any depth. Of a list of
selections that failed the part is kept that was taken. -/
def keptAll (scope : Scope) (before : List Selection) : List Step → List Step
  | [] => []
  | step :: rest => kept scope before step ++ keptAll scope (outcome scope step before).2 rest
end

variable {scope : Scope} {before after : List Selection}

theorem Made.width_eq {step : Step} {made : Selection} (h : Made scope step made) : step.width = 1 := by
  cases h <;> rfl

theorem Stops.appended {step : Step} (h : Stops scope before step after) :
    Appended step.width before after := by
  cases h with
  | extend front rebuilds => exact rebuilds.appended.mono front.length_le
  | undone => exact appended_self _ before

theorem Ends.appended {step : Step} (h : Ends scope before step after) :
    Appended step.width before after := by
  induction h with
  | made makes fits =>
    rw [makes.width_eq]
    exact appended_beside before _
  | extend rebuilds => exact rebuilds.appended
  | attempt ends ih => exact ih
  | passed stops => exact stops.appended
  | snapshot => exact appended_self 0 before

theorem undone_of_outcome {step : Step} {e : BuildError}
    (h : outcome scope step before = (.error e, after)) : step.Undone scope before e after := by
  have hstops := stops_of_outcome h
  cases step with
  | extend set =>
    rw [outcome_extend] at h
    obtain ⟨offending, rest, hset, hoffends⟩ := Scope.exists_offending h
    refine ⟨offending, rest, hset, ?_, ?_⟩
    · rw [outcome_extend, Scope.outcome_accepted, h]
    · rw [outcome_selection, hoffends]
  | _ =>
    cases hstops
    rfl

/-- What stays of a failed step leaves what the failed step left. -/
theorem outcomeAll_remains {step : Step} {e : BuildError}
    (h : outcome scope step before = (.error e, after)) :
    outcomeAll scope (step.remains scope before) before = (.ok (), after) := by
  have hundone := undone_of_outcome h
  cases step with
  | extend set =>
    obtain ⟨-, -, -, haccepted, -⟩ := hundone
    exact (outcomeAll_singleton _).trans haccepted
  | _ =>
    obtain rfl : after = before := hundone
    exact outcomeAll_nil

mutual
theorem outcomeAll_kept (scope : Scope) (before : List Selection) (step : Step) :
    outcomeAll scope (kept scope before step) before = outcome scope step before := by
  cases step with
  | object name options body =>
    -- the set below begins with what the scope tells, and only there the two programs have to agree
    unfold kept
    refine (outcomeAll_singleton _).trans (outcome_object fun type ho => ?_)
    rw [ho.1.typeOf?]
    exact outcomeAll_keptAll _ _ body
  | connection name options body =>
    unfold kept
    refine (outcomeAll_singleton _).trans (outcome_connection fun type edges node ho he hn => ?_)
    have hnode : scope.nodeOf? name = some node := by
      simp [Scope.nodeOf?, ho.1.typeOf?, he.1.typeOf?, hn.1.typeOf?]
    rw [hnode]
    exact outcomeAll_keptAll _ _ body
  | fragmentOn typeName body =>
    unfold kept
    refine (outcomeAll_singleton _).trans (outcome_fragmentOn fun target ha => ?_)
    rw [ha.1]
    exact outcomeAll_keptAll _ _ body
  | attempt step =>
    unfold kept
    rw [outcome_attempt]
    rcases h : outcome scope step before with ⟨e | _, after⟩
    · exact outcomeAll_remains h
    · exact (outcomeAll_kept scope before step).trans h
  | _ =>
    unfold kept
    exact outcomeAll_singleton _

theorem outcomeAll_keptAll (scope : Scope) (before : List Selection) (steps : List Step) :
    outcomeAll scope (keptAll scope before steps) before = outcomeAll scope steps before := by
  cases steps with
  | nil => rfl
  | cons step rest =>
    unfold keptAll
    rw [outcomeAll_append, outcomeAll_kept scope before step, outcomeAll_cons]
    rcases outcome scope step before with ⟨e | _, after⟩
    · rfl
    · exact outcomeAll_keptAll scope after rest
end

theorem allStrict_append (steps more : List Step) :
    allStrict (steps ++ more) = (allStrict steps && allStrict more) := by
  induction steps with
  | nil => rfl
  | cons step rest ih => simp [allStrict, ih, Bool.and_assoc]

theorem allStrict_remains (scope : Scope) (before : List Selection) (step : Step) :
    allStrict (step.remains scope before) = true := by
  cases step <;> rfl

mutual
/-- In what is kept no error is passed over. -/
theorem allStrict_kept (scope : Scope) (before : List Selection) (step : Step) :
    allStrict (kept scope before step) = true := by
  cases step with
  | object name options body =>
    unfold kept
    cases scope.typeOf? name with
    | none => rfl
    | some type => simpa [allStrict, strict] using allStrict_keptAll (scope.within type) _ body
  | connection name options body =>
    unfold kept
    cases scope.nodeOf? name with
    | none => rfl
    | some node => simpa [allStrict, strict] using allStrict_keptAll (scope.within node) _ body
  | fragmentOn typeName body =>
    unfold kept
    cases scope.bundle.get? typeName with
    | none => rfl
    | some target => simpa [allStrict, strict] using allStrict_keptAll (scope.within target) _ body
  | attempt step =>
    unfold kept
    rcases outcome scope step before with ⟨e | _, after⟩
    · exact allStrict_remains scope before step
    · exact allStrict_kept scope before step
  | _ =>
    unfold kept
    rfl

theorem allStrict_keptAll (scope : Scope) (before : List Selection) (steps : List Step) :
    allStrict (keptAll scope before steps) = true := by
  cases steps with
  | nil => rfl
  | cons step rest =>
    unfold keptAll
    rw [allStrict_append, allStrict_kept, allStrict_keptAll]
    rfl
end

/-- An attempted step that fails may be left out, but for what was taken of a list of selections. -/
theorem outcomeAll_omitted {steps rest : List Step} {step : Step} {between : List Selection}
    {e : BuildError} (hsteps : outcomeAll scope steps before = (.ok (), between))
    (hfails : (outcome scope step between).1 = .error e) :
    outcomeAll scope (steps ++ .attempt step :: rest) before =
      outcomeAll scope (steps ++ (step.remains scope between ++ rest)) before := by
  have hfailed : outcome scope step between = (.error e, (outcome scope step between).2) := by
    rw [← hfails]
  rw [outcomeAll_append, outcomeAll_append, hsteps]
  change outcomeAll scope (.attempt step :: rest) between =
    outcomeAll scope (step.remains scope between ++ rest) between
  rw [outcomeAll_cons, outcome_attempt, outcomeAll_append, outcomeAll_remains hfailed]

end Step

namespace OperationDraft

open Building Step

/-- The set that a program builds is told by its outcome on the opening of the scope. -/
theorem result_buildSet (scope : Scope) (program : List Step) :
    (buildSet scope program).result =
      match onward (Building.outcome scope.start []) fun _ => outcomeAll scope program with
      | (.error e, _) => .error e
      | (.ok (), after) =>
        if after.isEmpty then .error (.emptySelection scope.type.name)
        else .ok ⟨scope.type.name, after⟩ := by
  have hbind : Building.outcome (do scope.start; runAll scope program) [] =
      onward (Building.outcome scope.start []) fun _ => outcomeAll scope program :=
    outcome_bind fun _ => blind_runAll scope program
  rw [← hbind]
  unfold buildSet Building.outcome Draft.empty
  rcases (show Building Unit from do scope.start; runAll scope program).run ⟨[], [], []⟩ with
    ⟨e | _, after⟩ <;> rfl

theorem result_buildSet_congr {scope : Scope} {program program' : List Step}
    (h : outcomeAll scope program scope.opening = outcomeAll scope program' scope.opening) :
    (buildSet scope program).result = (buildSet scope program').result := by
  have hstart := (@Scope.runs_start scope).outcome
  rw [result_buildSet, result_buildSet]
  rcases hs : Building.outcome scope.start [] with ⟨e | _, after⟩
  · rfl
  · rw [hs] at hstart
    obtain ⟨-, rfl⟩ := hstart
    simp only [onward, h]

end OperationDraft

/-- What a step does to the selections of a draft is told by them. A step that ends well leaves them as
the beginning of what stands there afterwards, with at most its width more; a failed one leaves them as
they are, or as those in front of the offending selection left them. So a step that is attempted and
fails may be left out of a program, and what a program builds is built by a program that passes over no
error, the one without the failed steps at any depth. -/
theorem Step.failures_undone (scope : Scope) :
    (∀ (steps : List Step) (draft : Draft),
      (((runAll scope steps).run draft).1, ((runAll scope steps).run draft).2.selections) =
        outcomeAll scope steps draft.selections) ∧
    (∀ (step : Step) (before : List Selection),
      match outcome scope step before with
      | (.ok (), after) => before <+: after ∧ after.length ≤ before.length + step.width
      | (.error e, after) => step.Undone scope before e after) ∧
    (∀ (steps rest : List Step) (step : Step) (before between : List Selection) (e : BuildError),
      outcomeAll scope steps before = (.ok (), between) →
      (outcome scope step between).1 = .error e →
        outcomeAll scope (steps ++ .attempt step :: rest) before =
          outcomeAll scope (steps ++ (step.remains scope between ++ rest)) before) ∧
    (∀ (steps : List Step) (before : List Selection),
      allStrict (keptAll scope before steps) = true ∧
        outcomeAll scope (keptAll scope before steps) before = outcomeAll scope steps before) ∧
    ∀ program : List Step,
      (OperationDraft.buildSet scope (keptAll scope scope.opening program)).result =
        (OperationDraft.buildSet scope program).result := by
  refine ⟨blind_runAll scope, ?_, ?_, ?_, ?_⟩
  · intro step before
    rcases h : outcome scope step before with ⟨e | _, after⟩
    · exact undone_of_outcome h
    · exact (ends_of_outcome h).appended
  · exact fun steps rest step before between e => outcomeAll_omitted
  · exact fun steps before => ⟨allStrict_keptAll scope before steps,
      outcomeAll_keptAll scope before steps⟩
  · exact fun program => OperationDraft.result_buildSet_congr
      (outcomeAll_keptAll scope scope.opening program)

/-- The shop has no price: an attempted list ends there, and what stands in front of it stays. -/
theorem listed_price_left_out :
    let shop : Scope := ⟨sampleBundle, [], sampleBundle.get? "Shop" |>.getD default⟩
    let named : Selection := .leaf ⟨"name", some "label", [], false⟩
    let listed : Step := .extend ⟨"Shop", [named, .leaf (.plain "price"), .leaf (.plain "id")]⟩
    Step.outcomeAll shop [.field "name" .none] [] = (.ok (), [.leaf (.plain "name")]) ∧
      (Step.outcome shop listed [.leaf (.plain "name")]).1 = .error (.unknownField "Shop" "price") ∧
      Step.outcomeAll shop [.field "name" .none, .attempt listed, .field "id" .none] [] =
        Step.outcomeAll shop [.field "name" .none, .extend ⟨"Shop", [named]⟩, .field "id" .none] [] ∧
      Step.outcomeAll shop [.field "name" .none, .attempt listed, .field "id" .none] [] =
        (.ok (), [.leaf (.plain "name"), named, .leaf (.plain "id")]) := by
  intro shop named listed
  have hsteps : Step.outcomeAll shop [.field "name" .none] [] =
      (.ok (), [.leaf (.plain "name")]) := rfl
  have hfails : (Step.outcome shop listed [.leaf (.plain "name")]).1 =
      .error (.unknownField "Shop" "price") := rfl
  have hremains : listed.remains shop [.leaf (.plain "name")] = [.extend ⟨"Shop", [named]⟩] := rfl
  have homitted := (Step.failures_undone shop).2.2.1 [.field "name" .none] [.field "id" .none] listed
    [] _ _ hsteps hfails
  rw [hremains] at homitted
  exact ⟨hsteps, hfails, homitted, rfl⟩

end GraphQLClient
