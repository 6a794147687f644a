import GraphQLClient.Proofs.Building.Acceptance
import GraphQLClient.Proofs.Building.Parallels
import GraphQLClient.Proofs.Building.Placing

set_option autoImplicit false

/-!
# The outcome of steps

No computation looks at the visits or at the journal of a draft, so how a program ends and which
selections it leaves is a function of the selections that it finds: `Step.outcome` for one step and
`Step.outcomeAll` for a program. The set below a composite step begins with what the scope tells, so a
program there may be exchanged for one that has the same outcome on that beginning.
-/

namespace GraphQLClient

namespace Building

variable {α β : Type} {before : List Selection} {m : Building α} {f f' : α → Building β}

/-- How the computation ends where only these selections stand, and the selections that it leaves. -/
def outcome (m : Building α) (before : List Selection) : Except BuildError α × List Selection :=
  ((m.run ⟨before, [], []⟩).1, (m.run ⟨before, [], []⟩).2.selections)

/-- Of a draft the computation looks at the selections only. -/
def Blind (m : Building α) : Prop :=
  ∀ draft : Draft, ((m.run draft).1, (m.run draft).2.selections) = outcome m draft.selections

/-- One outcome after the other, unless the first is an error. -/
def onward (first : Except BuildError α × List Selection)
    (next : α → List Selection → Except BuildError β × List Selection) :
    Except BuildError β × List Selection :=
  match first with
  | (.ok a, after) => next a after
  | (.error e, after) => (.error e, after)

theorem outcome_bind (hf : ∀ a, Blind (f a)) :
    outcome (m >>= f) before = onward (outcome m before) fun a => outcome (f a) := by
  unfold outcome
  rw [run_bind]
  rcases m.run ⟨before, [], []⟩ with ⟨e | a, after⟩
  · rfl
  · exact hf a after

theorem outcome_throw_bind (e : BuildError) (f : α → Building β) (before : List Selection) :
    outcome ((throw e : Building α) >>= f) before = (.error e, before) := rfl

theorem blind_bind (h : Blind m) (hf : ∀ a, Blind (f a)) : Blind (m >>= f) := by
  intro draft
  rw [outcome_bind hf, ← h draft, run_bind]
  rcases m.run draft with ⟨e | a, after⟩
  · rfl
  · exact hf a after

theorem outcome_nested (body : Building Unit) (before : List Selection) :
    outcome (nested body) before =
      ((outcome body []).1.map fun _ => (outcome body []).2, before) := rfl

theorem outcome_nested_congr {body body' : Building Unit} (h : outcome body [] = outcome body' []) :
    outcome (nested body) before = outcome (nested body') before := by
  rw [outcome_nested, outcome_nested, h]

theorem blind_nested {body : Building Unit} (h : Blind body) : Blind (nested body) := by
  intro draft
  rw [outcome_nested, ← h { draft with selections := [] }]
  rfl

theorem outcome_journaled (kind : StepKind) (typeName : String) (body : Building Unit)
    (before : List Selection) : outcome (journaled kind typeName body) before = outcome body before := by
  unfold outcome
  rw [run_journaled]
  rcases body.run ⟨before, [], []⟩ with ⟨e | _, after⟩ <;> rfl

theorem blind_journaled {kind : StepKind} {typeName : String} {body : Building Unit}
    (h : Blind body) : Blind (journaled kind typeName body) := by
  intro draft
  rw [outcome_journaled, ← h draft, run_journaled]
  rcases body.run draft with ⟨e | _, after⟩ <;> rfl

/-- An error that is passed over leaves the selections as it left them. -/
theorem outcome_passed (body : Building Unit) (before : List Selection) :
    outcome (do let _ ← caught body) before = (.ok (), (outcome body before).2) := by
  unfold outcome
  rw [run_bind, run_caught]
  rcases body.run ⟨before, [], []⟩ with ⟨e | _, after⟩ <;> rfl

theorem blind_passed {body : Building Unit} (h : Blind body) :
    Blind (do let _ ← caught body) := by
  intro draft
  rw [outcome_passed, ← h draft, run_bind, run_caught]
  rcases body.run draft with ⟨e | _, after⟩ <;> rfl

theorem Runs.outcome {Q : α → List Selection → Prop} {E : BuildError → List Selection → Prop}
    (h : Runs before m Q E) :
    match outcome m before with
    | (.ok a, after) => Q a after
    | (.error e, after) => E e after := by
  have hrun := h ⟨before, [], []⟩ rfl
  unfold Building.outcome
  rcases hm : m.run ⟨before, [], []⟩ with ⟨e | a, after⟩ <;> rw [hm] at hrun <;> exact hrun

theorem blind_ite {c : Prop} [Decidable c] {m' : Building α} (h : Blind m) (h' : Blind m') :
    Blind (if c then m else m') := by
  split
  · exact h
  · exact h'

/-- Computations that begin alike have the same outcome if they go on alike from where that leads. -/
theorem outcome_bind_congr {Q : α → List Selection → Prop}
    {E : BuildError → List Selection → Prop} (hr : Runs before m Q E) (hf : ∀ a, Blind (f a))
    (hf' : ∀ a, Blind (f' a)) (h : ∀ a after, Q a after → outcome (f a) after = outcome (f' a) after) :
    outcome (m >>= f) before = outcome (m >>= f') before := by
  have houtcome := hr.outcome
  rw [outcome_bind hf, outcome_bind hf']
  rcases hm : outcome m before with ⟨e | a, after⟩
  · rfl
  · rw [hm] at houtcome
    exact h a after houtcome

/-- They end alike if they go on to the same end. -/
theorem result_bind_congr {Q : α → List Selection → Prop}
    {E : BuildError → List Selection → Prop} (hr : Runs before m Q E) (hf : ∀ a, Blind (f a))
    (hf' : ∀ a, Blind (f' a))
    (h : ∀ a after, Q a after → (outcome (f a) after).1 = (outcome (f' a) after).1) :
    (outcome (m >>= f) before).1 = (outcome (m >>= f') before).1 := by
  have houtcome := hr.outcome
  rw [outcome_bind hf, outcome_bind hf']
  rcases hm : outcome m before with ⟨e | a, after⟩
  · rfl
  · rw [hm] at houtcome
    exact h a after houtcome

theorem outcome_bind_left {m' : Building α} (hf : ∀ a, Blind (f a))
    (h : outcome m before = outcome m' before) :
    outcome (m >>= f) before = outcome (m' >>= f) before := by
  rw [outcome_bind hf, outcome_bind hf, h]

end Building

namespace Scope

open Building

variable {scope : Scope} {before : List Selection}

/-- Every computation that steps are made of is blind. -/
theorem parallel_blind (scope : Scope) : Parallel (fun _ m _ => Blind m) True scope scope where
  value _ := fun _ => rfl
  error _ := fun _ => rfl
  visit _ := fun _ => rfl
  note _ := fun _ => rfl
  selections := fun _ => rfl
  push _ := fun _ => rfl
  bind h hf := blind_bind h hf
  nested h := blind_nested h
  journaled _ _ h := blind_journaled h
  attempted _ _ _ h := blind_passed h
  resolve _ _ _ := blind_bind (fun _ => rfl) fun _ => blind_bind (fun _ => rfl) fun _ _ => rfl
  targeted _ _ _ hf := blind_bind
    (blind_bind (fun _ => rfl) fun _ => by split <;> exact fun _ => rfl) hf

theorem blind_addSelections (scope : Scope) (selections : List Selection) :
    Blind (scope.addSelections selections) :=
  (parallel_blind scope).addSelections scope.type selections

theorem outcome_addSelections_cons (selection : Selection) (rest : List Selection) :
    outcome (scope.addSelections (selection :: rest)) before =
      onward (outcome (scope.addSelection selection) before) fun _ =>
        outcome (scope.addSelections rest) := by
  rw [addSelections]
  exact outcome_bind fun _ => blind_addSelections scope rest

/-- The program that fills a new set matters by what it makes of the beginning of the set. -/
theorem outcome_opened {body body' : Building Unit} (hb : Blind body) (hb' : Blind body')
    (h : outcome body scope.opening = outcome body' scope.opening) :
    outcome (do scope.start; body) [] = outcome (do scope.start; body') [] := by
  refine outcome_bind_congr runs_start (fun _ => hb) (fun _ => hb') ?_
  rintro _ _ ⟨-, rfl⟩
  exact h

theorem blind_pushMade (field : Field) (typeName : String) (error : BuildError)
    (inner : List Selection) : Blind (scope.pushMade field typeName error inner) :=
  blind_ite (fun _ => rfl) ((parallel_blind scope).pushField scope.type field _)

theorem blind_addObject (type : TypeDescriptor) (name : String) (options : FieldOptions)
    {body : Scope → Building Unit} (hb : ∀ found, Blind (body (scope.within found))) :
    Blind ((scope.within type).addObject name options body) :=
  @Parallel.addObject _ _ _ _ body body (parallel_blind scope) type name options hb

theorem blind_addConnected (type : TypeDescriptor) {body : Scope → Building Unit}
    (hb : ∀ found, Blind (body (scope.within found))) :
    Blind ((scope.within type).addConnected body) :=
  @Parallel.addConnected _ _ _ _ body body (parallel_blind scope) type hb

section

variable {body body' : Scope → Building Unit} (hb : ∀ type, Blind (body (scope.within type)))
  (hb' : ∀ type, Blind (body' (scope.within type))) {name : String} {options : FieldOptions}

include hb hb'

theorem outcome_addObject
    (h : ∀ type, scope.OffersObject name options.arguments type →
      outcome (body (scope.within type)) (scope.within type).opening =
        outcome (body' (scope.within type)) (scope.within type).opening) :
    outcome (scope.addObject name options body) before =
      outcome (scope.addObject name options body') before := by
  have hstart : ∀ type, Blind (scope.within type).start := (parallel_blind scope).start
  refine outcome_bind_congr (runs_compositeType name options) (fun type => ?_) (fun type => ?_) ?_
  · exact blind_bind (blind_nested (blind_bind (hstart type) fun _ => hb type)) fun _ =>
      blind_pushMade _ _ _ _
  · exact blind_bind (blind_nested (blind_bind (hstart type) fun _ => hb' type)) fun _ =>
      blind_pushMade _ _ _ _
  · rintro type _ ⟨ho, rfl⟩
    exact outcome_bind_left (fun _ => blind_pushMade _ _ _ _)
      (outcome_nested_congr (outcome_opened (hb type) (hb' type) (h type ho)))

/-- The fields of a connection, with different programs on its nodes. -/
theorem outcome_addConnected (type : TypeDescriptor)
    (h : ∀ edges node, (scope.within type).OffersObject "edges" [] edges →
      (scope.within edges).OffersObject "node" [] node →
        outcome (body (scope.within node)) (scope.within node).opening =
          outcome (body' (scope.within node)) (scope.within node).opening) :
    outcome ((scope.within type).addConnected body) before =
      outcome ((scope.within type).addConnected body') before := by
  have hfield : ∀ found name, Blind ((scope.within found).addField name .none) :=
    fun found name => (parallel_blind scope).addField found name .none
  refine outcome_bind_left (fun _ => blind_addObject type _ _ fun info =>
    blind_bind (hfield info _) fun _ => hfield info _) ?_
  refine outcome_addObject
    (fun edges => blind_bind (hfield edges _) fun _ => blind_addObject edges _ _ hb)
    (fun edges => blind_bind (hfield edges _) fun _ => blind_addObject edges _ _ hb') ?_
  intro edges hedges
  refine outcome_bind_congr (runs_addField "cursor" .none)
    (fun _ => blind_addObject edges _ _ hb) (fun _ => blind_addObject edges _ _ hb') fun _ _ _ => ?_
  exact @outcome_addObject (scope.within edges) _ _ _ hb hb' _ _ fun node hnode =>
    h edges node hedges hnode

theorem outcome_addConnection
    (h : ∀ type edges node, scope.OffersObject name options.arguments type →
      (scope.within type).OffersObject "edges" [] edges →
      (scope.within edges).OffersObject "node" [] node →
        outcome (body (scope.within node)) (scope.within node).opening =
          outcome (body' (scope.within node)) (scope.within node).opening) :
    outcome (scope.addConnection name options body) before =
      outcome (scope.addConnection name options body') before := by
  have hblind := parallel_blind scope
  have hpush : ∀ (field : Field) (selection : Selection), Blind (scope.pushField field selection) :=
    hblind.pushField scope.type
  refine outcome_bind_congr (runs_compositeType name options) (fun type => ?_) (fun type => ?_) ?_
  · exact blind_ite (fun _ => rfl) (blind_bind (blind_nested (blind_bind (hblind.start type)
      fun _ => blind_addConnected type hb)) fun _ => hpush _ _)
  · exact blind_ite (fun _ => rfl) (blind_bind (blind_nested (blind_bind (hblind.start type)
      fun _ => blind_addConnected type hb')) fun _ => hpush _ _)
  · rintro type _ ⟨ho, rfl⟩
    by_cases hc : ((type.field? "edges").isNone || (type.field? "pageInfo").isNone) = true
    · simp only [hc, if_true]
      exact (outcome_throw_bind _ _ _).trans (outcome_throw_bind _ _ _).symm
    · simp only [hc]
      have hmade : outcome (do (scope.within type).start; (scope.within type).addConnected body) [] =
          outcome (do (scope.within type).start; (scope.within type).addConnected body') [] :=
        outcome_opened (blind_addConnected type hb) (blind_addConnected type hb')
          (outcome_addConnected hb hb' type fun edges node => h type edges node ho)
      exact outcome_bind_left (fun _ => hpush _ _) (outcome_nested_congr hmade)

theorem outcome_addFragmentOn {condition : String}
    (h : ∀ target, scope.Admits condition target →
      outcome (body (scope.within target)) [] = outcome (body' (scope.within target)) []) :
    outcome (scope.addFragmentOn condition body) before =
      outcome (scope.addFragmentOn condition body') before := by
  have hpush : ∀ (target : TypeDescriptor) (inner : List Selection),
      Blind (pushInlineFragment target inner) := fun target inner =>
    blind_ite (fun _ => rfl) fun _ => rfl
  refine outcome_bind_congr (runs_fragmentTarget condition) (fun target => ?_) (fun target => ?_) ?_
  · exact blind_bind (blind_nested (blind_bind (fun _ => rfl) fun _ => hb target)) fun _ => hpush _ _
  · exact blind_bind (blind_nested (blind_bind (fun _ => rfl) fun _ => hb' target)) fun _ => hpush _ _
  · rintro target _ ⟨ha, rfl⟩
    have hbody : outcome (do visit target.name; body (scope.within target)) [] =
        outcome (do visit target.name; body' (scope.within target)) [] := by
      rw [outcome_bind fun _ => hb target, outcome_bind fun _ => hb' target]
      exact h target ha
    exact outcome_bind_left (fun _ => hpush _ _) (outcome_nested_congr hbody)

end

end Scope

namespace Step

open Building

/-- How a step ends where only these selections stand, and the selections that it leaves. -/
def outcome (scope : Scope) (step : Step) (before : List Selection) :
    Except BuildError Unit × List Selection :=
  Building.outcome (step.run scope) before

def outcomeAll (scope : Scope) (steps : List Step) (before : List Selection) :
    Except BuildError Unit × List Selection :=
  Building.outcome (runAll scope steps) before

variable {scope : Scope} {before : List Selection}

theorem blind_runAll (scope : Scope) (steps : List Step) : Blind (runAll scope steps) :=
  (Scope.parallel_blind scope).runAll scope.type steps (.inl trivial)

@[simp] theorem outcomeAll_nil : outcomeAll scope [] before = (.ok (), before) := by
  unfold outcomeAll runAll
  rfl

theorem outcomeAll_cons (step : Step) (rest : List Step) :
    outcomeAll scope (step :: rest) before =
      onward (outcome scope step before) fun _ => outcomeAll scope rest := by
  unfold outcomeAll
  rw [runAll]
  exact outcome_bind fun _ => blind_runAll scope rest

theorem outcomeAll_append (steps more : List Step) :
    outcomeAll scope (steps ++ more) before =
      onward (outcomeAll scope steps before) fun _ => outcomeAll scope more := by
  unfold outcomeAll
  rw [runAll_append]
  exact outcome_bind fun _ => blind_runAll scope more

@[simp] theorem outcomeAll_singleton (step : Step) :
    outcomeAll scope [step] before = outcome scope step before := by
  rw [outcomeAll_cons]
  rcases outcome scope step before with ⟨e | _, after⟩
  · rfl
  · exact outcomeAll_nil

theorem outcome_attempt (step : Step) :
    outcome scope (.attempt step) before = (.ok (), (outcome scope step before).2) := by
  unfold outcome
  rw [run, outcome_journaled, outcome_passed]

theorem outcome_extend (set : SelectionSet) :
    outcome scope (.extend set) before = Building.outcome (scope.addSelections set.selections) before := by
  unfold outcome
  rw [run, outcome_journaled]

theorem outcome_selection (made : Selection) :
    outcome scope (.selection made) before = Building.outcome (scope.addSelection made) before := by
  unfold outcome
  rw [run, outcome_journaled]

section

variable {body body' : List Step} {name : String} {options : FieldOptions}

/-- Programs for the set below a field may be exchanged if they make the same of its beginning. -/
theorem outcome_object
    (h : ∀ type, scope.OffersObject name options.arguments type →
      outcomeAll (scope.within type) body (scope.within type).opening =
        outcomeAll (scope.within type) body' (scope.within type).opening) :
    outcome scope (.object name options body) before =
      outcome scope (.object name options body') before := by
  unfold outcome
  rw [run, run, outcome_journaled, outcome_journaled]
  exact Scope.outcome_addObject (fun _ => blind_runAll _ body) (fun _ => blind_runAll _ body') h

theorem outcome_connection
    (h : ∀ type edges node, scope.OffersObject name options.arguments type →
      (scope.within type).OffersObject "edges" [] edges →
      (scope.within edges).OffersObject "node" [] node →
        outcomeAll (scope.within node) body (scope.within node).opening =
          outcomeAll (scope.within node) body' (scope.within node).opening) :
    outcome scope (.connection name options body) before =
      outcome scope (.connection name options body') before := by
  unfold outcome
  rw [run, run, outcome_journaled, outcome_journaled]
  exact Scope.outcome_addConnection (fun _ => blind_runAll _ body) (fun _ => blind_runAll _ body') h

theorem outcome_fragmentOn {condition : String}
    (h : ∀ target, scope.Admits condition target →
      outcomeAll (scope.within target) body [] = outcomeAll (scope.within target) body' []) :
    outcome scope (.fragmentOn condition body) before =
      outcome scope (.fragmentOn condition body') before := by
  unfold outcome
  rw [run, run, outcome_journaled, outcome_journaled]
  exact Scope.outcome_addFragmentOn (fun _ => blind_runAll _ body) (fun _ => blind_runAll _ body') h

end

/-! ## What a step can do -/

theorem runs_outcomeAll (scope : Scope) (steps : List Step) (before : List Selection) :
    Runs before (runAll scope steps) (fun _ s => outcomeAll scope steps before = (.ok (), s))
      (fun _ _ => True) := by
  rintro draft rfl
  have hblind := blind_runAll scope steps draft
  rcases hr : (runAll scope steps).run draft with ⟨e | _, after⟩
  · trivial
  · rw [hr] at hblind
    exact hblind.symm

/-- What a step makes that adds one selection: a finished selection anew, or one around what the program
of the step leaves. -/
inductive Made (scope : Scope) : Step → Selection → Prop
  | field {name : String} {options : FieldOptions} {made : Selection}
      (makes : scope.Makes (.leaf (.ofOptions name options false)) made) :
      Made scope (.field name options) made
  | object {name : String} {options : FieldOptions} {body : List Step} {type : TypeDescriptor}
      {inner : List Selection} (offers : scope.OffersObject name options.arguments type)
      (leaves : outcomeAll (scope.within type) body (scope.within type).opening = (.ok (), inner)) :
      Made scope (.object name options body)
        (.composite (.ofOptions name options false) type.name inner)
  | connection {name : String} {options : FieldOptions} {body : List Step}
      {type edges node info : TypeDescriptor} {nodes : List Selection}
      (offers : scope.OffersObject name options.arguments type)
      (connects : (scope.within type).Connects edges node info)
      (leaves : outcomeAll (scope.within node) body (scope.within node).opening = (.ok (), nodes)) :
      Made scope (.connection name options body)
        (.composite (.ofOptions name options true) type.name
          ((scope.within type).connectionSet edges node info nodes))
  | fragmentOn {condition : String} {body : List Step} {target : TypeDescriptor}
      {inner : List Selection} (admits : scope.Admits condition target)
      (leaves : outcomeAll (scope.within target) body [] = (.ok (), inner)) :
      Made scope (.fragmentOn condition body) (.inlineFragment target.name target.name inner)
  | spread {fragment : Fragment} {made : Selection}
      (makes : scope.Makes (.ofFragment fragment) made) : Made scope (.spread fragment) made
  | selection {given made : Selection} (makes : scope.Makes given made) :
      Made scope (.selection given) made

/-- A step that ends with an error leaves what it finds, but for the front of a list that it adds. -/
inductive Stops (scope : Scope) (before : List Selection) : Step → List Selection → Prop
  | extend {set : SelectionSet} {taken after : List Selection} (front : taken <+: set.selections)
      (rebuilds : scope.RebuildsAll taken before after) : Stops scope before (.extend set) after
  | undone {step : Step} : Stops scope before step before

/-- All ways for a step to end well, and what it leaves. -/
inductive Ends (scope : Scope) (before : List Selection) : Step → List Selection → Prop
  | made {step : Step} {made : Selection} (makes : Made scope step made)
      (fits : ∀ key, made.key? = some key → Selection.Fits before key made) :
      Ends scope before step (Selection.beside before made)
  | extend {set : SelectionSet} {after : List Selection}
      (rebuilds : scope.RebuildsAll set.selections before after) :
      Ends scope before (.extend set) after
  | attempt {step : Step} {after : List Selection} (ends : Ends scope before step after) :
      Ends scope before (.attempt step) after
  | passed {step : Step} {after : List Selection} (stops : Stops scope before step after) :
      Ends scope before (.attempt step) after
  | snapshot : Ends scope before .snapshot before

theorem ends_of_rebuilds {step : Step} {selection : Selection} {after : List Selection}
    (hmade : ∀ made, scope.Makes selection made → Made scope step made)
    (h : scope.Rebuilds selection before after) : Ends scope before step after := by
  obtain ⟨made, hmakes, hfits, rfl⟩ := Scope.rebuilds_iff.1 h
  exact .made (hmade made hmakes) hfits

theorem runs_ends (step : Step) (scope : Scope) (before : List Selection) :
    Runs before (step.run scope) (fun _ s => Ends scope before step s)
      (fun _ s => Stops scope before step s) := by
  have hundone : ∀ {s : List Selection}, s = before → Stops scope before step s := by
    rintro s rfl
    exact .undone
  cases step with
  | field name options =>
    refine runs_journaled (runs_mono (scope.runs_addField name options) ?_ fun _ _ h => hundone h.2)
    intro _ _ h
    refine ends_of_rebuilds (fun _ => .field) ?_
    unfold Scope.Rebuilds
    exact h
  | object name options body =>
    refine runs_journaled (runs_mono (scope.runs_addObject (F := fun _ _ _ => True)
      fun type _ _ => runs_outcomeAll _ body _) ?_ fun _ _ h => hundone h.1)
    rintro _ _ ⟨type, inner, ht, -, hinner, rfl⟩
    refine .made (.object ht.1 hinner) ?_
    rintro key ⟨⟩
    exact ht.2.2
  | connection name options body =>
    refine runs_journaled (runs_mono (scope.runs_addConnection
      fun node _ => runs_outcomeAll _ body _) ?_ fun _ _ h => hundone h)
    rintro _ _ ⟨type, edges, node, info, nodes, hc, -, hnodes, ht, rfl⟩
    refine .made (.connection ht.1 hc hnodes) ?_
    rintro key ⟨⟩
    exact ht.2.2
  | fragmentOn condition body =>
    refine runs_journaled (runs_mono (scope.runs_fragment (F := fun _ _ _ => True)
      fun target _ => runs_outcomeAll _ body _) ?_ fun _ _ h => hundone h.1)
    rintro _ _ ⟨target, inner, ha, hinner, -, rfl⟩
    refine .made (.fragmentOn ha hinner) ?_
    rintro key ⟨⟩
  | spread fragment =>
    refine runs_journaled (runs_mono (scope.runs_addSpread fragment) ?_ fun _ _ h => hundone h.2)
    intro _ _ h
    refine ends_of_rebuilds (fun _ => .spread) ?_
    change Scope.Rebuilds scope (.spread _ _ _ _ _) _ _
    unfold Scope.Rebuilds
    exact h
  | selection given =>
    refine runs_journaled (runs_mono (scope.runs_addSelection given before) ?_
      fun _ _ h => hundone h.2)
    exact fun _ _ h => ends_of_rebuilds (fun _ => .selection) h
  | extend set =>
    refine runs_journaled (runs_mono (scope.runs_addSelections set.selections before)
      (fun _ _ h => .extend h) ?_)
    rintro _ _ ⟨-, taken, hfront, h⟩
    exact .extend hfront h
  | attempt step =>
    refine runs_journaled (runs_bind (runs_mono (runs_caught (runs_ends step scope before))
      (fun _ _ h => h) (fun _ _ h => h.elim)) ?_)
    -- an error is passed over, and what the step has left until then stays
    intro error after h
    refine runs_pure ?_
    cases error with
    | none => exact .attempt h
    | some e => exact .passed h
  | snapshot =>
    refine runs_mono runs_snapshot ?_ (fun _ _ h => h)
    rintro _ _ rfl
    exact .snapshot

theorem ends_of_outcome {step : Step} {after : List Selection}
    (h : outcome scope step before = (.ok (), after)) : Ends scope before step after := by
  have hrun := (runs_ends step scope before).outcome
  unfold outcome at h
  rw [h] at hrun
  exact hrun

theorem stops_of_outcome {step : Step} {e : BuildError} {after : List Selection}
    (h : outcome scope step before = (.error e, after)) : Stops scope before step after := by
  have hrun := (runs_ends step scope before).outcome
  unfold outcome at h
  rw [h] at hrun
  exact hrun

end Step

end GraphQLClient
