import GraphQLClient.Proofs.Building.Traces
import GraphQLClient.Proofs.Decoding.Starts

set_option autoImplicit false

/-!
# Types that a build does not know

On a complete bundle no field leads out of the bundle. So whatever is built, a type that is not known
was named by the caller: as the type of a fragment or of a variable. This holds of the error that a
build ends with, and of those of steps that were only attempted, which stand in the journal.
-/

namespace GraphQLClient

/-- `E` holds of the errors in the journal. -/
def JournalEntry.Within (E : BuildError → Prop) (journal : List JournalEntry) : Prop :=
  ∀ entry ∈ journal, ∀ e, entry.error? = some e → E e

namespace Building

variable {α β : Type} {E : BuildError → Prop} {m : Building α} {Q : α → Prop} {body : Building Unit}

/-- A value of the computation is in `Q`, and its errors are in `E`: the one that it ends with, and all
that it leaves in the journal. -/
def Ensures (E : BuildError → Prop) (m : Building α) (Q : α → Prop) : Prop :=
  ∀ draft : Draft, JournalEntry.Within E draft.journal →
    JournalEntry.Within E (m.run draft).2.journal ∧
      match (m.run draft).1 with
      | .ok a => Q a
      | .error e => E e

theorem ensures_pure {a : α} (h : Q a) : Ensures E (pure a) Q := fun _ hj => ⟨hj, h⟩

theorem ensures_throw {e : BuildError} (h : E e) : Ensures E (throw e) Q := fun _ hj => ⟨hj, h⟩

theorem ensures_checked {result : Except BuildError α} (hok : ∀ a, result = .ok a → Q a)
    (herror : ∀ e, result = .error e → E e) : Ensures E (checked result) Q := by
  intro draft hj
  cases result with
  | ok a => exact ⟨hj, hok a rfl⟩
  | error e => exact ⟨hj, herror e rfl⟩

theorem ensures_visit (typeName : String) : Ensures E (visit typeName) fun _ => True :=
  fun _ hj => ⟨hj, trivial⟩

theorem ensures_selections : Ensures E selections fun _ => True := fun _ hj => ⟨hj, trivial⟩

theorem ensures_push (selection : Selection) : Ensures E (push selection) fun _ => True :=
  fun _ hj => ⟨hj, trivial⟩

theorem within_snoc {entry : JournalEntry} {journal : List JournalEntry}
    (hj : JournalEntry.Within E journal) (h : ∀ e, entry.error? = some e → E e) :
    JournalEntry.Within E (journal ++ [entry]) := by
  intro other ho
  rcases List.mem_append.1 ho with ho | ho
  · exact hj other ho
  · obtain rfl := List.mem_singleton.1 ho
    exact h

theorem ensures_note {entry : JournalEntry} (h : ∀ e, entry.error? = some e → E e) :
    Ensures E (note entry) fun _ => True :=
  fun _ hj => ⟨within_snoc hj h, trivial⟩

theorem ensures_bind {f : α → Building β} {R : β → Prop} (h : Ensures E m Q)
    (hf : ∀ a, Q a → Ensures E (f a) R) : Ensures E (m >>= f) R := by
  intro draft hj
  have hm := h draft hj
  rw [run_bind]
  rcases hr : m.run draft with ⟨e | a, after⟩ <;> rw [hr] at hm
  · exact hm
  · exact hf a hm.2 after hm.1

theorem ensures_ite {c : Prop} [Decidable c] {m' : Building α} (h : Ensures E m Q)
    (h' : Ensures E m' Q) : Ensures E (if c then m else m') Q := by
  split
  · exact h
  · exact h'

theorem ensures_nested (h : Ensures E body fun _ => True) : Ensures E (nested body) fun _ => True := by
  intro draft hj
  have hb := h { draft with selections := [] } hj
  rw [run_nested]
  rcases hr : body.run { draft with selections := [] } with ⟨e | _, after⟩ <;> rw [hr] at hb <;>
    exact hb

/-- A step that ends with an error writes it into the journal. -/
theorem ensures_journaled {kind : StepKind} {typeName : String}
    (h : Ensures E body fun _ => True) : Ensures E (journaled kind typeName body) fun _ => True := by
  intro draft hj
  have hb := h draft hj
  rw [run_journaled]
  rcases hr : body.run draft with ⟨e | _, after⟩ <;> rw [hr] at hb
  · refine ⟨within_snoc hb.1 fun e' he => ?_, hb.2⟩
    obtain rfl : e = e' := Option.some.inj he
    exact hb.2
  · exact ⟨within_snoc hb.1 fun e' he => (nomatch he), trivial⟩

theorem ensures_attempted (h : Ensures E body fun _ => True) :
    Ensures E (do let _ ← caught body) fun _ => True := by
  intro draft hj
  have hb := h draft hj
  rw [run_bind, run_caught]
  rcases hr : body.run draft with ⟨e | _, after⟩ <;> rw [hr] at hb <;> exact ⟨hb.1, trivial⟩

end Building

/-- The error is not about an unknown type, or about one that was given and that the bundle does not
hold. -/
def BuildError.Blames (bundle : Bundle) (given : List String) (e : BuildError) : Prop :=
  ∀ name, e = .unknownType name → name ∈ given ∧ bundle.get? name = none

mutual
/-- The types of the fragments in a selection, not looking into the bodies of spread ones. -/
def Selection.conditions : Selection → List String
  | .leaf _ => []
  | .composite _ _ selections => conditionsOfAll selections
  | .inlineFragment condition _ selections => condition :: conditionsOfAll selections
  | .spread _ _ condition _ _ => [condition]

def Selection.conditionsOfAll : List Selection → List String
  | [] => []
  | selection :: rest => selection.conditions ++ conditionsOfAll rest
end

namespace Step

mutual
/-- The types of the fragments that a step asks for. -/
def conditions : Step → List String
  | .object _ _ body => conditionsOfAll body
  | .connection _ _ body => conditionsOfAll body
  | .fragmentOn typeName body => typeName :: conditionsOfAll body
  | .spread fragment => [fragment.condition]
  | .selection made => made.conditions
  | .extend set => Selection.conditionsOfAll set.selections
  | .attempt step => conditions step
  | .field _ _ => []
  | .snapshot => []

def conditionsOfAll : List Step → List String
  | [] => []
  | step :: rest => conditions step ++ conditionsOfAll rest
end

end Step

namespace Scope

open Building BuildError

variable {scope : Scope} {given : List String}

/-- Selections are made on a type of a complete bundle. -/
structure Founded (scope : Scope) : Prop where
  complete : scope.bundle.Complete
  known : scope.bundle.get? scope.type.name = some scope.type

theorem Founded.within (h : scope.Founded) {name : String} {type : TypeDescriptor}
    (hget : scope.bundle.get? name = some type) : (scope.within type).Founded :=
  ⟨h.complete, Bundle.get?_self hget⟩

theorem argumentError?_blames {fieldName : String} {argument : String × Value} {e : BuildError}
    (h : scope.argumentError? fieldName argument = some e) : e.Blames scope.bundle given := by
  unfold argumentError? at h
  split at h
  · obtain ⟨name, -, rfl⟩ := Option.map_eq_some_iff.1 h
    exact fun _ he => nomatch he
  · obtain rfl := Option.some.inj h
    exact fun _ he => nomatch he

/-- The type of a field is always known. -/
theorem check_blames (h : scope.Founded) {name : String} {options : FieldOptions} {e : BuildError}
    (he : scope.check name options = .error e) : e.Blames scope.bundle given := by
  unfold check at he
  split at he
  · split at he
    · cases he
      exact fun _ he => nomatch he
    · cases he
  · split at he
    · cases he
      exact fun _ he => nomatch he
    · rename_i field hfield
      obtain ⟨found, hfound⟩ := h.complete.contains_of_field? h.known hfield
      split at he
      · cases he
        exact fun _ he => nomatch he
      · split at he
        · rename_i hargument
          obtain ⟨argument, -, hargument⟩ := List.exists_of_findSome?_eq_some hargument
          cases he
          exact argumentError?_blames hargument
        · rw [lookup, hfound] at he
          cases he

theorem ensures_resolve (h : scope.Founded) (name : String) (options : FieldOptions) :
    Ensures (Blames scope.bundle given) (scope.resolve name options)
      fun type => ∀ found, type = some found → (scope.within found).Founded := by
  refine ensures_bind (Q := fun type => ∀ found, type = some found → (scope.within found).Founded)
    (ensures_checked ?_ fun e => check_blames h) fun type hq => ?_
  · rintro _ hok found rfl
    obtain ⟨-, declared, -, hget, -⟩ := (check_eq_ok_iff name options _).1 hok
    exact h.within hget
  · exact ensures_bind (ensures_visit _) fun _ _ => ensures_pure hq

theorem ensures_compositeType (h : scope.Founded) (name : String) (options : FieldOptions) :
    Ensures (Blames scope.bundle given) (scope.compositeType name options)
      fun type => (scope.within type).Founded := by
  refine ensures_bind (ensures_resolve h name options) fun type hfounded => ?_
  cases type with
  | none => exact ensures_throw fun _ he => nomatch he
  | some type =>
    exact ensures_ite (ensures_pure (hfounded type rfl)) (ensures_throw fun _ he => nomatch he)

theorem ensures_pushField (field : Field) (selection : Selection) :
    Ensures (Blames scope.bundle given) (scope.pushField field selection) fun _ => True := by
  refine ensures_bind ensures_selections fun before _ => ?_
  cases before.find? (Selection.answers field.responseKey) with
  | none => exact ensures_push _
  | some found => exact ensures_ite (ensures_pure trivial) (ensures_throw fun _ he => nomatch he)

/-- A fragment may be on a type that is not known. -/
theorem ensures_fragmentTarget (h : scope.Founded) {condition : String} (hgiven : condition ∈ given) :
    Ensures (Blames scope.bundle given) (scope.fragmentTarget condition)
      fun target => (scope.within target).Founded := by
  rw [fragmentTarget_eq]
  refine ensures_checked (fun target hok => h.within (admitted_eq_ok_iff.1 hok).1) fun e he => ?_
  unfold admitted at he
  split at he
  · rename_i hnone
    cases he
    rintro _ ⟨⟩
    exact ⟨hgiven, hnone⟩
  · split at he
    · cases he
    · cases he
      exact fun _ he => nomatch he

theorem ensures_resolvedLeaf (h : scope.Founded) (field : Field) (typeName : String) :
    Ensures (Blames scope.bundle given)
      (scope.resolvedLeaf field (scope.subselectionRequired typeName)) fun _ => True := by
  refine ensures_bind (ensures_resolve h _ _) fun type _ => ?_
  cases type with
  | none => exact ensures_pushField _ _
  | some type =>
    exact ensures_ite (ensures_throw fun _ he => nomatch he) (ensures_pushField _ _)

theorem ensures_addField (h : scope.Founded) (name : String) (options : FieldOptions) :
    Ensures (Blames scope.bundle given) (scope.addField name options) fun _ => True :=
  ensures_resolvedLeaf h (Field.ofOptions name options false) name

theorem ensures_start (h : scope.Founded) :
    Ensures (Blames scope.bundle given) scope.start fun _ => True := by
  have hname : Ensures (Blames scope.bundle given)
      (if scope.type.isAbstract then scope.addField typenameField .none else pure ()) fun _ => True :=
    ensures_ite (ensures_addField h _ _) (ensures_pure trivial)
  refine ensures_bind (ensures_visit _) fun _ _ => ensures_ite ?_ hname
  exact ensures_bind (ensures_addField h _ _) fun _ _ => hname

theorem ensures_composed (h : scope.Founded) (field : Field) (typeName : String)
    {made : TypeDescriptor → Building Unit}
    (hmade : ∀ type, (scope.within type).Founded →
      Ensures (Blames scope.bundle given) (made type) fun _ => True) :
    Ensures (Blames scope.bundle given)
      (scope.composed field made (scope.subselectionRequired typeName)) fun _ => True := by
  refine ensures_bind (ensures_compositeType h _ _) fun type htype => ?_
  refine ensures_bind (ensures_nested (hmade type htype)) fun inner _ => ?_
  exact ensures_ite (ensures_throw fun _ he => nomatch he) (ensures_pushField _ _)

variable {body : Scope → Building Unit}

theorem ensures_addObject (h : scope.Founded) (name : String) (options : FieldOptions)
    (hbody : ∀ type, (scope.within type).Founded →
      Ensures (Blames scope.bundle given) (body (scope.within type)) fun _ => True) :
    Ensures (Blames scope.bundle given) (scope.addObject name options body) fun _ => True :=
  ensures_composed h (Field.ofOptions name options false) name fun type htype =>
    ensures_bind (ensures_start htype) fun _ _ => hbody type htype

theorem ensures_addConnected (h : scope.Founded)
    (hbody : ∀ type, (scope.within type).Founded →
      Ensures (Blames scope.bundle given) (body (scope.within type)) fun _ => True) :
    Ensures (Blames scope.bundle given) (scope.addConnected body) fun _ => True := by
  refine ensures_bind (ensures_addObject h _ _ fun edges hedges => ?_) fun _ _ =>
    ensures_addObject h _ _ fun info hinfo => ?_
  · exact ensures_bind (ensures_addField hedges _ _) fun _ _ => ensures_addObject hedges _ _ hbody
  · exact ensures_bind (ensures_addField hinfo _ _) fun _ _ => ensures_addField hinfo _ _

theorem ensures_addConnection (h : scope.Founded) (name : String) (options : FieldOptions)
    (hbody : ∀ type, (scope.within type).Founded →
      Ensures (Blames scope.bundle given) (body (scope.within type)) fun _ => True) :
    Ensures (Blames scope.bundle given) (scope.addConnection name options body) fun _ => True := by
  refine ensures_bind (ensures_compositeType h _ _) fun type htype => ?_
  refine ensures_ite (ensures_throw fun _ he => nomatch he) ?_
  have hconnected : Ensures (Blames scope.bundle given) ((scope.within type).addConnected body)
      fun _ => True := @ensures_addConnected (scope.within type) given body htype hbody
  exact ensures_bind (ensures_nested (ensures_bind (ensures_start htype) fun _ _ => hconnected))
    fun _ _ => ensures_pushField _ _

theorem ensures_addFragmentOn (h : scope.Founded) {typeName : String} (hgiven : typeName ∈ given)
    (hbody : ∀ type, (scope.within type).Founded →
      Ensures (Blames scope.bundle given) (body (scope.within type)) fun _ => True) :
    Ensures (Blames scope.bundle given) (scope.addFragmentOn typeName body) fun _ => True := by
  refine ensures_bind (ensures_fragmentTarget h hgiven) fun target htarget => ?_
  refine ensures_bind (ensures_nested (ensures_bind (ensures_visit _) fun _ _ =>
    hbody target htarget)) fun inner _ => ?_
  exact ensures_ite (ensures_throw fun _ he => nomatch he) (ensures_push _)

theorem ensures_addSpread (h : scope.Founded) {fragment : Fragment}
    (hgiven : fragment.condition ∈ given) :
    Ensures (Blames scope.bundle given) (scope.addSpread fragment) fun _ => True := by
  refine ensures_bind (ensures_fragmentTarget h hgiven) fun target _ => ?_
  refine ensures_bind (ensures_visit _) fun _ _ => ensures_bind ensures_selections fun _ _ => ?_
  exact ensures_ite (ensures_pure trivial) (ensures_push _)

mutual

theorem ensures_addSelection (selection : Selection) {scope : Scope} (h : scope.Founded)
    (hgiven : ∀ name ∈ selection.conditions, name ∈ given) :
    Ensures (Blames scope.bundle given) (scope.addSelection selection) fun _ => True := by
  cases selection with
  | leaf field =>
    unfold addSelection
    exact ensures_resolvedLeaf h field field.name
  | composite field typeName inner =>
    unfold addSelection
    exact ensures_composed h field field.name fun type htype =>
      ensures_bind (ensures_visit _) fun _ _ => ensures_addSelections inner htype hgiven
  | inlineFragment condition typeName inner =>
    unfold addSelection
    obtain ⟨hcondition, hinner⟩ := List.forall_mem_cons.1 hgiven
    have hadd : Ensures (Blames scope.bundle given)
        (scope.addFragmentOn condition fun child => child.addSelections inner) fun _ => True :=
      ensures_addFragmentOn h hcondition fun type htype => ensures_addSelections inner htype hinner
    exact hadd
  | spread serial name condition typeName inner =>
    unfold addSelection
    exact ensures_addSpread h (hgiven condition List.mem_cons_self)

theorem ensures_addSelections (selections : List Selection) {scope : Scope} (h : scope.Founded)
    (hgiven : ∀ name ∈ Selection.conditionsOfAll selections, name ∈ given) :
    Ensures (Blames scope.bundle given) (scope.addSelections selections) fun _ => True := by
  cases selections with
  | nil =>
    unfold addSelections
    exact ensures_pure trivial
  | cons selection rest =>
    obtain ⟨hfirst, hrest⟩ := List.forall_mem_append.1 hgiven
    unfold addSelections
    exact ensures_bind (ensures_addSelection selection h hfirst) fun _ _ =>
      ensures_addSelections rest h hrest

end

end Scope

namespace Step

open Building BuildError

variable {given : List String}

mutual

theorem ensures_run (step : Step) {scope : Scope} (h : scope.Founded)
    (hgiven : ∀ name ∈ step.conditions, name ∈ given) :
    Ensures (Blames scope.bundle given) (step.run scope) fun _ => True := by
  cases step with
  | field name options =>
    unfold run
    exact ensures_journaled (Scope.ensures_addField h name options)
  | object name options body =>
    unfold run
    exact ensures_journaled (Scope.ensures_addObject h name options fun type htype =>
      ensures_runAll body htype hgiven)
  | connection name options body =>
    unfold run
    exact ensures_journaled (Scope.ensures_addConnection h name options fun type htype =>
      ensures_runAll body htype hgiven)
  | fragmentOn typeName body =>
    unfold run
    obtain ⟨hcondition, hbody⟩ := List.forall_mem_cons.1 hgiven
    exact ensures_journaled (Scope.ensures_addFragmentOn h hcondition fun type htype =>
      ensures_runAll body htype hbody)
  | spread fragment =>
    unfold run
    exact ensures_journaled (Scope.ensures_addSpread h (hgiven _ List.mem_cons_self))
  | selection made =>
    unfold run
    exact ensures_journaled (Scope.ensures_addSelection made h hgiven)
  | extend set =>
    unfold run
    exact ensures_journaled (Scope.ensures_addSelections set.selections h hgiven)
  | attempt step =>
    unfold run
    exact ensures_journaled (ensures_attempted (ensures_run step h hgiven))
  | snapshot =>
    unfold run
    exact ensures_bind ensures_selections fun _ _ => ensures_note fun _ he => nomatch he

/-- No program finds a type missing that it did not name itself. -/
theorem ensures_runAll (steps : List Step) {scope : Scope} (h : scope.Founded)
    (hgiven : ∀ name ∈ conditionsOfAll steps, name ∈ given) :
    Ensures (Blames scope.bundle given) (runAll scope steps) fun _ => True := by
  cases steps with
  | nil =>
    unfold runAll
    exact ensures_pure trivial
  | cons step rest =>
    obtain ⟨hfirst, hrest⟩ := List.forall_mem_append.1 hgiven
    unfold runAll
    exact ensures_bind (ensures_run step h hfirst) fun _ _ => ensures_runAll rest h hrest

end

end Step

namespace BuildOutcome

variable {α β : Type} {e : BuildError}

/-- The build ends with the error, or a step that it goes on after does. -/
def Reports (outcome : BuildOutcome α) (e : BuildError) : Prop :=
  outcome.result = .error e ∨ ∃ entry ∈ outcome.journal, entry.error? = some e

theorem eq_of_reports {found : BuildError} (h : Reports (⟨.error found, [], []⟩ : BuildOutcome α) e) :
    found = e := by
  rcases h with h | ⟨entry, hentry, -⟩
  · exact Except.error.inj h
  · exact absurd hentry List.not_mem_nil

theorem reports_of_map {outcome : BuildOutcome α} {f : α → β}
    (h : Reports { outcome with result := outcome.result.map f } e) : outcome.Reports e := by
  rcases h with h | h
  · left
    cases hr : outcome.result with
    | ok a =>
      rw [hr] at h
      cases h
    | error found =>
      rw [hr] at h
      cases h
      rfl
  · exact .inr h

end BuildOutcome

open BuildError

namespace VariableDraft

/-- The type that is given for a variable, if its text can be read. -/
def typeName? (draft : VariableDraft) : Option String := draft.type.toOption.map TypeRef.namedType

variable {bundle : Bundle}

theorem resolve_blames {resolved : List VariableDefinition} {draft : VariableDraft} {e : BuildError}
    (h : resolve bundle resolved draft = .error e) :
    ∀ name, e = .unknownType name → draft.typeName? = some name ∧ bundle.get? name = none := by
  unfold resolve at h
  split at h
  · cases h
    exact fun _ he => nomatch he
  · split at h
    · cases h
      exact fun _ he => nomatch he
    · rename_i type htype
      split at h
      · cases h
      · rename_i hnot
        cases h
        rintro _ ⟨⟩
        refine ⟨by rw [typeName?, htype]; rfl, ?_⟩
        simpa [Bundle.contains] using hnot

theorem resolveAll_blames {drafts : List VariableDraft} {e : BuildError}
    (h : resolveAll bundle drafts = .error e) : e.Blames bundle (drafts.filterMap typeName?) := by
  -- the variables before those of the fold matter for its other errors only
  have hfold : ∀ (drafts : List VariableDraft) (resolved : List VariableDefinition),
      drafts.foldlM (resolve bundle) resolved = .error e →
        e.Blames bundle (drafts.filterMap typeName?) := by
    intro drafts
    induction drafts with
    | nil => exact fun _ h => nomatch h
    | cons draft rest ih =>
      intro resolved h name hname
      rw [List.foldlM_cons] at h
      cases hd : resolve bundle resolved draft with
      | error found =>
        rw [hd] at h
        cases h
        obtain ⟨htype, hnone⟩ := resolve_blames hd name hname
        exact ⟨List.mem_filterMap.2 ⟨draft, List.mem_cons_self, htype⟩, hnone⟩
      | ok after =>
        rw [hd] at h
        obtain ⟨hmem, hnone⟩ := ih after h name hname
        obtain ⟨other, ho, htype⟩ := List.mem_filterMap.1 hmem
        exact ⟨List.mem_filterMap.2 ⟨other, List.mem_cons_of_mem _ ho, htype⟩, hnone⟩
  exact hfold drafts [] h

end VariableDraft

namespace OperationDraft

/-- The types that the caller names: those of the variables and of fragments. -/
def namedTypes (draft : OperationDraft) : List String :=
  draft.declarations.filterMap VariableDraft.typeName? ++ Step.conditionsOfAll draft.program

variable {bundle : Bundle} {draft : OperationDraft} {e : BuildError}

theorem blames_of_buildSet {scope : Scope} {program : List Step} {given : List String}
    (h : scope.Founded) (hgiven : ∀ name ∈ Step.conditionsOfAll program, name ∈ given)
    (he : (buildSet scope program).Reports e) : e.Blames scope.bundle given := by
  have hrun : Building.Ensures (Blames scope.bundle given)
      (do
        scope.start
        Step.runAll scope program) fun _ => True :=
    Building.ensures_bind (Scope.ensures_start h) fun _ _ => Step.ensures_runAll program h hgiven
  obtain ⟨hjournal, hresult⟩ := hrun Draft.empty fun _ hm => absurd hm List.not_mem_nil
  rcases he with he | ⟨entry, hentry, he⟩
  · unfold buildSet at he
    rcases hr : (show Building Unit from do
        scope.start
        Step.runAll scope program).run Draft.empty with ⟨found | _, after⟩ <;>
      rw [hr] at he hresult
    · cases he
      exact hresult
    · dsimp only at he
      split at he
      · cases he
        exact fun _ he => nomatch he
      · cases he
  · exact hjournal entry hentry e he

theorem root?_blames {kind : OperationKind} {given : List String}
    (h : root? bundle kind = .error e) : e.Blames bundle given := by
  cases kind with
  | query => cases h
  | mutation =>
    rw [root?] at h
    cases hroot : bundle.mutationRoot <;> rw [hroot] at h <;> cases h
    rintro _ ⟨⟩

theorem scope_blames (h : draft.scope bundle = .error e) :
    e.Blames bundle (draft.declarations.filterMap VariableDraft.typeName?) := by
  unfold OperationDraft.scope at h
  cases hroot : root? bundle draft.kind with
  | error found =>
    rw [hroot] at h
    cases h
    exact root?_blames hroot
  | ok root =>
    cases hvariables : VariableDraft.resolveAll bundle draft.declarations with
    | error found =>
      rw [hroot, hvariables] at h
      cases h
      exact VariableDraft.resolveAll_blames hvariables
    | ok declarations =>
      cases hused : undeclaredInDirectives? draft.directives declarations <;>
        simp only [hroot, hvariables, hused] at h <;> cases h
      exact fun _ he => nomatch he

/-- On a complete bundle only types that the caller names can be unknown to a build. -/
theorem build_blames (hc : bundle.Complete) (hr : bundle.Rooted)
    (h : (draft.build bundle).Reports e) : e.Blames bundle draft.namedTypes := by
  cases hscope : draft.scope bundle with
  | error found =>
    rw [build, hscope] at h
    obtain rfl := BuildOutcome.eq_of_reports h
    intro name hname
    obtain ⟨hgiven, hnone⟩ := scope_blames hscope name hname
    exact ⟨List.mem_append_left _ hgiven, hnone⟩
  | ok scope =>
    obtain ⟨hroot, -, -, rfl⟩ := scope_eq_ok hscope
    rw [build_of_scope hscope] at h
    exact blames_of_buildSet ⟨hc, hr.get?_root hroot⟩ (fun name hm => List.mem_append_right _ hm)
      (BuildOutcome.reports_of_map h)

end OperationDraft

/-- The types that the caller names: that of the fragment and those of fragments inside. -/
def FragmentDraft.namedTypes (draft : FragmentDraft) : List String :=
  draft.typeName :: Step.conditionsOfAll draft.program

namespace DocumentDraft

variable {document : DocumentDraft} {draft : FragmentDraft} {e : BuildError}

theorem fragmentScope_blames (h : document.fragmentScope draft = .error e) :
    e.Blames document.bundle draft.namedTypes := by
  unfold fragmentScope at h
  split at h
  · cases h
    exact fun _ he => nomatch he
  · split at h
    · rename_i hnone
      cases h
      rintro _ ⟨⟩
      exact ⟨List.mem_cons_self, hnone⟩
    · split at h
      · cases h
      · cases h
        exact fun _ he => nomatch he

theorem get?_of_fragmentScope {scope : Scope} (h : document.fragmentScope draft = .ok scope) :
    scope.bundle = document.bundle ∧ document.bundle.get? draft.typeName = some scope.type := by
  unfold fragmentScope at h
  split at h
  · cases h
  · split at h
    · cases h
    · rename_i hget
      split at h
      · cases h
        exact ⟨rfl, hget⟩
      · cases h

/-- The same holds where a fragment is defined. -/
theorem buildFragment_blames (hc : document.bundle.Complete) {serial : Nat}
    (h : (document.buildFragment serial draft).Reports e) :
    e.Blames document.bundle draft.namedTypes := by
  cases hscope : document.fragmentScope draft with
  | error found =>
    rw [buildFragment, hscope] at h
    obtain rfl := BuildOutcome.eq_of_reports h
    exact fragmentScope_blames hscope
  | ok scope =>
    obtain ⟨hbundle, hget⟩ := get?_of_fragmentScope hscope
    rw [buildFragment_of_scope serial hscope] at h
    have hfounded : scope.Founded := by
      refine ⟨hbundle ▸ hc, ?_⟩
      rw [hbundle]
      exact Bundle.get?_self hget
    rw [← hbundle]
    exact OperationDraft.blames_of_buildSet hfounded (fun name hm => List.mem_cons_of_mem _ hm)
      (BuildOutcome.reports_of_map h)

end DocumentDraft

end GraphQLClient
