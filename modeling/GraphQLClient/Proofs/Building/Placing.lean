import GraphQLClient.Proofs.Building.Traces
import GraphQLClient.Proofs.Building.Selecting

set_option autoImplicit false

/-!
# A field beside others

Until a field is put among the selections of its set, nothing looks at these or changes them
(`Aside`). So what a step that selects a field does in a set is told by what it does in an empty one:
the field that it makes there goes to the end, or it is the field that answers its key already, or the
step is refused and leaves the set as it was.
-/

namespace GraphQLClient

namespace Building

variable {α β : Type} {m : Building α} {f : α → Building β}

/-- The computation neither looks at the selections of the draft nor changes them. -/
def Aside (m : Building α) : Prop :=
  ∀ (draft : Draft) (before : List Selection),
    m.run { draft with selections := before } =
      ((m.run draft).1, { (m.run draft).2 with selections := before })

theorem aside_pure (a : α) : Aside (pure a) := fun _ _ => rfl

theorem aside_throw (e : BuildError) : Aside (throw e : Building α) := fun _ _ => rfl

theorem aside_checked (result : Except BuildError α) : Aside (checked result) := fun _ _ => rfl

theorem aside_visit (typeName : String) : Aside (visit typeName) := fun _ _ => rfl

theorem aside_nested (body : Building Unit) : Aside (nested body) := fun _ _ => rfl

theorem aside_ite {c : Prop} [Decidable c] {m' : Building α} (h : Aside m) (h' : Aside m') :
    Aside (if c then m else m') := by
  split
  · exact h
  · exact h'

theorem aside_bind (h : Aside m) (hf : ∀ a, Aside (f a)) : Aside (m >>= f) := by
  intro draft before
  rw [run_bind, run_bind, h draft before]
  rcases m.run draft with ⟨e | a, after⟩
  · rfl
  · exact hf a after before

end Building

namespace Scope

open Building

/-- What comes of a field that is put among the selections before it. -/
def placed (scope : Scope) (key : String) (made : Selection) (before : List Selection) :
    Except BuildError Unit × List Selection :=
  match before.find? (Selection.answers key) with
  | none => (.ok (), before ++ [made])
  | some found =>
    if found.same made then (.ok (), before)
    else (.error (.duplicateField scope.type.name key), before)

/-- In any set the computation goes wrong as it does in an empty one, or places what it makes there. -/
def Places (scope : Scope) (key : String) (m : Building Unit) : Prop :=
  ∀ (draft : Draft) (before : List Selection),
    match m.run { draft with selections := [] } with
    | (.error e, after) =>
      m.run { draft with selections := before } = (.error e, { after with selections := before })
    | (.ok (), after) => ∃ made, made.answers key = true ∧ after.selections = [made] ∧
      m.run { draft with selections := before } =
        ((scope.placed key made before).1,
          { after with selections := (scope.placed key made before).2 })

variable {scope : Scope} {key : String} {α : Type}

theorem places_throw (e : BuildError) : scope.Places key (throw e) := fun _ _ => rfl

theorem places_ite {c : Prop} [Decidable c] {m m' : Building Unit} (h : scope.Places key m)
    (h' : scope.Places key m') : scope.Places key (if c then m else m') := by
  split
  · exact h
  · exact h'

theorem places_bind {m : Building α} {f : α → Building Unit} (h : Aside m)
    (hf : ∀ a, scope.Places key (f a)) : scope.Places key (m >>= f) := by
  intro draft before
  rw [run_bind, run_bind, h draft before, h draft []]
  rcases m.run draft with ⟨e | a, after⟩
  · rfl
  · exact hf a after before

theorem places_pushField (field : Field) {made : Selection}
    (h : made.answers field.responseKey = true) :
    scope.Places field.responseKey (scope.pushField field made) := by
  intro draft before
  refine ⟨made, h, rfl, ?_⟩
  unfold pushField placed
  rw [run_bind]
  have hselections : selections.run { draft with selections := before } =
      (.ok before, { draft with selections := before }) := rfl
  rw [hselections]
  cases hfound : before.find? (Selection.answers field.responseKey) with
  | none =>
    simp only [hfound]
    rfl
  | some found =>
    by_cases hs : found.same made = true
    · simp only [hfound, hs, if_true]
      rfl
    · simp only [hfound, hs]
      rfl

theorem answers_leaf (field : Field) : (Selection.leaf field).answers field.responseKey = true := by
  simp [Selection.answers, Selection.field?]

theorem answers_composite (field : Field) (typeName : String) (inner : List Selection) :
    (Selection.composite field typeName inner).answers field.responseKey = true := by
  simp [Selection.answers, Selection.field?]

theorem aside_resolve (name : String) (options : FieldOptions) :
    Aside (scope.resolve name options) :=
  aside_bind (aside_checked _) fun _ => aside_bind (aside_visit _) fun _ => aside_pure _

theorem aside_compositeType (name : String) (options : FieldOptions) :
    Aside (scope.compositeType name options) := by
  refine aside_bind (aside_resolve name options) fun type => ?_
  cases type with
  | none => exact aside_throw _
  | some type => exact aside_ite (aside_pure _) (aside_throw _)

theorem places_resolvedLeaf (field : Field) (error : TypeDescriptor → BuildError) :
    scope.Places field.responseKey (scope.resolvedLeaf field error) := by
  refine places_bind (aside_resolve _ _) fun type => ?_
  cases type with
  | none => exact places_pushField field (answers_leaf field)
  | some type => exact places_ite (places_throw _) (places_pushField field (answers_leaf field))

theorem places_composed (field : Field) (made : TypeDescriptor → Building Unit)
    (error : TypeDescriptor → BuildError) :
    scope.Places field.responseKey (scope.composed field made error) :=
  places_bind (aside_compositeType _ _) fun _ => places_bind (aside_nested _) fun _ =>
    places_ite (places_throw _) (places_pushField field (answers_composite field _ _))

theorem places_addConnection (name : String) (options : FieldOptions)
    (body : Scope → Building Unit) :
    scope.Places (Field.ofOptions name options true).responseKey
      (scope.addConnection name options body) :=
  places_bind (aside_compositeType _ _) fun _ => places_ite (places_throw _)
    (places_bind (aside_nested _) fun _ => places_pushField _ (answers_composite _ _ _))

theorem places_addSelection {selection : Selection} (h : selection.key? = some key) :
    scope.Places key (scope.addSelection selection) := by
  cases selection with
  | leaf field =>
    obtain rfl := Option.some.inj h
    unfold addSelection
    exact places_resolvedLeaf field _
  | composite field typeName inner =>
    obtain rfl := Option.some.inj h
    unfold addSelection
    exact places_composed field _ _
  | inlineFragment => cases h
  | spread => cases h

end Scope

namespace Step

open Building

/-- The response key of the field that a step selects. -/
def key? : Step → Option String
  | .field name options => some (Field.ofOptions name options false).responseKey
  | .object name options _ => some (Field.ofOptions name options false).responseKey
  | .connection name options _ => some (Field.ofOptions name options true).responseKey
  | .selection made => made.key?
  | _ => none

variable {scope : Scope} {key : String}

/-- A step for a field is a computation that places the field, written into the journal. -/
theorem exists_places {step : Step} (h : step.key? = some key) :
    ∃ kind m, scope.Places key m ∧ step.run scope = journaled kind scope.type.name m := by
  cases step with
  | field name options =>
    obtain rfl := Option.some.inj h
    exact ⟨_, _, Scope.places_resolvedLeaf (Field.ofOptions name options false) _, by unfold run; rfl⟩
  | object name options body =>
    obtain rfl := Option.some.inj h
    exact ⟨_, _, Scope.places_composed (Field.ofOptions name options false) _ _, by unfold run; rfl⟩
  | connection name options body =>
    obtain rfl := Option.some.inj h
    exact ⟨_, _, Scope.places_addConnection name options _, by unfold run; rfl⟩
  | selection made => exact ⟨_, _, Scope.places_addSelection h, by unfold run; rfl⟩
  | _ => cases h

/-- What a step for a field does among other selections, by what it does in an empty set. -/
theorem run_beside {step : Step} (h : step.key? = some key) (draft : Draft)
    (before : List Selection) :
    match (step.run scope).run { draft with selections := [] } with
    | (.error e, _) =>
      ((step.run scope).run { draft with selections := before }).1 = .error e ∧
        ((step.run scope).run { draft with selections := before }).2.selections = before
    | (.ok (), alone) => ∃ made, made.answers key = true ∧ alone.selections = [made] ∧
      ((step.run scope).run { draft with selections := before }).1 =
          (scope.placed key made before).1 ∧
        ((step.run scope).run { draft with selections := before }).2.selections =
          (scope.placed key made before).2 := by
  obtain ⟨kind, m, hm, hrun⟩ := @exists_places scope key step h
  have hplaces := hm draft before
  rw [hrun, run_journaled, run_journaled]
  rcases hr : m.run { draft with selections := [] } with ⟨e | _, after⟩ <;> rw [hr] at hplaces
  · rw [hplaces]
    exact ⟨rfl, rfl⟩
  · obtain ⟨made, hkey, hsel, heq⟩ := hplaces
    rw [heq]
    refine ⟨made, hkey, hsel, ?_⟩
    rcases scope.placed key made before with ⟨e | _, placed⟩ <;> exact ⟨rfl, rfl⟩

theorem runAll_append (scope : Scope) (steps more : List Step) :
    runAll scope (steps ++ more) = (do runAll scope steps; runAll scope more) := by
  induction steps with
  | nil => simp [runAll]
  | cons step rest ih => simp [runAll, ih]

/-- Where a field answers the key already, a step that would make another one ends the program. -/
theorem runAll_duplicate {steps rest : List Step} {step : Step} {draft after : Draft}
    {found made : Selection} (hk : step.key? = some key)
    (hsteps : (runAll scope steps).run draft = (.ok (), after))
    (halone : ∃ alone, (step.run scope).run { after with selections := [] } = (.ok (), alone) ∧
      alone.selections = [made])
    (hfound : after.selections.find? (Selection.answers key) = some found)
    (hs : found.same made = false) :
    ((runAll scope (steps ++ step :: rest)).run draft).1 =
        .error (.duplicateField scope.type.name key) ∧
      ((runAll scope (steps ++ step :: rest)).run draft).2.selections = after.selections := by
  obtain ⟨alone, hrun, hsel⟩ := halone
  have hbeside := @run_beside scope key step hk after after.selections
  rw [hrun] at hbeside
  obtain ⟨made', -, hsel', hresult, hselections⟩ := hbeside
  obtain rfl : made = made' := (List.cons.inj (hsel.symm.trans hsel')).1
  have hplaced : scope.placed key made after.selections =
      (.error (.duplicateField scope.type.name key), after.selections) := by
    simp [Scope.placed, hfound, hs]
  rw [hplaced] at hresult hselections
  rw [runAll_append, run_bind, hsteps]
  unfold runAll
  change ((do run scope step; runAll scope rest).run after).1 = _ ∧
    ((do run scope step; runAll scope rest).run after).2.selections = _
  rw [run_bind]
  rcases hr : (run scope step).run after with ⟨e | _, last⟩
  · rw [hr] at hresult hselections
    exact ⟨congrArg Except.error (Except.error.inj hresult), hselections⟩
  · rw [hr] at hresult
    cases hresult

end Step

end GraphQLClient
