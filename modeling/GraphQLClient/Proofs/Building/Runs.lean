import GraphQLClient.Building.Draft

set_option autoImplicit false

/-!
# Runs of building computations

`Runs before m Q E` says all that matters of a computation on a draft: with the selections `before`
it ends either with a value and selections in `Q` or with an error and selections in `E`. Visits and
the journal are left out, since no computation looks at them. A computation that cannot fail runs
with an `E` that holds of nothing.
-/

namespace GraphQLClient.Building

variable {α β : Type}

def Runs (before : List Selection) (m : Building α) (Q : α → List Selection → Prop)
    (E : BuildError → List Selection → Prop) : Prop :=
  ∀ draft : Draft, draft.selections = before →
    match m.run draft with
    | (.ok a, after) => Q a after.selections
    | (.error e, after) => E e after.selections

variable {before : List Selection} {m : Building α} {Q Q' : α → List Selection → Prop}
  {E E' : BuildError → List Selection → Prop}

theorem runs_pure {a : α} (h : Q a before) : Runs before (pure a) Q E := by
  rintro draft rfl
  exact h

theorem runs_throw {e : BuildError} (h : E e before) : Runs before (throw e) Q E := by
  rintro draft rfl
  exact h

theorem run_bind (m : Building α) (f : α → Building β) (draft : Draft) :
    (m >>= f).run draft =
      match m.run draft with
      | (.ok a, after) => (f a).run after
      | (.error e, after) => (.error e, after) := by
  rw [ExceptT.run_bind]
  change StateT.bind m.run _ draft = _
  unfold StateT.bind
  rcases m.run draft with ⟨_ | _, _⟩ <;> rfl

theorem runs_bind {f : α → Building β} {R : β → List Selection → Prop} (h : Runs before m Q E)
    (hf : ∀ a after, Q a after → Runs after (f a) R E) : Runs before (m >>= f) R E := by
  intro draft hd
  have hm := h draft hd
  rw [run_bind]
  rcases hr : m.run draft with ⟨_ | a, after⟩
  · simpa only [hr] using hm
  · simp only [hr] at hm
    exact hf a _ hm after rfl

theorem runs_mono (h : Runs before m Q E) (hQ : ∀ a s, Q a s → Q' a s) (hE : ∀ e s, E e s → E' e s) :
    Runs before m Q' E' := by
  intro draft hd
  have hm := h draft hd
  rcases hr : m.run draft with ⟨e | a, after⟩
  · simp only [hr] at hm
    exact hE e _ hm
  · simp only [hr] at hm
    exact hQ a _ hm

theorem runs_any (m : Building α) : Runs before m (fun _ _ => True) fun _ _ => True := by
  rintro draft -
  rcases m.run draft with ⟨e | a, after⟩ <;> trivial

theorem runs_checked (result : Except BuildError α) :
    Runs before (checked result) (fun a s => result = .ok a ∧ s = before)
      (fun e s => result = .error e ∧ s = before) := by
  rintro draft rfl
  cases result <;> exact ⟨rfl, rfl⟩

theorem runs_visit (typeName : String) :
    Runs before (visit typeName) (fun _ s => s = before) E := by
  rintro draft rfl
  rfl

theorem runs_note (entry : JournalEntry) :
    Runs before (note entry) (fun _ s => s = before) E := by
  rintro draft rfl
  rfl

theorem runs_selections : Runs before selections (fun a s => a = before ∧ s = before) E := by
  rintro draft rfl
  exact ⟨rfl, rfl⟩

theorem runs_push (selection : Selection) :
    Runs before (push selection) (fun _ s => s = before ++ [selection]) E := by
  rintro draft rfl
  rfl

/-- Below, a body starts without selections; its visits and its journal stay. -/
theorem run_nested (body : Building Unit) (draft : Draft) :
    (nested body).run draft =
      ((body.run { draft with selections := [] }).1.map fun _ =>
        (body.run { draft with selections := [] }).2.selections,
        { (body.run { draft with selections := [] }).2 with selections := draft.selections }) := rfl

/-- The run of `caught body` in terms of that of `body`. -/
theorem run_caught (body : Building Unit) (draft : Draft) :
    (caught body).run draft =
      match body.run draft with
      | (.ok (), after) => (.ok none, after)
      | (.error e, after) => (.ok (some e), after) := rfl

theorem runs_nested {body : Building Unit} {Q : Unit → List Selection → Prop} (h : Runs [] body Q E) :
    Runs before (nested body) (fun inner s => Q () inner ∧ s = before)
      (fun e s => (∃ inner, E e inner) ∧ s = before) := by
  rintro draft rfl
  have hb := h { draft with selections := [] } rfl
  rw [run_nested]
  rcases hr : body.run { draft with selections := [] } with ⟨e | a, after⟩
  · simp only [hr] at hb
    exact ⟨⟨_, hb⟩, rfl⟩
  · simp only [hr] at hb
    exact ⟨hb, rfl⟩

theorem runs_caught {body : Building Unit} {Q : Unit → List Selection → Prop} (h : Runs before body Q E) :
    Runs before (caught body)
      (fun error s => match error with | none => Q () s | some e => E e s) (fun _ _ => False) := by
  intro draft hd
  have hb := h draft hd
  rw [run_caught]
  rcases hr : body.run draft with ⟨e | a, after⟩ <;> rw [hr] at hb <;> exact hb

theorem runs_journaled {kind : StepKind} {typeName : String} {body : Building Unit}
    {Q : Unit → List Selection → Prop} (h : Runs before body Q E) :
    Runs before (journaled kind typeName body) Q E := by
  refine runs_bind (runs_mono (runs_caught h) (fun _ _ h => h) (fun _ _ h => h.elim)) ?_
  intro error after he
  refine runs_bind runs_selections ?_
  rintro _ _ ⟨rfl, rfl⟩
  refine runs_bind (runs_note _) ?_
  rintro _ _ rfl
  cases error with
  | none => exact runs_pure he
  | some e => exact runs_throw he

end GraphQLClient.Building
