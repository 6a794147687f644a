import GraphQLClient.Proofs.Building.Selecting

set_option autoImplicit false

/-!
# Adding finished selections anew

`Rebuilds` says which finished selections a scope takes and what it makes of them. The result is
determined by the selections, so that a set that is added a second time is known beforehand.
-/

namespace GraphQLClient.Scope

open Building

variable {scope : Scope} {before : List Selection}

mutual
/-- Adding a finished selection to `before` succeeds and leads to `after`. -/
def Rebuilds (scope : Scope) : Selection → List Selection → List Selection → Prop
  | .leaf field, before, after =>
    scope.TakesLeaf before field ∧ after = Selection.settled before field.responseKey (.leaf field)
  | .composite field _ selections, before, after =>
    ∃ type inner, scope.Takes before field type inner ∧
      RebuildsAll (scope.within type) selections [] inner ∧
      after = Selection.settled before field.responseKey (.composite field type.name inner)
  | .inlineFragment condition _ selections, before, after =>
    ∃ target inner, scope.Admits condition target ∧
      RebuildsAll (scope.within target) selections [] inner ∧ inner ≠ [] ∧
      after = before ++ [.inlineFragment target.name target.name inner]
  | .spread serial name condition typeName selections, before, after =>
    (∃ target, scope.Admits condition target) ∧
      after = spreadBeside before ⟨serial, name, condition, ⟨typeName, selections⟩⟩

def RebuildsAll (scope : Scope) : List Selection → List Selection → List Selection → Prop
  | [], before, after => after = before
  | selection :: rest, before, after =>
    ∃ between, Rebuilds scope selection before between ∧ RebuildsAll scope rest between after
end

mutual
theorem Rebuilds.unique {selection : Selection} {scope : Scope} {before after after' : List Selection}
    (h : scope.Rebuilds selection before after) (h' : scope.Rebuilds selection before after') :
    after = after' := by
  cases selection with
  | leaf field =>
    unfold Rebuilds at h h'
    exact h.2.trans h'.2.symm
  | composite field typeName selections =>
    unfold Rebuilds at h h'
    obtain ⟨type, inner, ht, hi, rfl⟩ := h
    obtain ⟨type', inner', ht', hi', rfl⟩ := h'
    obtain rfl := Offers.unique ht.1.1 ht'.1.1
    rw [RebuildsAll.unique hi hi']
  | inlineFragment condition typeName selections =>
    unfold Rebuilds at h h'
    obtain ⟨target, inner, ht, hi, -, rfl⟩ := h
    obtain ⟨target', inner', ht', hi', -, rfl⟩ := h'
    obtain rfl := Admits.unique ht ht'
    rw [RebuildsAll.unique hi hi']
  | spread serial name condition typeName selections =>
    unfold Rebuilds at h h'
    exact h.2.trans h'.2.symm

theorem RebuildsAll.unique {selections : List Selection} {scope : Scope}
    {before after after' : List Selection} (h : scope.RebuildsAll selections before after)
    (h' : scope.RebuildsAll selections before after') : after = after' := by
  cases selections with
  | nil =>
    unfold RebuildsAll at h h'
    exact h.trans h'.symm
  | cons selection rest =>
    unfold RebuildsAll at h h'
    obtain ⟨between, hs, hr⟩ := h
    obtain ⟨between', hs', hr'⟩ := h'
    obtain rfl := Rebuilds.unique hs hs'
    exact RebuildsAll.unique hr hr'
end

theorem rebuildsAll_append {selections more before after : List Selection} :
    scope.RebuildsAll (selections ++ more) before after ↔
      ∃ between, scope.RebuildsAll selections before between ∧
        scope.RebuildsAll more between after := by
  induction selections generalizing before with
  | nil => simp [RebuildsAll]
  | cons selection rest ih =>
    simp only [List.cons_append, RebuildsAll, ih]
    constructor
    · rintro ⟨between, hs, next, hr, hm⟩
      exact ⟨next, ⟨between, hs, hr⟩, hm⟩
    · rintro ⟨next, ⟨between, hs, hr⟩, hm⟩
      exact ⟨between, hs, next, hr, hm⟩

theorem rebuildsAll_singleton {selection : Selection} {before after : List Selection} :
    scope.RebuildsAll [selection] before after ↔ scope.Rebuilds selection before after := by
  simp only [RebuildsAll]
  constructor
  · rintro ⟨_, h, rfl⟩
    exact h
  · exact fun h => ⟨after, h, rfl⟩

/-- Selections made anew in a set of their own. -/
theorem runs_rebuilt {child : Scope} {selections : List Selection} (typeName : String)
    (h : Runs [] (child.addSelections selections)
      (fun _ s => child.RebuildsAll selections [] s)
      (fun _ s => (∀ after, ¬ child.RebuildsAll selections [] after) ∧
        ∃ done, done <+: selections ∧ child.RebuildsAll done [] s)) :
    Runs before (nested (do visit typeName; child.addSelections selections))
      (fun inner s => child.RebuildsAll selections [] inner ∧ s = before)
      (fun _ s => (∀ inner, ¬ child.RebuildsAll selections [] inner) ∧ s = before) := by
  have hbody : Runs [] (do visit typeName; child.addSelections selections)
      (fun _ s => child.RebuildsAll selections [] s)
      (fun _ _ => ∀ after, ¬ child.RebuildsAll selections [] after) := by
    refine runs_bind (runs_visit _) ?_
    rintro _ _ rfl
    exact runs_mono h (fun _ _ h => h) (fun _ _ h => h.1)
  refine runs_mono (runs_nested hbody) (fun _ _ h => h) ?_
  rintro _ _ ⟨⟨_, h⟩, hs⟩
  exact ⟨h, hs⟩

mutual
theorem runs_addSelection (scope : Scope) (selection : Selection) (before : List Selection) :
    Runs before (scope.addSelection selection)
      (fun _ s => scope.Rebuilds selection before s)
      (fun _ s => (∀ after, ¬ scope.Rebuilds selection before after) ∧ s = before) := by
  cases selection with
  | leaf field =>
    unfold addSelection Rebuilds
    refine runs_mono (runs_resolvedLeaf field _) (fun _ _ h => h) ?_
    rintro e _ ⟨hn, rfl⟩
    exact ⟨fun after h => hn h.1, rfl⟩
  | composite field typeName selections =>
    unfold addSelection Rebuilds
    refine runs_bind (runs_mono (runs_compositeType _ _) (fun _ _ h => h) ?_) ?_
    · rintro e _ ⟨hn, rfl⟩
      refine ⟨?_, rfl⟩
      rintro after ⟨type, inner, ht, -⟩
      exact hn type ht.1
    · rintro type _ ⟨htype, rfl⟩
      refine runs_bind (runs_mono (runs_rebuilt type.name (runs_addSelections _ selections []))
        (fun _ _ h => h) ?_) ?_
      · rintro e _ ⟨hn, rfl⟩
        refine ⟨?_, rfl⟩
        rintro after ⟨type', inner, ht, hi, -⟩
        obtain rfl := Offers.unique htype.1 ht.1.1
        exact hn inner hi
      · rintro inner _ ⟨hi, rfl⟩
        refine runs_mono (runs_pushMade field _ inner htype) ?_ ?_
        · rintro _ _ ⟨ht, rfl⟩
          exact ⟨type, inner, ht, hi, rfl⟩
        · rintro e _ ⟨hn, rfl⟩
          refine ⟨?_, rfl⟩
          rintro after ⟨type', inner', ht, hi', -⟩
          obtain rfl := Offers.unique htype.1 ht.1.1
          exact hn (RebuildsAll.unique hi' hi ▸ ht)
  | inlineFragment condition typeName selections =>
    unfold addSelection Rebuilds
    refine runs_bind (runs_mono (runs_fragmentTarget _) (fun _ _ h => h) ?_) ?_
    · rintro e _ ⟨hn, rfl⟩
      exact ⟨fun after ⟨target, _, ht, _⟩ => hn target ht, rfl⟩
    · rintro target _ ⟨htarget, rfl⟩
      refine runs_bind (runs_mono (runs_rebuilt target.name (runs_addSelections _ selections []))
        (fun _ _ h => h) ?_) ?_
      · rintro e _ ⟨hn, rfl⟩
        refine ⟨?_, rfl⟩
        rintro after ⟨target', inner, ht, hi, -⟩
        obtain rfl := Admits.unique htarget ht
        exact hn inner hi
      · rintro inner _ ⟨hi, rfl⟩
        refine runs_mono (runs_pushInlineFragment target inner) ?_ ?_
        · rintro _ _ ⟨hne, rfl⟩
          exact ⟨target, inner, htarget, hi, hne, rfl⟩
        · rintro e _ ⟨hne, rfl⟩
          refine ⟨?_, rfl⟩
          rintro after ⟨target', inner', ht, hi', hne', -⟩
          obtain rfl := Admits.unique htarget ht
          exact hne (RebuildsAll.unique hi' hi ▸ hne')
  | spread serial name condition typeName selections =>
    unfold addSelection Rebuilds
    refine runs_mono (runs_addSpread _) (fun _ _ h => h) ?_
    rintro e _ ⟨hn, rfl⟩
    exact ⟨fun after ⟨⟨target, ht⟩, _⟩ => hn target ht, rfl⟩

theorem runs_addSelections (scope : Scope) (selections before : List Selection) :
    Runs before (scope.addSelections selections)
      (fun _ s => scope.RebuildsAll selections before s)
      (fun _ s => (∀ after, ¬ scope.RebuildsAll selections before after) ∧
        ∃ done, done <+: selections ∧ scope.RebuildsAll done before s) := by
  cases selections with
  | nil =>
    unfold addSelections RebuildsAll
    exact runs_pure rfl
  | cons selection rest =>
    unfold addSelections
    refine runs_bind (runs_mono (runs_addSelection scope selection before) (fun _ _ h => h) ?_) ?_
    · rintro e _ ⟨hn, rfl⟩
      refine ⟨?_, [], List.nil_prefix, by unfold RebuildsAll; rfl⟩
      unfold RebuildsAll
      exact fun after ⟨between, hs, _⟩ => hn between hs
    · intro _ between hs
      refine runs_mono (runs_addSelections scope rest between) ?_ ?_
      · intro _ _ h
        unfold RebuildsAll
        exact ⟨between, hs, h⟩
      · rintro e s ⟨hn, done, hd, h⟩
        refine ⟨?_, selection :: done, ?_, ?_⟩
        · unfold RebuildsAll
          rintro after ⟨between', hs', hr⟩
          obtain rfl := Rebuilds.unique hs hs'
          exact hn after hr
        · simpa using hd
        · unfold RebuildsAll
          exact ⟨between, hs, h⟩
end

end GraphQLClient.Scope
