import Mathlib.Data.List.Forall2
import GraphQLClient.Proofs.Building.Revalidation

set_option autoImplicit false

/-!
# Which lists of selections a scope takes

A scope takes selections one after the other exactly if it takes each of them by itself, and those
that come out with one response key are the same field. The order in which they stand decides only
which of them are left out.
-/

namespace GraphQLClient

namespace Selection

/-- Each selection fits those before it. -/
def UniformFrom (before : List Selection) : List Selection → Prop
  | [] => True
  | selection :: rest =>
    (∀ key, selection.key? = some key → Fits before key selection) ∧
      UniformFrom (before ++ [selection]) rest

/-- Selections that answer to one response key are the same field. -/
def Uniform (selections : List Selection) : Prop := UniformFrom [] selections

instance (before : List Selection) (key : String) (selection : Selection) :
    Decidable (Fits before key selection) :=
  match h : before.find? (answers key) with
  | none => .isTrue fun found hf => by rw [h] at hf; cases hf
  | some found =>
    if hs : found.same selection = true then
      .isTrue fun other ho => by
        rw [h] at ho
        exact Option.some.inj ho ▸ hs
    else .isFalse fun hf => hs (hf found h)

instance decidableUniformFrom : (before selections : List Selection) →
    Decidable (UniformFrom before selections)
  | _, [] => .isTrue trivial
  | before, selection :: rest =>
    have : Decidable (∀ key, selection.key? = some key → Fits before key selection) :=
      match selection.key? with
      | none => .isTrue fun _ hk => nomatch hk
      | some key =>
        decidable_of_iff (Fits before key selection)
          ⟨fun hf _ hk => Option.some.inj hk ▸ hf, fun hf => hf key rfl⟩
    have := decidableUniformFrom (before ++ [selection]) rest
    inferInstanceAs (Decidable (_ ∧ _))

instance (selections : List Selection) : Decidable (Uniform selections) :=
  decidableUniformFrom [] selections

/-- What stands there once a selection is taken. -/
def beside (before : List Selection) (selection : Selection) : List Selection :=
  match selection with
  | .leaf field => settled before field.responseKey selection
  | .composite field _ _ => settled before field.responseKey selection
  | .inlineFragment .. => before ++ [selection]
  | .spread serial name condition typeName selections =>
    Scope.spreadBeside before ⟨serial, name, condition, ⟨typeName, selections⟩⟩

/-- What makes a selection superfluous: a field of its key or a spread of its name that is there. -/
inductive Superfluous (before : List Selection) (made : Selection) : Prop
  | field {key : String} {found : Selection} (keyed : made.key? = some key)
      (there : before.find? (answers key) = some found)
  | spread {name : String} {found : Selection} (named : made.spreadName? = some name)
      (there : before.find? (Scope.spreads name) = some found)

/-- Both lists have the same first field under every key. -/
def Alike (before before' : List Selection) : Prop :=
  ∀ key, before.find? (answers key) = before'.find? (answers key)

variable {before before' : List Selection} {selection : Selection}

theorem Alike.fits (h : Alike before before') (key : String) :
    Fits before key selection ↔ Fits before' key selection := by
  unfold Fits
  rw [h key]

theorem spreads_iff {name : String} {selection : Selection} :
    Scope.spreads name selection = true ↔ selection.spreadName? = some name := by
  cases selection <;> simp [Scope.spreads, spreadName?]

theorem key?_eq_none_of_spreadName? {name : String} (h : selection.spreadName? = some name) :
    selection.key? = none := by
  cases selection with
  | spread => rfl
  | _ => cases h

/-- A selection is put behind the others unless it is superfluous. -/
theorem beside_cases (before : List Selection) (made : Selection) :
    beside before made = before ++ [made] ∨
      beside before made = before ∧ Superfluous before made := by
  have hsettled : ∀ key, made.key? = some key →
      settled before key made = before ++ [made] ∨
        settled before key made = before ∧ Superfluous before made := by
    intro key hkey
    unfold settled
    cases hfind : before.find? (answers key) with
    | none => exact .inl rfl
    | some found => exact .inr ⟨rfl, .field hkey hfind⟩
  cases made with
  | leaf field => exact hsettled _ rfl
  | composite field typeName inner => exact hsettled _ rfl
  | inlineFragment condition typeName inner => exact .inl rfl
  | spread serial name condition typeName inner =>
    change Scope.spreadBeside before _ = _ ∨ Scope.spreadBeside before _ = _ ∧ _
    unfold Scope.spreadBeside
    split
    · rename_i hany
      obtain ⟨found, hfound⟩ := Option.isSome_iff_exists.1
        (List.find?_isSome.2 (List.any_eq_true.1 hany))
      exact .inr ⟨rfl, .spread rfl hfound⟩
    · exact .inl rfl

theorem Alike.beside (h : Alike before before') (selection : Selection) :
    Alike (beside before selection) (before' ++ [selection]) := by
  intro key
  rw [List.find?_append, ← h key, ← List.find?_append]
  rcases beside_cases before selection with hbeside | ⟨hbeside, hsuperfluous⟩ <;> rw [hbeside]
  rw [List.find?_append]
  by_cases hanswers : selection.answers key = true
  · have hkey := answers_iff_key?.1 hanswers
    cases hsuperfluous with
    | field keyed there =>
      obtain rfl := Option.some.inj (hkey.symm.trans keyed)
      rw [there, Option.some_or]
    | spread named there =>
      rw [key?_eq_none_of_spreadName? named] at hkey
      cases hkey
  · simp [hanswers]

theorem beside_ne_nil (before : List Selection) (selection : Selection) :
    beside before selection ≠ [] := by
  rcases beside_cases before selection with h | ⟨h, hsuperfluous⟩ <;> rw [h]
  · simp
  · rcases hsuperfluous with ⟨_, there⟩ | ⟨_, there⟩ <;>
      exact List.ne_nil_of_mem (List.mem_of_find?_eq_some there)

end Selection

namespace Scope

variable {scope : Scope}

/-- The scope makes `made` of the selection by itself. -/
def Makes (scope : Scope) (selection made : Selection) : Prop := scope.Rebuilds selection [] [made]

/-- What a scope makes of a selection beside others is what it makes of it by itself, if that fits. -/
theorem rebuilds_iff {selection : Selection} {before after : List Selection} :
    scope.Rebuilds selection before after ↔ ∃ made, scope.Makes selection made ∧
      (∀ key, made.key? = some key → Selection.Fits before key made) ∧
        after = Selection.beside before made := by
  have hnil : ∀ key made, Selection.Fits [] key made := by
    intro key made found hf
    cases hf
  cases selection with
  | leaf field =>
    simp only [Makes, Rebuilds]
    constructor
    · rintro ⟨⟨ho, hf⟩, rfl⟩
      refine ⟨.leaf field, ⟨⟨ho, hnil _ _⟩, rfl⟩, ?_, rfl⟩
      rintro key ⟨⟩
      exact hf
    · rintro ⟨made, ⟨⟨ho, -⟩, hmade⟩, hf, rfl⟩
      obtain rfl : made = .leaf field := List.singleton_inj.1 hmade
      exact ⟨⟨ho, hf _ rfl⟩, rfl⟩
  | composite field typeName inner =>
    simp only [Makes, Rebuilds]
    constructor
    · rintro ⟨type, inner, ⟨ho, hne, hf⟩, hi, rfl⟩
      refine ⟨.composite field type.name inner, ⟨type, inner, ⟨ho, hne, hnil _ _⟩, hi, rfl⟩, ?_, rfl⟩
      rintro key ⟨⟩
      exact hf
    · rintro ⟨made, ⟨type, inner, ⟨ho, hne, -⟩, hi, hmade⟩, hf, rfl⟩
      obtain rfl : made = .composite field type.name inner := List.singleton_inj.1 hmade
      exact ⟨type, inner, ⟨ho, hne, hf _ rfl⟩, hi, rfl⟩
  | inlineFragment condition typeName inner =>
    simp only [Makes, Rebuilds]
    constructor
    · rintro ⟨target, inner, ha, hi, hne, rfl⟩
      exact ⟨.inlineFragment target.name target.name inner, ⟨target, inner, ha, hi, hne, rfl⟩,
        (by rintro key ⟨⟩), rfl⟩
    · rintro ⟨made, ⟨target, inner, ha, hi, hne, hmade⟩, -, rfl⟩
      obtain rfl : made = .inlineFragment target.name target.name inner := List.singleton_inj.1 hmade
      exact ⟨target, inner, ha, hi, hne, rfl⟩
  | spread serial name condition typeName inner =>
    simp only [Makes, Rebuilds]
    constructor
    · rintro ⟨ha, rfl⟩
      exact ⟨.spread serial name condition typeName inner, ⟨ha, rfl⟩, (by rintro key ⟨⟩), rfl⟩
    · rintro ⟨made, ⟨ha, hmade⟩, -, rfl⟩
      obtain rfl : made = .spread serial name condition typeName inner := List.singleton_inj.1 hmade
      exact ⟨ha, rfl⟩

/-- The scope takes each of the selections, and what it makes of them goes together. -/
def Accepts (scope : Scope) (selections : List Selection) : Prop :=
  ∃ made, List.Forall₂ scope.Makes selections made ∧ Selection.Uniform made

theorem Accepts.makes {selections : List Selection} {selection : Selection}
    (h : scope.Accepts selections) (hs : selection ∈ selections) :
    ∃ made, scope.Makes selection made := by
  obtain ⟨made, hmade, -⟩ := h
  induction hmade with
  | nil => cases hs
  | cons hfirst _ ih =>
    rcases List.mem_cons.1 hs with rfl | hs
    · exact ⟨_, hfirst⟩
    · exact ih hs

theorem rebuildsAll_iff {selections before before' : List Selection}
    (h : Selection.Alike before before') :
    (∃ after, scope.RebuildsAll selections before after) ↔
      ∃ made, List.Forall₂ scope.Makes selections made ∧ Selection.UniformFrom before' made := by
  -- `before'` keeps the repetitions that `before` leaves out; the first field of a key is the same
  induction selections generalizing before before' with
  | nil =>
    unfold RebuildsAll
    exact ⟨fun _ => ⟨[], .nil, trivial⟩, fun _ => ⟨_, rfl⟩⟩
  | cons selection rest ih =>
    simp only [RebuildsAll, rebuilds_iff]
    constructor
    · rintro ⟨after, between, ⟨first, hfirst, hfits, rfl⟩, hrest⟩
      obtain ⟨made, hmade, huniform⟩ := (ih (h.beside first)).1 ⟨after, hrest⟩
      exact ⟨first :: made, .cons hfirst hmade,
        fun key hk => (h.fits key).1 (hfits key hk), huniform⟩
    · rintro ⟨made, hmade, huniform⟩
      obtain ⟨first, others, hfirst, hothers, rfl⟩ := List.forall₂_cons_left_iff.1 hmade
      obtain ⟨hfits, huniform⟩ := huniform
      obtain ⟨after, hrest⟩ := (ih (h.beside first)).2 ⟨others, hothers, huniform⟩
      exact ⟨after, _, ⟨first, hfirst, fun key hk => (h.fits key).2 (hfits key hk), rfl⟩, hrest⟩

/-- A new set can be made of the selections exactly if the scope accepts them. -/
theorem accepts_iff {selections : List Selection} :
    (∃ after, scope.RebuildsAll selections [] after) ↔ scope.Accepts selections :=
  rebuildsAll_iff fun _ => rfl

theorem RebuildsAll.ne_nil {selections before after : List Selection}
    (h : scope.RebuildsAll selections before after) (hne : before ≠ [] ∨ selections ≠ []) :
    after ≠ [] := by
  induction selections generalizing before with
  | nil =>
    unfold RebuildsAll at h
    subst h
    exact hne.resolve_right fun hn => hn rfl
  | cons selection rest ih =>
    unfold RebuildsAll at h
    obtain ⟨between, hfirst, hrest⟩ := h
    obtain ⟨made, -, -, rfl⟩ := rebuilds_iff.1 hfirst
    exact ih hrest (.inl (Selection.beside_ne_nil _ _))

/-! ## Valid selections -/

theorem distinct_singleton (selection : Selection) : Selection.Distinct ([] ++ [selection]) := by
  refine ⟨?_, ?_⟩
  · cases h : selection.key? <;> simp [h]
  · cases h : selection.spreadName? <;> simp [h]

/-- A valid selection stays as it is. -/
theorem makes_of_validOn {selection : Selection} (h : selection.ValidOn scope) :
    scope.Makes selection selection :=
  rebuilds_of_validOn h (distinct_singleton selection)

theorem Makes.unique {selection made made' : Selection} (h : scope.Makes selection made)
    (h' : scope.Makes selection made') : made = made' :=
  List.singleton_inj.1 (Rebuilds.unique h h')

/-- Of valid selections a scope asks only that they go together. -/
theorem accepts_of_validOn {selections : List Selection}
    (h : Selection.AllValidOn scope selections) :
    scope.Accepts selections ↔ Selection.Uniform selections := by
  have hmakes : List.Forall₂ scope.Makes selections selections :=
    List.forall₂_same.2 fun selection hs => makes_of_validOn (Selection.allValidOn_iff.1 h selection hs)
  constructor
  · rintro ⟨made, hmade, huniform⟩
    have hsame : selections = made :=
      List.right_unique_forall₂' (R := scope.Makes) (fun _ _ _ h h' => h.unique h') hmakes hmade
    exact hsame ▸ huniform
  · exact fun huniform => ⟨selections, hmakes, huniform⟩

/-- A field and another one under its name do not go together. -/
example : ¬ Selection.Uniform
    [.leaf ⟨"title", none, [], false⟩, .leaf ⟨"handle", some "title", [], false⟩] := by
  decide

end Scope

end GraphQLClient
