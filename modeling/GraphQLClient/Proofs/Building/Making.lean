import GraphQLClient.Proofs.Building.Acceptance
import GraphQLClient.Proofs.Language.Counterparts

set_option autoImplicit false

/-!
# What a scope makes of selections

A scope makes a selection of the same kind and key of each selection that it takes. In a set that is
made of several selections there stands under each key what is made of the first of them, and below it
the set that is made of the set there.
-/

namespace GraphQLClient

namespace Scope

variable {scope : Scope} {made : Selection}

theorem Makes.of_leaf {field : Field} (h : scope.Makes (.leaf field) made) : made = .leaf field := by
  simp only [Makes, Rebuilds] at h
  exact List.singleton_inj.1 h.2

theorem Makes.of_composite {field : Field} {typeName : String} {inner : List Selection}
    (h : scope.Makes (.composite field typeName inner) made) :
    ∃ type inner', (scope.within type).RebuildsAll inner [] inner' ∧
      made = .composite field type.name inner' := by
  simp only [Makes, Rebuilds] at h
  obtain ⟨type, inner', -, hinner, hmade⟩ := h
  exact ⟨type, inner', hinner, List.singleton_inj.1 hmade⟩

theorem Makes.of_inlineFragment {condition typeName : String} {inner : List Selection}
    (h : scope.Makes (.inlineFragment condition typeName inner) made) :
    ∃ target inner', (scope.within target).RebuildsAll inner [] inner' ∧
      made = .inlineFragment target.name target.name inner' := by
  simp only [Makes, Rebuilds] at h
  obtain ⟨target, inner', -, hinner, -, hmade⟩ := h
  exact ⟨target, inner', hinner, List.singleton_inj.1 hmade⟩

theorem Makes.of_spread {serial : Nat} {name condition typeName : String} {inner : List Selection}
    (h : scope.Makes (.spread serial name condition typeName inner) made) :
    made = .spread serial name condition typeName inner := by
  simp only [Makes, Rebuilds] at h
  exact List.singleton_inj.1 h.2

/-- A selection answers to the same key as before. -/
theorem Makes.key? {selection : Selection} (h : scope.Makes selection made) :
    made.key? = selection.key? := by
  cases selection with
  | leaf field => rw [h.of_leaf]
  | composite field typeName inner =>
    obtain ⟨type, inner', -, rfl⟩ := h.of_composite
    rfl
  | inlineFragment condition typeName inner =>
    obtain ⟨target, inner', -, rfl⟩ := h.of_inlineFragment
    rfl
  | spread serial name condition typeName inner => rw [h.of_spread]

end Scope

namespace Selection

/-- Beside others stands the selection, or one of its key. -/
theorem exists_key?_beside (before : List Selection) (made : Selection) :
    (∃ added, beside before made = before ++ added ∧ ∀ selection ∈ added, selection = made) ∧
      ∃ selection ∈ beside before made, selection.key? = made.key? := by
  rcases beside_cases before made with h | ⟨h, hsuperfluous⟩ <;> rw [h]
  · exact ⟨⟨[made], rfl, by simp⟩, made, by simp, rfl⟩
  · refine ⟨⟨[], (List.append_nil _).symm, by simp⟩, ?_⟩
    cases hsuperfluous with
    | field keyed there =>
      have hkey := key?_of_answers (List.find?_some there)
      exact ⟨_, List.mem_of_find?_eq_some there, hkey.trans keyed.symm⟩
    | spread named there =>
      have hname := spreads_iff.1 (List.find?_some there)
      refine ⟨_, List.mem_of_find?_eq_some there, ?_⟩
      rw [key?_eq_none_of_spreadName? hname, key?_eq_none_of_spreadName? named]

end Selection

namespace Scope

variable {scope : Scope} {selections before before' after : List Selection}

/-- What is added to a set is made of the selections, and each key of theirs stands there. -/
theorem RebuildsAll.added (h : scope.RebuildsAll selections before after) :
    (∃ added, after = before ++ added ∧
      ∀ made ∈ added, ∃ selection ∈ selections, scope.Makes selection made) ∧
    ∀ selection ∈ selections, ∃ made ∈ after, made.key? = selection.key? := by
  induction selections generalizing before with
  | nil =>
    unfold RebuildsAll at h
    exact ⟨⟨[], by rw [h, List.append_nil], fun _ hm => absurd hm List.not_mem_nil⟩,
      fun _ hs => absurd hs List.not_mem_nil⟩
  | cons first rest ih =>
    unfold RebuildsAll at h
    obtain ⟨between, hfirst, hrest⟩ := h
    obtain ⟨made, hmade, -, rfl⟩ := rebuilds_iff.1 hfirst
    obtain ⟨⟨front, hfront, honly⟩, found, hfound, hkey⟩ := Selection.exists_key?_beside before made
    obtain ⟨⟨added, rfl, hadded⟩, hkeys⟩ := ih hrest
    refine ⟨⟨front ++ added, by rw [hfront, List.append_assoc], fun other ho => ?_⟩, fun other ho => ?_⟩
    · rcases List.mem_append.1 ho with ho | ho
      · obtain rfl := honly other ho
        exact ⟨first, List.mem_cons_self, hmade⟩
      · obtain ⟨selection, hs, hmakes⟩ := hadded other ho
        exact ⟨selection, List.mem_cons_of_mem _ hs, hmakes⟩
    · rcases List.mem_cons.1 ho with rfl | ho
      · exact ⟨found, List.mem_append_left _ hfound, hkey.trans hmade.key?⟩
      · exact hkeys other ho

/-- Under each key stands what is made of the first field of that key. -/
theorem RebuildsAll.alike (hb : Selection.Alike before before')
    (h : scope.RebuildsAll selections before after) :
    ∃ made, List.Forall₂ scope.Makes selections made ∧ Selection.Alike after (before' ++ made) := by
  induction selections generalizing before before' with
  | nil =>
    unfold RebuildsAll at h
    exact ⟨[], .nil, by rw [h, List.append_nil]; exact hb⟩
  | cons first rest ih =>
    unfold RebuildsAll at h
    obtain ⟨between, hfirst, hrest⟩ := h
    obtain ⟨made, hmade, -, rfl⟩ := rebuilds_iff.1 hfirst
    obtain ⟨others, hothers, halike⟩ := ih (hb.beside made) hrest
    exact ⟨made :: others, .cons hmade hothers, by rw [← List.append_cons] at halike; exact halike⟩

theorem Makes.answers {selection made : Selection} {key : String} (h : scope.Makes selection made) :
    selection.answers key = made.answers key := by
  rw [Bool.eq_iff_iff, Selection.answers_iff_key?, Selection.answers_iff_key?, h.key?]

/-- The first selection of a key is made of the first one of that key. -/
theorem RebuildsAll.find? (h : scope.RebuildsAll selections [] after) (key : String) :
    Option.Rel scope.Makes (selections.find? (Selection.answers key))
      (after.find? (Selection.answers key)) := by
  obtain ⟨made, hmade, halike⟩ := h.alike fun _ => rfl
  rw [halike key]
  exact Selection.find?_forall₂ key Makes.answers hmade

/-- The set below a key is made of the set that was there. -/
theorem RebuildsAll.below? {key typeName : String} {below : SelectionSet}
    (h : scope.RebuildsAll selections [] after)
    (hb : SelectionSet.below? ⟨typeName, selections⟩ key = some below) (typeName' : String) :
    ∃ (child : Scope) (made : SelectionSet),
      SelectionSet.below? ⟨typeName', after⟩ key = some made ∧
        child.RebuildsAll below.selections [] made.selections := by
  obtain ⟨found, hfound, hset⟩ := Option.bind_eq_some_iff.1 hb
  have hfind := h.find? key
  change selections.find? _ = some found at hfound
  rw [hfound] at hfind
  rw [SelectionSet.below?, SelectionSet.find?]
  cases hafter : after.find? (Selection.answers key) <;> rw [hafter] at hfind <;> cases hfind
  rename_i other hmakes
  cases found with
  | composite field name inner =>
    obtain rfl := Option.some.inj hset
    obtain ⟨type, inner', hinner, rfl⟩ := hmakes.of_composite
    exact ⟨scope.within type, ⟨type.name, inner'⟩, rfl, hinner⟩
  | _ => cases hset

end Scope

end GraphQLClient
