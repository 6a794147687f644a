import GraphQLClient.Proofs.Building.Revalidation
import GraphQLClient.Proofs.Language.Sameness

set_option autoImplicit false

/-!
# Variables in use

Selections that are the same use the same variables. A valid set uses declared variables only, and none
in the bodies of its fragments, which are shared by operations with other variables.
-/

namespace GraphQLClient

namespace Value

/-- Each entry has a value among the others that uses what it uses. -/
theorem usesInFields_of_sameFields {fields others : List (String × Value)}
    (hv : ∀ entry ∈ fields, ∀ b, same entry.2 b = true → entry.2.variableUses ⊆ b.variableUses)
    (h : sameFields fields others = true) : usesInFields fields ⊆ usesInFields others := by
  intro used hu
  obtain ⟨entry, he, hu⟩ := Scope.mem_usesInFields.1 hu
  obtain ⟨b, hb, hs⟩ := sameFields_iff.1 h entry he
  exact Scope.mem_usesInFields.2 ⟨_, Keyed.mem_of_find? hb, hv entry he b hs hu⟩

mutual
theorem uses_of_same {a b : Value} (h : same a b = true) : a.variableUses ⊆ b.variableUses := by
  cases a <;> cases b <;> simp only [same, Bool.false_eq_true] at h <;> unfold variableUses
  case list.list items others => exact usesInItems_of_same h
  case object.object fields others =>
    rw [Bool.and_eq_true] at h
    exact usesInFields_of_sameFields (uses_of_same_of_mem fields) h.2
  case var.var name other =>
    rw [beq_iff_eq.1 h]
    exact List.Subset.refl _
  all_goals exact List.Subset.refl _

theorem usesInItems_of_same {items others : List Value} (h : sameItems items others = true) :
    usesInItems items ⊆ usesInItems others := by
  cases items <;> cases others <;> simp only [sameItems, Bool.false_eq_true] at h
  case nil.nil => exact List.Subset.refl _
  case cons.cons =>
    rw [Bool.and_eq_true] at h
    unfold usesInItems
    intro used hu
    exact List.mem_append.2 ((List.mem_append.1 hu).imp (@uses_of_same _ _ h.1 used)
      (@usesInItems_of_same _ _ h.2 used))

theorem uses_of_same_of_mem (fields : List (String × Value)) : ∀ entry ∈ fields, ∀ b,
    same entry.2 b = true → entry.2.variableUses ⊆ b.variableUses := by
  cases fields with
  | nil => exact fun _ h => nomatch h
  | cons entry rest =>
    rw [List.forall_mem_cons]
    exact ⟨fun b => uses_of_same, uses_of_same_of_mem rest⟩
end

end Value

namespace Selection

theorem arguments_of_same {a b : Field} (h : a.same b = true) :
    Value.usesInFields a.arguments ⊆ Value.usesInFields b.arguments := by
  simp only [Field.same, Value.sameArguments, Bool.and_eq_true] at h
  exact Value.usesInFields_of_sameFields (Value.uses_of_same_of_mem _) h.1.2.2

mutual
theorem uses_of_same {a b : Selection} (h : a.same b = true) : a.variableUses ⊆ b.variableUses := by
  cases a <;> cases b <;> simp only [same, Bool.and_eq_true, Bool.false_eq_true] at h <;>
    unfold variableUses
  case leaf.leaf => exact arguments_of_same h
  case composite.composite =>
    intro used hu
    exact List.mem_append.2 ((List.mem_append.1 hu).imp (@arguments_of_same _ _ h.1.1 used)
      (@uses_of_sameAll _ _ h.2 used))
  case inlineFragment.inlineFragment => exact uses_of_sameAll h.2
  case spread.spread => exact uses_of_sameAll h.2

theorem uses_of_sameAll {a b : List Selection} (h : sameAll a b = true) :
    usesInAll a ⊆ usesInAll b := by
  cases a <;> cases b <;> simp only [sameAll, Bool.and_eq_true, Bool.false_eq_true] at h
  case nil.nil => exact List.Subset.refl _
  case cons.cons =>
    unfold usesInAll
    intro used hu
    exact List.mem_append.2 ((List.mem_append.1 hu).imp (@uses_of_same _ _ h.1 used)
      (@uses_of_sameAll _ _ h.2 used))
end

theorem mem_usesInAll {selections : List Selection} {used : String} :
    used ∈ usesInAll selections ↔ ∃ selection ∈ selections, used ∈ selection.variableUses := by
  induction selections with
  | nil => simp [usesInAll]
  | cons selection rest ih => simp [usesInAll, ih]

theorem usesInAll_append (before after : List Selection) :
    usesInAll (before ++ after) = usesInAll before ++ usesInAll after := by
  induction before with
  | nil => rfl
  | cons selection rest ih => rw [List.cons_append, usesInAll, usesInAll, ih, List.append_assoc]

/-- Arguments have different names and use these variables only. The body of a fragment uses none. -/
structure Sparing (names : List String) (selection : Selection) : Prop where
  keyed : selection.WellKeyed
  used : ∀ field, selection.field? = some field → Value.usesInFields field.arguments ⊆ names
  closed : ∀ fragment, selection = .ofFragment fragment → usesInAll fragment.set.selections = []

variable {names : List String}

theorem Sparing.mono {more : List String} {selection : Selection} (h : selection.Sparing names)
    (hn : names ⊆ more) : selection.Sparing more :=
  ⟨h.keyed, fun field hf => List.Subset.trans (h.used field hf) hn, h.closed⟩

mutual
theorem Everywhere.uses {selection : Selection} (h : selection.Everywhere (Sparing names)) :
    selection.variableUses ⊆ names := by
  cases selection with
  | leaf field => exact Sparing.used h field rfl
  | composite field typeName selections =>
    exact List.append_subset.2 ⟨h.1.used field rfl, EverywhereAll.uses h.2⟩
  | inlineFragment condition typeName selections => exact EverywhereAll.uses h.2
  | spread serial name condition typeName selections => exact EverywhereAll.uses h.2

theorem EverywhereAll.uses {selections : List Selection} (h : EverywhereAll (Sparing names) selections) :
    usesInAll selections ⊆ names := by
  cases selections with
  | nil => exact List.nil_subset _
  | cons selection rest =>
    exact List.append_subset.2 ⟨Everywhere.uses h.1, EverywhereAll.uses h.2⟩
end

end Selection

namespace Scope

variable {scope : Scope} {name : String} {arguments : List (String × Value)}

def variableNames (scope : Scope) : List String := scope.declarations.map (·.name)

theorem Offers.uses {type : TypeDescriptor} (h : scope.Offers name arguments type) :
    Value.usesInFields arguments ⊆ scope.variableNames := by
  obtain ⟨-, declared, -, -, hfit⟩ := h
  intro used hu
  obtain ⟨argument, ha, hu⟩ := mem_usesInFields.1 hu
  obtain ⟨definition, hd, hname⟩ := List.any_eq_true.1 ((hfit argument ha).2.2 used hu)
  exact List.mem_map.2 ⟨definition, hd, eq_of_beq hname⟩

theorem OffersLeaf.uses (h : scope.OffersLeaf name arguments) :
    Value.usesInFields arguments ⊆ scope.variableNames := by
  rcases h with ⟨-, rfl⟩ | ⟨type, hoffers, -⟩
  · exact List.nil_subset _
  · exact hoffers.uses

end Scope

namespace Selection

mutual
theorem sparing_of_validOn {selection : Selection} {scope : Scope} (hv : selection.ValidOn scope)
    (hk : selection.Everywhere WellKeyed) : selection.Everywhere (Sparing scope.variableNames) := by
  cases selection with
  | leaf field =>
    unfold ValidOn at hv
    exact ⟨hk, fun _ hf => Option.some.inj hf ▸ hv.uses, fun _ h => nomatch h⟩
  | composite field typeName selections =>
    unfold ValidOn at hv
    obtain ⟨type, hoffers, -, hset⟩ := hv
    have hinner : EverywhereAll (Sparing (scope.within type).variableNames) selections :=
      sparingAll_of_validOn hset hk.2
    exact ⟨⟨hk.1, fun _ hf => Option.some.inj hf ▸ hoffers.1.uses, fun _ h => (nomatch h)⟩, hinner⟩
  | inlineFragment condition typeName selections =>
    unfold ValidOn at hv
    obtain ⟨target, -, -, hset⟩ := hv
    have hinner : EverywhereAll (Sparing (scope.within target).variableNames) selections :=
      sparingAll_of_validOn hset hk.2
    exact ⟨⟨hk.1, fun _ hf => (nomatch hf), fun _ h => (nomatch h)⟩, hinner⟩
  | spread serial name condition typeName selections =>
    unfold ValidOn at hv
    obtain ⟨target, -, -, hset⟩ := hv
    have hbody : EverywhereAll (Sparing []) selections := sparingAll_of_validOn hset hk.2
    refine ⟨⟨hk.1, fun _ hf => (nomatch hf), ?_⟩, ?_⟩
    · rintro ⟨_, _, _, _, _⟩ ⟨⟩
      exact List.subset_nil.1 hbody.uses
    · exact hbody.mono fun _ h => h.mono (List.nil_subset _)

theorem sparingAll_of_validOn {selections : List Selection} {scope : Scope}
    (hv : AllValidOn scope selections) (hk : EverywhereAll WellKeyed selections) :
    EverywhereAll (Sparing scope.variableNames) selections := by
  cases selections with
  | nil => trivial
  | cons selection rest =>
    exact ⟨sparing_of_validOn hv.1 hk.1, sparingAll_of_validOn hv.2 hk.2⟩
end

end Selection

end GraphQLClient
