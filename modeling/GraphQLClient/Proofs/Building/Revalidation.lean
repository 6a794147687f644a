import GraphQLClient.Proofs.Building.Validity

set_option autoImplicit false

/-!
# Adding valid sets anew

A valid set that is added to another scope on the same type comes out as it went in, and on its own
scope it is always taken.
-/

namespace GraphQLClient

namespace Selection

variable {before selections : List Selection}

theorem find?_eq_none_of_not_mem_keys {key : String} (h : key ∉ before.filterMap key?) :
    before.find? (answers key) = none := by
  rw [List.find?_eq_none]
  intro selection hs ha
  exact h (List.mem_filterMap.2 ⟨selection, hs, key?_of_answers ha⟩)

theorem any_spreads_eq_false {name : String} (h : name ∉ before.filterMap spreadName?) :
    before.any (Scope.spreads name) = false := by
  rw [List.any_eq_false]
  intro selection hs ha
  refine h (List.mem_filterMap.2 ⟨selection, hs, ?_⟩)
  cases selection with
  | spread serial found condition typeName inner =>
    have hfound : found = name := by simpa [Scope.spreads] using ha
    rw [spreadName?, hfound]
  | _ => cases ha

theorem Distinct.tail {selection : Selection} (h : Distinct (before ++ selection :: selections)) :
    Distinct ((before ++ [selection]) ++ selections) := by
  rw [List.append_assoc]
  exact h

theorem Distinct.free_key {selection : Selection} {key : String}
    (h : Distinct (before ++ selection :: selections)) (hk : selection.key? = some key) :
    before.find? (answers key) = none := by
  refine find?_eq_none_of_not_mem_keys fun hm => ?_
  have hn := h.1
  rw [List.filterMap_append, List.filterMap_cons_some hk, List.nodup_append] at hn
  exact hn.2.2 key hm key List.mem_cons_self rfl

theorem Distinct.free_spread {selection : Selection} {name : String}
    (h : Distinct (before ++ selection :: selections)) (hk : selection.spreadName? = some name) :
    before.any (Scope.spreads name) = false := by
  refine any_spreads_eq_false fun hm => ?_
  have hn := h.2
  rw [List.filterMap_append, List.filterMap_cons_some hk, List.nodup_append] at hn
  exact hn.2.2 name hm name List.mem_cons_self rfl

end Selection

namespace Scope

/-- The type that a field returns, if the scope knows it. -/
def typeOf? (scope : Scope) (name : String) : Option TypeDescriptor :=
  (scope.type.field? name).bind fun declared => scope.bundle.get? declared.typeName

theorem Offers.typeOf? {scope : Scope} {name : String} {arguments : List (String × Value)}
    {type : TypeDescriptor} (h : scope.Offers name arguments type) :
    scope.typeOf? name = some type := by
  obtain ⟨-, declared, hd, ht, -⟩ := h
  rw [Scope.typeOf?, hd]
  exact ht

/-- Two scopes on one type, which may declare different variables. -/
def Alike (scope scope' : Scope) : Prop :=
  scope'.bundle = scope.bundle ∧ scope'.type = scope.type

theorem Alike.typeOf? {scope scope' : Scope} (h : scope.Alike scope') (name : String) :
    scope'.typeOf? name = scope.typeOf? name := by
  rw [Scope.typeOf?, Scope.typeOf?, h.1, h.2]

theorem Alike.within {scope scope' : Scope} (h : scope'.bundle = scope.bundle)
    (type : TypeDescriptor) : (scope.within type).Alike (scope'.within type) :=
  ⟨h, rfl⟩

mutual
theorem Rebuilds.eq_of_validOn {selection : Selection} {scope scope' : Scope}
    {before selections after : List Selection} (hs : scope.Alike scope')
    (hv : selection.ValidOn scope) (hd : Selection.Distinct (before ++ selection :: selections))
    (h : scope'.Rebuilds selection before after) : after = before ++ [selection] := by
  cases selection with
  | leaf field =>
    unfold Rebuilds at h
    rw [h.2, Selection.settled_of_find?_eq_none (hd.free_key rfl)]
  | composite field typeName inner =>
    unfold Selection.ValidOn at hv
    unfold Rebuilds at h
    obtain ⟨type, ht, hp, hi⟩ := hv
    obtain ⟨type', inner', ht', hr, rfl⟩ := h
    have htype := ht'.1.1.typeOf?
    rw [hs.typeOf?, ht.1.typeOf?] at htype
    obtain rfl := Option.some.inj htype
    have hdistinct : Selection.Distinct ([] ++ inner) := hp.2.2
    have hinner := RebuildsAll.eq_of_validOn (Alike.within hs.1 type) hi hdistinct hr
    rw [Selection.settled_of_find?_eq_none (hd.free_key rfl), hinner, ← show typeName = type.name from hp.1]
    rfl
  | inlineFragment condition typeName inner =>
    unfold Selection.ValidOn at hv
    unfold Rebuilds at h
    obtain ⟨target, ht, hp, hi⟩ := hv
    obtain ⟨target', inner', ht', hr, -, rfl⟩ := h
    have htarget := ht'.1
    rw [hs.1, ht.1] at htarget
    obtain rfl := Option.some.inj htarget
    have hdistinct : Selection.Distinct ([] ++ inner) := hp.2.2
    have hinner := RebuildsAll.eq_of_validOn (Alike.within hs.1 target) hi hdistinct hr
    have hname : typeName = target.name := hp.1
    rw [hinner, hname, ← Bundle.get?_name ht.1]
    rfl
  | spread serial name condition typeName inner =>
    unfold Rebuilds at h
    have hfree := hd.free_spread rfl
    rw [h.2, spreadBeside, if_neg (by rw [hfree]; exact Bool.false_ne_true)]
    rfl

/-- What a scope makes of a set that is valid on its type is the set itself. -/
theorem RebuildsAll.eq_of_validOn {selections : List Selection} {scope scope' : Scope}
    {before after : List Selection} (hs : scope.Alike scope')
    (hv : Selection.AllValidOn scope selections) (hd : Selection.Distinct (before ++ selections))
    (h : scope'.RebuildsAll selections before after) : after = before ++ selections := by
  cases selections with
  | nil =>
    unfold RebuildsAll at h
    rw [h, List.append_nil]
  | cons selection rest =>
    unfold Selection.AllValidOn at hv
    unfold RebuildsAll at h
    obtain ⟨between, hfirst, hrest⟩ := h
    obtain rfl := Rebuilds.eq_of_validOn hs hv.1 hd hfirst
    rw [RebuildsAll.eq_of_validOn hs hv.2 hd.tail hrest, List.append_assoc]
    rfl
end

mutual
theorem rebuilds_of_validOn {selection : Selection} {scope : Scope}
    {before selections : List Selection} (hv : selection.ValidOn scope)
    (hd : Selection.Distinct (before ++ selection :: selections)) :
    scope.Rebuilds selection before (before ++ [selection]) := by
  cases selection with
  | leaf field =>
    have hfree : before.find? (Selection.answers field.responseKey) = none := hd.free_key rfl
    unfold Rebuilds
    unfold Selection.ValidOn at hv
    refine ⟨⟨hv, ?_⟩, (Selection.settled_of_find?_eq_none hfree).symm⟩
    simp [Selection.Fits, hfree]
  | composite field typeName inner =>
    have hfree : before.find? (Selection.answers field.responseKey) = none := hd.free_key rfl
    unfold Rebuilds
    unfold Selection.ValidOn at hv
    obtain ⟨type, ht, hp, hi⟩ := hv
    obtain rfl : typeName = type.name := hp.1
    refine ⟨type, inner, ⟨ht, hp.2.1, ?_⟩, rebuildsAll_of_validOn hi hp.2.2,
      (Selection.settled_of_find?_eq_none hfree).symm⟩
    simp [Selection.Fits, hfree]
  | inlineFragment condition typeName inner =>
    unfold Rebuilds
    unfold Selection.ValidOn at hv
    obtain ⟨target, ht, hp, hi⟩ := hv
    obtain rfl : typeName = target.name := hp.1
    refine ⟨target, inner, ht, rebuildsAll_of_validOn hi hp.2.2, hp.2.1, ?_⟩
    rw [← Bundle.get?_name ht.1]
  | spread serial name condition typeName inner =>
    unfold Rebuilds
    unfold Selection.ValidOn at hv
    obtain ⟨target, ht, -, -⟩ := hv
    have hfree : before.any (spreads name) = false := hd.free_spread rfl
    refine ⟨⟨target, ht⟩, ?_⟩
    rw [spreadBeside, if_neg (by rw [hfree]; exact Bool.false_ne_true)]
    rfl

/-- A scope takes every set that is valid on it. -/
theorem rebuildsAll_of_validOn {selections : List Selection} {scope : Scope}
    {before : List Selection} (hv : Selection.AllValidOn scope selections)
    (hd : Selection.Distinct (before ++ selections)) :
    scope.RebuildsAll selections before (before ++ selections) := by
  cases selections with
  | nil =>
    unfold RebuildsAll
    exact List.append_nil _
  | cons selection rest =>
    unfold Selection.AllValidOn at hv
    unfold RebuildsAll
    have hrest := rebuildsAll_of_validOn hv.2 hd.tail
    rw [List.append_assoc] at hrest
    exact ⟨before ++ [selection], rebuilds_of_validOn hv.1 hd, hrest⟩
end

/-- What a set starts with can be added to it again. -/
theorem rebuildsAll_opening {scope : Scope} (h : scope.Opens) :
    scope.RebuildsAll scope.opening scope.opening scope.opening := by
  have hname : scope.OffersLeaf typenameField [] := .inl ⟨rfl, rfl⟩
  have hne : (Field.plain typenameField).responseKey ≠ (Field.plain "id").responseKey := by decide
  have hsame : ∀ name, (Selection.leaf (.plain name)).same (.leaf (.plain name)) = true := by
    intro name
    simp [Selection.same, Field.same, Field.plain, Field.ofOptions, FieldOptions.none,
      Value.sameArguments, Value.sameFields]
  have hagain : ∀ {before : List Selection} {name : String}, scope.OffersLeaf name [] →
      before.find? (Selection.answers name) = some (.leaf (.plain name)) →
      scope.Rebuilds (.leaf (.plain name)) before before := by
    intro before name ho hf
    have hkey : before.find? (Selection.answers (Field.plain name).responseKey) =
      some (.leaf (.plain name)) := hf
    unfold Rebuilds
    refine ⟨⟨ho, fun found hfound => ?_⟩, ?_⟩
    · obtain rfl := Option.some.inj (hkey.symm.trans hfound)
      exact hsame name
    · rw [Selection.settled, hkey]
      rfl
  unfold opening
  split <;> split
  · rename_i hi ha
    refine rebuildsAll_append.2 ⟨_, rebuildsAll_singleton.2 (hagain (h hi) rfl),
      rebuildsAll_singleton.2 (hagain hname rfl)⟩
  · rename_i hi ha
    exact rebuildsAll_append.2 ⟨_, rebuildsAll_singleton.2 (hagain (h hi) rfl), by unfold RebuildsAll; rfl⟩
  · exact rebuildsAll_append.2 ⟨_, by unfold RebuildsAll; rfl, rebuildsAll_singleton.2 (hagain hname rfl)⟩
  · exact rebuildsAll_append.2 ⟨_, by unfold RebuildsAll; rfl, by unfold RebuildsAll; rfl⟩

theorem mem_usesInFields {arguments : List (String × Value)} {used : String} :
    used ∈ Value.usesInFields arguments ↔
      ∃ argument ∈ arguments, used ∈ argument.2.variableUses := by
  induction arguments with
  | nil => simp [Value.usesInFields]
  | cons argument rest ih => simp [Value.usesInFields, ih]

section

variable {scope scope' : Scope} {name : String} {arguments : List (String × Value)}

theorem Offers.of_declares {type : TypeDescriptor} (hs : scope.Alike scope')
    (hd : ∀ used ∈ Value.usesInFields arguments,
      scope.declares used = true → scope'.declares used = true)
    (h : scope.Offers name arguments type) : scope'.Offers name arguments type := by
  obtain ⟨hn, declared, hf, ht, hfit⟩ := h
  refine ⟨hn, declared, hs.2 ▸ hf, hs.1 ▸ ht, fun argument ha => ?_⟩
  obtain ⟨hknown, hfinite, huses⟩ := hfit argument ha
  exact ⟨hknown, hfinite, fun used hu =>
    hd used (mem_usesInFields.2 ⟨argument, ha, hu⟩) (huses used hu)⟩

theorem OffersLeaf.of_declares (hs : scope.Alike scope')
    (hd : ∀ used ∈ Value.usesInFields arguments,
      scope.declares used = true → scope'.declares used = true)
    (h : scope.OffersLeaf name arguments) : scope'.OffersLeaf name arguments := by
  refine h.imp_right ?_
  rintro ⟨type, ht, hc⟩
  exact ⟨type, ht.of_declares hs hd, hc⟩

theorem Admits.of_alike {condition : String} {target : TypeDescriptor} (hs : scope.Alike scope')
    (h : scope.Admits condition target) : scope'.Admits condition target :=
  ⟨hs.1 ▸ h.1, h.2.1, hs.2 ▸ h.2.2⟩

end

mutual
/-- Validity asks of the variables only that those in use are declared. -/
theorem validOn_of_declares {selection : Selection} {scope scope' : Scope}
    (hs : scope.Alike scope')
    (hd : ∀ used ∈ selection.variableUses,
      scope.declares used = true → scope'.declares used = true)
    (hv : selection.ValidOn scope) : selection.ValidOn scope' := by
  cases selection with
  | leaf field =>
    unfold Selection.ValidOn at hv ⊢
    exact hv.of_declares hs hd
  | composite field typeName inner =>
    unfold Selection.ValidOn at hv ⊢
    obtain ⟨type, ht, hp, hi⟩ := hv
    refine ⟨type, ⟨ht.1.of_declares hs fun used hu => ?_, ht.2⟩, hp, ?_⟩
    · exact hd used (List.mem_append_left _ hu)
    · exact allValidOn_of_declares (Alike.within hs.1 type)
        (fun used hu => hd used (List.mem_append_right _ hu)) hi
  | inlineFragment condition typeName inner =>
    unfold Selection.ValidOn at hv ⊢
    obtain ⟨target, ht, hp, hi⟩ := hv
    exact ⟨target, ht.of_alike hs, hp, allValidOn_of_declares (Alike.within hs.1 target) hd hi⟩
  | spread serial name condition typeName inner =>
    unfold Selection.ValidOn at hv ⊢
    obtain ⟨target, ht, hp, hi⟩ := hv
    refine ⟨target, ht.of_alike hs, hp, ?_⟩
    rw [hs.1]
    exact hi

theorem allValidOn_of_declares {selections : List Selection} {scope scope' : Scope}
    (hs : scope.Alike scope')
    (hd : ∀ used ∈ Selection.usesInAll selections,
      scope.declares used = true → scope'.declares used = true)
    (hv : Selection.AllValidOn scope selections) : Selection.AllValidOn scope' selections := by
  cases selections with
  | nil => trivial
  | cons selection rest =>
    unfold Selection.AllValidOn at hv ⊢
    exact ⟨validOn_of_declares hs (fun used hu => hd used (List.mem_append_left _ hu)) hv.1,
      allValidOn_of_declares hs (fun used hu => hd used (List.mem_append_right _ hu)) hv.2⟩
end

end Scope

end GraphQLClient
