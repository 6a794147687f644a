import GraphQLClient.Decoding.Decoder

set_option autoImplicit false

/-!
# Fields collected for an object

`fieldsOn` flattens selections to the fields that apply to a concrete type, without merging. The
groups that the decoder collects are these fields by response key, `joined` one after the other.
-/

namespace GraphQLClient

namespace Selection

mutual
/-- The fields that a selection asks for on objects of a concrete type. -/
def fieldsOn (bundle : Bundle) (type : TypeDescriptor) : Selection → List Selection
  | .leaf field => [.leaf field]
  | .composite field typeName selections => [.composite field typeName selections]
  | .inlineFragment condition _ selections =>
    if Collected.applies bundle condition type then fieldsOnAll bundle type selections else []
  | .spread _ _ condition _ selections =>
    if Collected.applies bundle condition type then fieldsOnAll bundle type selections else []

def fieldsOnAll (bundle : Bundle) (type : TypeDescriptor) : List Selection → List Selection
  | [] => []
  | selection :: rest => fieldsOn bundle type selection ++ fieldsOnAll bundle type rest
end

/-- The selections below a field. -/
def inner : Selection → List Selection
  | .composite _ _ selections => selections
  | _ => []

theorem fieldsOnAll_append (bundle : Bundle) (type : TypeDescriptor) (before after : List Selection) :
    fieldsOnAll bundle type (before ++ after) =
      fieldsOnAll bundle type before ++ fieldsOnAll bundle type after := by
  induction before with
  | nil => rfl
  | cons selection rest ih => simp only [List.cons_append, fieldsOnAll, ih, List.append_assoc]

end Selection

namespace Collected

/-- The field with its first set, as it stands among the selections. -/
def selection (collected : Collected) : Selection :=
  .ofField collected.field (collected.parts.head?.map (·.set))

mutual
/-- The fields of a selection that stands at `origin`, each with the set below it. -/
def fieldsOf (bundle : Bundle) (type : TypeDescriptor) (origin : Origin) :
    Selection → List Collected
  | .leaf field => [⟨field, []⟩]
  | .composite field typeName selections => [⟨field, [⟨origin, ⟨typeName, selections⟩⟩]⟩]
  | .inlineFragment condition _ selections =>
    if applies bundle condition type then fieldsOfAll bundle type origin 0 selections else []
  | .spread serial _ condition _ selections =>
    if applies bundle condition type then fieldsOfAll bundle type ⟨some serial, []⟩ 0 selections
    else []

def fieldsOfAll (bundle : Bundle) (type : TypeDescriptor) (origin : Origin) (index : Nat) :
    List Selection → List Collected
  | [] => []
  | selection :: rest =>
    fieldsOf bundle type (origin.child index) selection ++
      fieldsOfAll bundle type origin (index + 1) rest
end

def fieldsOfParts (bundle : Bundle) (type : TypeDescriptor) (parts : List Part) : List Collected :=
  parts.flatMap fun part => fieldsOfAll bundle type part.origin 0 part.set.selections

/-- The fields of one key as one: the first, with the sets of the others after its own. -/
def joined : List Collected → Option Collected
  | [] => none
  | first :: rest => some (rest.foldl (fun found field => found.extend field.parts) first)

def mergeAll (found fields : List Collected) : List Collected :=
  fields.foldl (fun found field => merge field.field field.parts found) found

variable {bundle : Bundle} {type : TypeDescriptor}

mutual
theorem selections_fieldsOf (origin : Origin) (selection : Selection) :
    (fieldsOf bundle type origin selection).map Collected.selection =
      selection.fieldsOn bundle type := by
  cases selection with
  | leaf field => rfl
  | composite field typeName selections => rfl
  | inlineFragment condition typeName selections =>
    simp only [fieldsOf, Selection.fieldsOn]
    split
    · exact selections_fieldsOfAll _ _ _
    · rfl
  | spread serial name condition typeName selections =>
    simp only [fieldsOf, Selection.fieldsOn]
    split
    · exact selections_fieldsOfAll _ _ _
    · rfl

theorem selections_fieldsOfAll (origin : Origin) (index : Nat) (selections : List Selection) :
    (fieldsOfAll bundle type origin index selections).map Collected.selection =
      Selection.fieldsOnAll bundle type selections := by
  cases selections with
  | nil => rfl
  | cons selection rest =>
    simp only [fieldsOfAll, Selection.fieldsOnAll, List.map_append]
    rw [selections_fieldsOf, selections_fieldsOfAll]
end

theorem selections_fieldsOfParts (parts : List Part) :
    (fieldsOfParts bundle type parts).map Collected.selection =
      Selection.fieldsOnAll bundle type (Part.merged parts).selections := by
  unfold fieldsOfParts Part.merged
  induction parts with
  | nil => rfl
  | cons part rest ih =>
    simp only [List.flatMap_cons, List.map_append, Selection.fieldsOnAll_append]
    rw [selections_fieldsOfAll, ih]

mutual
theorem add_eq_mergeAll (origin : Origin) (found : List Collected) (selection : Selection) :
    add bundle type origin found selection = mergeAll found (fieldsOf bundle type origin selection) := by
  cases selection with
  | leaf field => rfl
  | composite field typeName selections => rfl
  | inlineFragment condition typeName selections =>
    simp only [add, fieldsOf]
    split
    · exact addAll_eq_mergeAll _ _ _ _
    · rfl
  | spread serial name condition typeName selections =>
    simp only [add, fieldsOf]
    split
    · exact addAll_eq_mergeAll _ _ _ _
    · rfl

theorem addAll_eq_mergeAll (origin : Origin) (index : Nat) (found : List Collected)
    (selections : List Selection) :
    addAll bundle type origin index found selections =
      mergeAll found (fieldsOfAll bundle type origin index selections) := by
  cases selections with
  | nil => rfl
  | cons selection rest =>
    simp only [addAll, fieldsOfAll]
    rw [add_eq_mergeAll, addAll_eq_mergeAll]
    simp only [mergeAll, List.foldl_append]
end

theorem ofParts_eq_mergeAll (parts : List Part) :
    ofParts bundle type parts = mergeAll [] (fieldsOfParts bundle type parts) := by
  have hfold : ∀ (parts : List Part) (found : List Collected),
      parts.foldl (fun found part => addAll bundle type part.origin 0 found part.set.selections) found =
        mergeAll found (fieldsOfParts bundle type parts) := by
    intro parts
    induction parts with
    | nil => exact fun found => rfl
    | cons part rest ih =>
      intro found
      rw [List.foldl_cons, ih, addAll_eq_mergeAll]
      simp only [mergeAll, fieldsOfParts, List.flatMap_cons, List.foldl_append]
  exact hfold parts []

@[simp] theorem extend_field (found : Collected) (added : List Part) :
    (found.extend added).field = found.field := by
  unfold extend
  split
  · rfl
  · rfl
  · split <;> rfl
  · rfl

@[simp] theorem extend_key (found : Collected) (added : List Part) :
    (found.extend added).key = found.key := by
  unfold key
  rw [extend_field]

theorem find?_merge (field : Field) (added : List Part) (key : String) (found : List Collected) :
    (merge field added found).find? (·.key == key) =
      if field.responseKey = key then
        some (((found.find? (·.key == key)).map (·.extend added)).getD ⟨field, added⟩)
      else found.find? (·.key == key) := by
  induction found with
  | nil =>
    unfold merge
    by_cases h : field.responseKey = key <;> simp [Collected.key, h]
  | cons first rest ih =>
    unfold merge
    by_cases hf : first.key = field.responseKey
    · rw [if_pos hf]
      by_cases h : field.responseKey = key
      · simp [hf, h]
      · simp [hf, h]
    · rw [if_neg hf]
      by_cases hk : first.key = key
      · have h : field.responseKey ≠ key := fun h => hf (hk.trans h.symm)
        simp [hk, h]
      · simp [hk, ih]

/-- The group of a key holds the fields of that key in order. -/
theorem find?_mergeAll (key : String) (fields found : List Collected) :
    (mergeAll found fields).find? (·.key == key) =
      joined ((found.find? (·.key == key)).toList ++ fields.filter (·.key == key)) := by
  induction fields generalizing found with
  | nil => cases h : found.find? (·.key == key) <;> simp [mergeAll, joined, h]
  | cons field rest ih =>
    change (mergeAll (merge field.field field.parts found) rest).find? _ = _
    rw [ih, find?_merge]
    by_cases h : field.field.responseKey = key
    · have hfield : (field.key == key) = true := by simpa [Collected.key] using h
      rw [if_pos h, List.filter_cons, if_pos hfield]
      cases found.find? (·.key == key) <;> rfl
    · have hfield : ¬ (field.key == key) = true := by simpa [Collected.key] using h
      rw [if_neg h, List.filter_cons, if_neg hfield]

theorem find?_ofParts (parts : List Part) (key : String) :
    (ofParts bundle type parts).find? (·.key == key) =
      joined ((fieldsOfParts bundle type parts).filter (·.key == key)) := by
  rw [ofParts_eq_mergeAll, find?_mergeAll]
  rfl

theorem mem_keys_merge {field : Field} {added : List Part} {key : String} {found : List Collected} :
    key ∈ (merge field added found).map Collected.key ↔
      key = field.responseKey ∨ key ∈ found.map Collected.key := by
  induction found with
  | nil => simp [merge, Collected.key]
  | cons first rest ih =>
    unfold merge
    by_cases hf : first.key = field.responseKey
    · simp [hf]
    · rw [if_neg hf, List.map_cons, List.mem_cons, ih, List.map_cons, List.mem_cons]
      exact or_left_comm

theorem nodup_keys_merge {field : Field} {added : List Part} {found : List Collected}
    (h : (found.map Collected.key).Nodup) : ((merge field added found).map Collected.key).Nodup := by
  induction found with
  | nil => simp [merge]
  | cons first rest ih =>
    obtain ⟨hfirst, hrest⟩ := List.nodup_cons.1 h
    unfold merge
    by_cases hf : first.key = field.responseKey
    · simpa [hf] using h
    · rw [if_neg hf, List.map_cons]
      refine List.nodup_cons.2 ⟨fun hm => ?_, ih hrest⟩
      rcases mem_keys_merge.1 hm with hm | hm
      · exact hf hm
      · exact hfirst hm

theorem nodup_keys_ofParts (parts : List Part) :
    ((ofParts bundle type parts).map Collected.key).Nodup := by
  rw [ofParts_eq_mergeAll]
  have hfold : ∀ (fields found : List Collected), (found.map Collected.key).Nodup →
      ((mergeAll found fields).map Collected.key).Nodup := by
    intro fields
    induction fields with
    | nil => exact fun found h => h
    | cons field rest ih => exact fun found h => ih _ (nodup_keys_merge h)
  exact hfold _ [] List.nodup_nil

theorem joined_field (first : Collected) (rest : List Collected) :
    ∃ parts, joined (first :: rest) = some ⟨first.field, parts⟩ := by
  have hfold : ∀ (rest : List Collected) (first : Collected),
      (rest.foldl (fun found field => found.extend field.parts) first).field = first.field := by
    intro rest
    induction rest with
    | nil => exact fun first => rfl
    | cons field rest ih => exact fun first => (ih _).trans (extend_field _ _)
  refine ⟨(rest.foldl (fun found field => found.extend field.parts) first).parts, ?_⟩
  rw [← hfold rest first]
  rfl

theorem extend_head {found : Collected} {part : Part} {more : List Part} (added : List Part)
    (h : found.parts = part :: more) : ∃ more, (found.extend added).parts = part :: more := by
  unfold extend
  split
  · exact ⟨more, h⟩
  · exact ⟨more, h⟩
  · split
    · exact ⟨more, h⟩
    · rename_i hp _ _
      obtain ⟨rfl, -⟩ := List.cons.inj (hp.symm.trans h)
      exact ⟨_, rfl⟩
  · exact ⟨_, by rw [h]; rfl⟩

/-- A field that comes with a set keeps it at the front of its parts. -/
theorem joined_head {first : Collected} {part : Part} {more : List Part} (rest : List Collected)
    (h : first.parts = part :: more) :
    ∃ more, joined (first :: rest) = some ⟨first.field, part :: more⟩ := by
  have hfold : ∀ (rest : List Collected) (first : Collected) (more : List Part),
      first.parts = part :: more →
        ∃ more, (rest.foldl (fun found field => found.extend field.parts) first).parts = part :: more := by
    intro rest
    induction rest with
    | nil => exact fun first more h => ⟨more, h⟩
    | cons field rest ih =>
      intro first more h
      obtain ⟨more, hext⟩ := extend_head field.parts h
      exact ih _ more hext
  obtain ⟨parts, hj⟩ := joined_field first rest
  obtain ⟨more, hm⟩ := hfold rest first more h
  refine ⟨more, hj.trans ?_⟩
  have hparts := congrArg Collected.parts (Option.some.inj hj)
  change (rest.foldl _ first).parts = parts at hparts
  rw [← hparts, hm]

theorem mem_extend {found : Collected} {added : List Part} {part : Part}
    (h : part ∈ (found.extend added).parts) : part ∈ found.parts ∨ part ∈ added := by
  obtain ⟨field, parts⟩ := found
  unfold extend at h
  split at h
  · exact .inl h
  · exact .inl h
  · split at h
    · exact .inl h
    · rename_i only _ hparts _ _
      obtain rfl : parts = _ := hparts
      rcases List.mem_cons.1 h with rfl | h
      · exact .inl List.mem_cons_self
      · exact .inr h
  · exact List.mem_append.1 h

/-- A group has no sets but those of its fields. -/
theorem mem_joined {fields : List Collected} {collected : Collected}
    (h : joined fields = some collected) :
    ∀ part ∈ collected.parts, ∃ field ∈ fields, part ∈ field.parts := by
  cases fields with
  | nil => cases h
  | cons first rest =>
    obtain rfl := Option.some.inj h
    induction rest generalizing first with
    | nil => exact fun part hp => ⟨first, List.mem_cons_self, hp⟩
    | cons second rest ih =>
      intro part hp
      obtain ⟨field, hf, hp⟩ := ih (first.extend second.parts) rfl part hp
      rcases List.mem_cons.1 hf with rfl | hf
      · rcases mem_extend hp with hp | hp
        · exact ⟨first, List.mem_cons_self, hp⟩
        · exact ⟨second, List.mem_cons_of_mem _ List.mem_cons_self, hp⟩
      · exact ⟨field, List.mem_cons_of_mem _ (List.mem_cons_of_mem _ hf), hp⟩

end Collected

end GraphQLClient
