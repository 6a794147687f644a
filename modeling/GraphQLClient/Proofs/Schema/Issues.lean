import GraphQLClient.Schema.Issue

set_option autoImplicit false

/-!
# Bundles without issues

A bundle has no issues exactly if it is complete: it holds every type that its types name, and an
abstract type can be one object type of it at least. Then two composite types overlap exactly if there
is an object type that both can be.
-/

namespace GraphQLClient

namespace Bundle

variable {bundle : Bundle} {name : String} {type : TypeDescriptor}

theorem get?_name (h : bundle.get? name = some type) : type.name = name := by
  simpa using List.find?_some h

theorem get?_self (h : bundle.get? name = some type) : bundle.get? type.name = some type := by
  rw [get?_name h, h]

theorem mem_types (h : bundle.get? name = some type) : type ∈ bundle.types :=
  List.mem_of_find?_eq_some h

theorem contains_iff : bundle.contains name = true ↔ ∃ type, bundle.get? name = some type :=
  Option.isSome_iff_exists

/-- The bundle has an object type of this name. -/
def HasObject (bundle : Bundle) (name : String) : Prop :=
  ∃ object, bundle.get? name = some object ∧ object.kind = .object

/-- The bundle holds the types that its types name. -/
structure Complete (bundle : Bundle) : Prop where
  fields : ∀ type ∈ bundle.types, ∀ field ∈ type.fields, bundle.contains field.typeName = true
  arguments : ∀ type ∈ bundle.types, ∀ field ∈ type.fields, ∀ argument ∈ field.arguments,
    bundle.contains argument.2.namedType = true
  inhabited : ∀ type ∈ bundle.types, type.isAbstract = true → type.possibleTypes ≠ []
  objects : ∀ type ∈ bundle.types, type.isAbstract = true → ∀ name ∈ type.possibleTypes,
    bundle.HasObject name

theorem argumentIssues_eq_nil_iff {field : FieldDescriptor} :
    bundle.argumentIssues type field = [] ↔
      ∀ argument ∈ field.arguments, bundle.contains argument.2.namedType = true := by
  rw [argumentIssues, List.filterMap_eq_nil_iff]
  refine forall₂_congr fun argument _ => ?_
  obtain ⟨name, type⟩ := argument
  simp

theorem fieldIssues_eq_nil_iff {field : FieldDescriptor} :
    bundle.fieldIssues type field = [] ↔ bundle.contains field.typeName = true ∧
      ∀ argument ∈ field.arguments, bundle.contains argument.2.namedType = true := by
  rw [fieldIssues, List.append_eq_nil_iff, argumentIssues_eq_nil_iff]
  simp

theorem possibleTypeIssue?_eq_none_iff :
    bundle.possibleTypeIssue? type name = none ↔ bundle.HasObject name := by
  unfold possibleTypeIssue? HasObject
  cases bundle.get? name <;> simp

theorem possibleTypeIssues_eq_nil_iff :
    bundle.possibleTypeIssues type = [] ↔ (type.isAbstract = true →
      type.possibleTypes ≠ [] ∧ ∀ name ∈ type.possibleTypes, bundle.HasObject name) := by
  unfold possibleTypeIssues
  split
  · rename_i habstract
    simp only [habstract, forall_const, List.append_eq_nil_iff, List.filterMap_eq_nil_iff,
      possibleTypeIssue?_eq_none_iff]
    simp
  · rename_i hnot
    simp [hnot]

theorem issues_eq_nil_iff : bundle.issues = [] ↔ bundle.Complete := by
  simp only [issues, List.flatMap_eq_nil_iff, List.append_eq_nil_iff, fieldIssues_eq_nil_iff,
    possibleTypeIssues_eq_nil_iff]
  constructor
  · intro h
    exact ⟨fun type ht field hf => ((h type ht).1 field hf).1,
      fun type ht field hf => ((h type ht).1 field hf).2, fun type ht ha => ((h type ht).2 ha).1,
      fun type ht ha => ((h type ht).2 ha).2⟩
  · intro h type ht
    exact ⟨fun field hf => ⟨h.fields type ht field hf, h.arguments type ht field hf⟩,
      fun ha => ⟨h.inhabited type ht ha, h.objects type ht ha⟩⟩

end Bundle

namespace TypeDescriptor

variable {type a b : TypeDescriptor} {name : String}

theorem canBe_iff : type.canBe name = true ↔
    type.name = name ∨ (type.isAbstract = true ∧ name ∈ type.possibleTypes) := by
  simp [canBe]

theorem canBe_self (type : TypeDescriptor) : type.canBe type.name = true := canBe_iff.2 (.inl rfl)

/-- Objects of a type can belong to both of two types that can be it. -/
theorem overlaps_of_canBe (ha : a.canBe name = true) (hb : b.canBe name = true) :
    a.overlaps b = true := by
  rcases canBe_iff.1 ha with rfl | ⟨habstract, hmem⟩
  · simp [overlaps, hb]
  · rcases canBe_iff.1 hb with rfl | ⟨habstract', hmem'⟩
    · simp [overlaps, ha]
    · have hany : a.possibleTypes.any b.possibleTypes.contains = true :=
        List.any_eq_true.2 ⟨name, hmem, by simpa using hmem'⟩
      simp [overlaps, habstract, habstract', hany]

theorem isAbstract_of_isComposite (h : type.isComposite = true) (hne : type.kind ≠ .object) :
    type.isAbstract = true := by
  simpa [isComposite, TypeKind.isComposite, isAbstract, TypeKind.isAbstract, hne] using h

end TypeDescriptor

namespace Bundle

variable {bundle : Bundle} {a b type : TypeDescriptor} {name possible : String}

/-- What an abstract type can be are object types. -/
theorem Complete.object_of_possible (hc : bundle.Complete) (ht : bundle.get? name = some type)
    (ha : type.isAbstract = true) (hp : possible ∈ type.possibleTypes) : bundle.HasObject possible :=
  hc.objects type (mem_types ht) ha possible hp

/-- The type of a field is in the bundle. -/
theorem Complete.contains_of_field? (hc : bundle.Complete) (ht : bundle.get? name = some type)
    {field : FieldDescriptor} {fieldName : String} (hf : type.field? fieldName = some field) :
    ∃ found, bundle.get? field.typeName = some found :=
  contains_iff.1 (hc.fields type (mem_types ht) field (List.mem_of_find?_eq_some hf))

/-- Every composite type can be some object type. -/
theorem Complete.exists_object (hc : bundle.Complete) (ht : bundle.get? name = some type)
    (hcomposite : type.isComposite = true) :
    ∃ possible, bundle.HasObject possible ∧ type.canBe possible = true := by
  by_cases hkind : type.kind = .object
  · exact ⟨type.name, ⟨type, get?_self ht, hkind⟩, type.canBe_self⟩
  · have habstract := TypeDescriptor.isAbstract_of_isComposite hcomposite hkind
    obtain ⟨possible, hp⟩ := List.exists_mem_of_ne_nil _ (hc.inhabited type (mem_types ht) habstract)
    exact ⟨possible, hc.object_of_possible ht habstract hp,
      TypeDescriptor.canBe_iff.2 (.inr ⟨habstract, hp⟩)⟩

/-- A type that can be another has an object type in common with it. -/
theorem Complete.exists_common (hc : bundle.Complete) (ha : bundle.get? a.name = some a)
    (hb : bundle.get? b.name = some b) (hcomposite : a.isComposite = true)
    (h : a.canBe b.name = true) :
    ∃ possible, bundle.HasObject possible ∧ a.canBe possible = true ∧ b.canBe possible = true := by
  rcases TypeDescriptor.canBe_iff.1 h with hname | ⟨habstract, hmem⟩
  · rw [hname, hb] at ha
    obtain rfl := Option.some.inj ha
    obtain ⟨possible, hobject, hcan⟩ := hc.exists_object hb hcomposite
    exact ⟨possible, hobject, hcan, hcan⟩
  · exact ⟨b.name, hc.object_of_possible ha habstract hmem, h, b.canBe_self⟩

/-- Two composite types overlap if there is an object type that both can be. -/
theorem Complete.overlaps_iff (hc : bundle.Complete) (ha : bundle.get? a.name = some a)
    (hb : bundle.get? b.name = some b) (hca : a.isComposite = true) (hcb : b.isComposite = true) :
    a.overlaps b = true ↔
      ∃ possible, bundle.HasObject possible ∧ a.canBe possible = true ∧ b.canBe possible = true := by
  constructor
  · intro h
    simp only [TypeDescriptor.overlaps, Bool.or_eq_true, Bool.and_eq_true] at h
    -- one of the two can be the other, or they share a possible type
    rcases h with (h | h) | ⟨⟨hka, hkb⟩, hany⟩
    · exact hc.exists_common ha hb hca h
    · obtain ⟨possible, hobject, hcanb, hcana⟩ := hc.exists_common hb ha hcb h
      exact ⟨possible, hobject, hcana, hcanb⟩
    · obtain ⟨possible, hmema, hmemb⟩ := List.any_eq_true.1 hany
      exact ⟨possible, hc.object_of_possible ha hka hmema,
        TypeDescriptor.canBe_iff.2 (.inr ⟨hka, hmema⟩),
        TypeDescriptor.canBe_iff.2 (.inr ⟨hkb, by simpa using hmemb⟩)⟩
  · rintro ⟨possible, -, hcana, hcanb⟩
    exact TypeDescriptor.overlaps_of_canBe hcana hcanb

end Bundle

end GraphQLClient
