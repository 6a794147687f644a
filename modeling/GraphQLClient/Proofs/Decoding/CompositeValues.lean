import GraphQLClient.Proofs.Building.Sharing
import GraphQLClient.Proofs.Building.UnknownTypes
import GraphQLClient.Proofs.Decoding.PageMarks
import Mathlib.Data.List.Forall2

set_option autoImplicit false

/-!
# Values of composite fields

A composite field that is built names a type of the bundle, so the decoder has a type to decode its
value with: what the response answers is never kept as it came, unless it is neither an object nor a
list nor null.
-/

namespace GraphQLClient

/-- A value that has neither fields nor items and is not null. -/
def Json.isPlain : Json → Bool
  | .null => false
  | .arr _ => false
  | .obj _ => false
  | _ => true

/-- The value is decoded into one of its own form, and so is every item of a list. -/
inductive Decoded.Mirrors : Decoded → Json → Prop
  | null : Mirrors .null .null
  | object {model : Model} {entries : List (String × Json)} : Mirrors (.object model) (.obj entries)
  | connection {nodes : List Model} {info : PageInfo} {mark : Option PageMark}
      {entries : List (String × Json)} : Mirrors (.connection nodes info mark) (.obj entries)
  | list {values : List Decoded} {items : List Json} (each : List.Forall₂ Mirrors values items) :
      Mirrors (.list values) (.arr items)
  | plain {json : Json} (plain : json.isPlain = true) : Mirrors (.scalar json) json

theorem Shape.item_ne_raw {shape : Shape} (h : shape ≠ .raw) : shape.item ≠ .raw := by
  cases shape with
  | raw => exact absurd rfl h
  | object => exact h
  | connection => exact fun hraw => nomatch hraw

/-- With a type at the front of its parts a group is not kept as it came. -/
theorem Shape.ofCollected_ne_raw {bundle : Bundle} {collected : Collected} {first : Part}
    {more : List Part} (hparts : collected.parts = first :: more)
    (htype : bundle.contains first.set.typeName = true) : ofCollected bundle collected ≠ .raw := by
  obtain ⟨type, htype⟩ := Bundle.contains_iff.1 htype
  intro hraw
  rw [ofCollected, hparts] at hraw
  simp only [htype] at hraw
  split at hraw
  · split at hraw
    · cases hraw
    · split at hraw <;> cases hraw
  · cases hraw

namespace Decoder

variable {decoder : Decoder}

/-- Whatever the data is, a value that is not kept raw has the form of its data. -/
theorem value_mirrors (json : Json) : ∀ (shape : Shape) (position : Position), shape ≠ .raw →
    (decoder.value shape position json).Mirrors json := by
  intro shape position hshape
  cases json with
  | null =>
    cases shape with
    | raw => exact absurd rfl hshape
    | _ => exact .null
  | obj entries =>
    cases shape with
    | raw => exact absurd rfl hshape
    | object => exact .object
    | connection => exact .connection
  | arr items =>
    -- items of a connection are decoded as objects: the shape may change, but never to a raw one
    have hvalue : decoder.value shape position (.arr items) =
        .list (items.map (decoder.value shape.item position)) := by
      rw [← items_eq]
      cases shape with
      | raw => exact absurd rfl hshape
      | _ => rfl
    rw [hvalue]
    refine .list (List.forall₂_map_left_iff.2 (List.forall₂_same.2 fun item hitem => ?_))
    exact value_mirrors item shape.item position (Shape.item_ne_raw hshape)
  | _ => exact .plain rfl
termination_by json
decreasing_by exact Json.sizeOf_item hitem

end Decoder

namespace Collected

/-- A group whose first field has a set starts with that set. -/
theorem joined_of_composite {fields : List Collected} {key : String} {field : Field}
    {typeName : String} {inner : List Selection}
    (h : (fields.map Collected.selection).find? (Selection.answers key) =
      some (.composite field typeName inner)) :
    ∃ part more, joined (fields.filter (·.key == key)) = some ⟨field, part :: more⟩ ∧
      part.set = ⟨typeName, inner⟩ := by
  rw [← List.head?_filter, ← filter_selections, List.head?_map] at h
  obtain ⟨first, hfirst, hselection⟩ := Option.map_eq_some_iff.1 h
  obtain ⟨rest, hrest⟩ := List.head?_eq_some_iff.1 hfirst
  obtain ⟨found, parts⟩ := first
  cases parts with
  | nil => cases hselection
  | cons part more =>
    have hparts : (⟨found, part :: more⟩ : Collected).parts = part :: more := rfl
    obtain ⟨more', hjoined⟩ := joined_head rest hparts
    cases hselection
    exact ⟨part, more', hrest ▸ hjoined, rfl⟩

end Collected

/-- The set below the selection, if it has one, names a type of the bundle. -/
def Selection.OnKnown (bundle : Bundle) (selection : Selection) : Prop :=
  ∀ set, selection.fieldSet? = some set → bundle.contains set.typeName = true

namespace Decoder

variable {decoder : Decoder}

/-- A key whose first field has a set on a known type is decoded into a value of the form that the
object gives it. -/
theorem get?_mirrors {static : TypeDescriptor} {parts : List Part} {mark : Option PageMark}
    {position : Position} {entries : List (String × Json)} {key : String} {field : Field}
    {typeName : String} {inner : List Selection} {json : Json}
    (hfirst : (Selection.fieldsOnAll decoder.bundle (decoder.concreteType static entries)
      (Part.merged parts).selections).find? (Selection.answers key) =
        some (.composite field typeName inner))
    (hknown : decoder.bundle.contains typeName = true) (hjson : Keyed.find? key entries = some json) :
    ∃ value, (decoder.object static parts mark position entries).get? key = some value ∧
      value.Mirrors json := by
  rw [← Collected.selections_fieldsOfParts] at hfirst
  obtain ⟨part, more, hjoined, hset⟩ := Collected.joined_of_composite hfirst
  rw [get?_object, hjoined, hjson]
  refine ⟨_, rfl, value_mirrors json _ _ (Shape.ofCollected_ne_raw rfl ?_)⟩
  rw [hset]
  exact hknown

end Decoder

/-! ## Sets that are built -/

namespace Selection

variable {bundle : Bundle}

theorem onKnown_of_buildSet {scope : Scope} {program : List Step} {set : SelectionSet}
    (hb : scope.bundle = bundle)
    (hf : ∀ fragment ∈ Step.fragmentsOfAll program,
      EverywhereAll (OnKnown bundle) fragment.set.selections)
    (h : (OperationDraft.buildSet scope program).result = .ok set) :
    EverywhereAll (OnKnown bundle) set.selections := by
  obtain ⟨-, -, -, hgrown, -⟩ := OperationDraft.grown_of_buildSet True hf (.inl trivial) h
  refine hgrown.everywhere hb (fun _ _ => ?_) (fun child field inner hchild hself _ => ?_)
    (fun _ _ _ => ?_) fun fragment hbody => ⟨?_, hbody⟩
  · exact fun _ hset => nomatch hset
  · rintro _ ⟨⟩
    exact Bundle.contains_iff.2 ⟨_, hself⟩
  · exact fun _ hset => nomatch hset
  · exact fun _ hset => nomatch hset

theorem onKnown_of_definedOver {fragment : Fragment} (h : fragment.DefinedOver bundle) :
    EverywhereAll (OnKnown bundle) fragment.set.selections := by
  induction h with
  | intro document serial draft same _ defined ih =>
    obtain ⟨target, set, -, -, -, hset, rfl⟩ := DocumentDraft.buildFragment_eq_ok defined
    exact onKnown_of_buildSet same ih hset

theorem onKnown_of_build {draft : OperationDraft} {operation : Operation}
    (hf : ∀ fragment ∈ Step.fragmentsOfAll draft.program, fragment.DefinedOver bundle)
    (h : (draft.build bundle).result = .ok operation) :
    EverywhereAll (OnKnown bundle) operation.set.selections := by
  obtain ⟨scope, set, hscope, hset, rfl⟩ := OperationDraft.build_eq_ok h
  obtain ⟨-, -, -, hbundle⟩ := OperationDraft.scope_eq_ok hscope
  exact onKnown_of_buildSet hbundle (fun fragment hm => onKnown_of_definedOver (hf fragment hm)) hset

end Selection

namespace Decoder

variable {decoder : Decoder}

/-- No value of a composite field is kept raw in the response to an operation that is built. -/
theorem mirrors_of_build {draft : OperationDraft}
    (hf : ∀ fragment ∈ Step.fragmentsOfAll draft.program, fragment.DefinedOver decoder.bundle)
    (hb : (draft.build decoder.bundle).result = .ok decoder.source.operation) {data : Json}
    {address : List Move} {model : Model}
    (hm : (Decoded.object (decoder.decode data)).at? address = some (.object model)) :
    ∃ entries, (Json.obj (data.obj?.getD [])).at? address = some (.obj entries) ∧
      ∀ key field typeName inner json,
        (Selection.fieldsOnAll decoder.bundle model.type model.head.set.selections).find?
          (Selection.answers key) = some (.composite field typeName inner) →
        Keyed.find? key entries = some json →
        ∃ value, model.get? key = some value ∧ value.Mirrors json := by
  rw [at?_decode] at hm
  obtain ⟨spot, hspot, hread⟩ := Option.map_eq_some_iff.1 hm
  obtain ⟨static, parts, entries, hshape, hjson, rfl⟩ := of_read_eq_object hread
  refine ⟨entries, hjson ▸ (placed_follow? hspot).json, ?_⟩
  intro key field typeName inner json hfirst hfound
  refine get?_mirrors hfirst ?_ hfound
  have hparts : Selection.EverywhereAll (Selection.OnKnown decoder.bundle)
      (Part.merged parts).selections := by
    have heach := (follow?_throughout (Selection.onKnown_of_build hf hb) hspot).shape
    rw [hshape] at heach
    exact heach
  have hcomposite := Selection.everywhereAll_iff.1 (Selection.everywhere_fieldsOnAll hparts) _
    (List.mem_of_find?_eq_some hfirst)
  exact hcomposite.self _ rfl

end Decoder

/-! ## Complete bundles -/

/-- The type was named by the caller and is not in the bundle, where no field returns it. -/
structure Bundle.Lacks (bundle : Bundle) (given : List String) (name : String) : Prop where
  given : name ∈ given
  unknown : bundle.get? name = none
  unreturned : ∀ type ∈ bundle.types, ∀ field ∈ type.fields, field.typeName ≠ name

theorem Bundle.Complete.lacks {bundle : Bundle} (hc : bundle.Complete) {given : List String}
    {name : String} (h : (BuildError.unknownType name).Blames bundle given) :
    bundle.Lacks given name := by
  obtain ⟨hgiven, hunknown⟩ := h name rfl
  refine ⟨hgiven, hunknown, fun type ht field hf heq => ?_⟩
  have hcontains := hc.fields type ht field hf
  rw [heq, contains, hunknown] at hcontains
  cases hcontains

/-- A bundle has no issues if and only if it is complete. Whatever is built over such a bundle, a type
is unknown only if the caller named it; and whatever the response is, the value under a key whose
first field has selections is decoded, at every depth, into an object or a connection, into null, or
into a list of such values, as the response gives it. -/
theorem Bundle.validated_reliable (bundle : Bundle) :
    (bundle.issues = [] ↔ bundle.Complete) ∧
    ∀ source : BundleDraft, source.build = .ok bundle → bundle.issues = [] →
      (∀ (draft : OperationDraft) name, (draft.build bundle).Reports (.unknownType name) →
        bundle.Lacks draft.namedTypes name) ∧
      (∀ (document : DocumentDraft) serial (draft : FragmentDraft) name, document.bundle = bundle →
        (document.buildFragment serial draft).Reports (.unknownType name) →
        bundle.Lacks draft.namedTypes name) ∧
      ∀ (decoder : Decoder) (draft : OperationDraft), decoder.bundle = bundle →
        (∀ fragment ∈ Step.fragmentsOfAll draft.program, fragment.DefinedOver bundle) →
        (draft.build bundle).result = .ok decoder.source.operation →
        ∀ data address model,
          (Decoded.object (decoder.decode data)).at? address = some (.object model) →
          ∃ entries, (Json.obj (data.obj?.getD [])).at? address = some (.obj entries) ∧
            ∀ key field typeName inner json,
              (Selection.fieldsOnAll bundle model.type model.head.set.selections).find?
                (Selection.answers key) = some (.composite field typeName inner) →
              Keyed.find? key entries = some json →
              ∃ value, model.get? key = some value ∧ value.Mirrors json := by
  refine ⟨issues_eq_nil_iff, fun source hsource hissues => ?_⟩
  have hcomplete := issues_eq_nil_iff.1 hissues
  have hrooted := BundleDraft.rooted_of_build hsource
  refine ⟨fun draft name h => hcomplete.lacks (OperationDraft.build_blames hcomplete hrooted h),
    fun document serial draft name hbundle h => ?_, fun decoder draft hbundle hf hb data address => ?_⟩
  · subst hbundle
    exact hcomplete.lacks (DocumentDraft.buildFragment_blames hcomplete h)
  · subst hbundle
    exact fun model hm => Decoder.mirrors_of_build hf hb hm

/-- A shop whose products are null, in a list. -/
def unlistedData : Json := .obj [("shop", .arr [.obj [("products", .null)], .null])]

def shopIsComposite (model : Model) : Bool :=
  match (Selection.fieldsOnAll sampleBundle model.type model.head.set.selections).find?
      (Selection.answers "shop") with
  | some (.composite _ _ _) => true
  | _ => false

/-- The list is decoded as one, though the shop is an object by its type. -/
theorem sample_shop_mirrored :
    let decoder : Decoder := ⟨⟨sampleBundle, sampleDraft.built sampleBundle, []⟩, none⟩
    ((⟨some "Query", none, sampleBundle.types⟩ : BundleDraft).build = .ok sampleBundle ∧
      sampleBundle.issues = [] ∧
      (sampleDraft.build sampleBundle).result = .ok (sampleDraft.built sampleBundle)) ∧
    ∃ value, (decoder.decode unlistedData).get? "shop" = some value ∧
      value.Mirrors (.arr [.obj [("products", .null)], .null]) := by
  intro decoder
  have hshop : shopIsComposite (decoder.decode unlistedData) = true := by decide +kernel
  refine ⟨⟨sampleBundle_build, sampleBundle_issues, sampleDraft_built⟩, ?_⟩
  obtain ⟨-, -, hmirrors⟩ :=
    (Bundle.validated_reliable sampleBundle).2 _ sampleBundle_build sampleBundle_issues
  obtain ⟨entries, hentries, hvalue⟩ := hmirrors decoder sampleDraft rfl sampleDraft_definedOver
    sampleDraft_built unlistedData [] _ rfl
  obtain rfl : _ = entries := Json.obj.inj (Option.some.inj hentries)
  unfold shopIsComposite at hshop
  split at hshop
  · rename_i field typeName inner hfound
    exact hvalue "shop" field typeName inner _ hfound rfl
  · cases hshop

end GraphQLClient
