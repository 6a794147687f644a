import GraphQLClient.Proofs.Decoding.Provenance
import GraphQLClient.Proofs.Paging.Fetching
import GraphQLClient.Proofs.Paging.Refetching

set_option autoImplicit false

/-!
# Which objects can be fetched again

An object that has an id is asked for with the selections that it was decoded with. Where a response
key is selected several times these are the selections of all its occurrences, one after the other, and
nobody has asked yet whether they go together.
-/

namespace GraphQLClient

namespace Model

variable {model : Model} {id : String}

theorem refetch_eq_fetch (hn : model.type.implementsNode = true) (hid : model.id? = some id)
    (hf : model.source.bundle.nodeField?.isSome = true) :
    model.refetch = FollowUp.fetch model.source none id model.head.set.typeName model.head.set
      [nodeFieldName] := by
  unfold refetch
  rw [if_pos hn, hid]
  exact if_pos hf

/-- A refetch fails for one of the reasons that have a name, or with the build of the query. -/
theorem refetch_eq_error {error : ModelError} (hf : model.source.bundle.nodeField?.isSome = true)
    (h : model.refetch = .error error) :
    (error = .notNodeType model.type.name ∧ model.type.implementsNode = false) ∨
      (error = .missingNodeId model.type.name ∧ model.type.implementsNode = true ∧
        model.id? = none) ∨
      ∃ cause, error = .build cause := by
  by_cases hn : model.type.implementsNode = true
  · cases hid : model.id? with
    | none =>
      unfold refetch at h
      rw [if_pos hn, hid] at h
      exact .inr (.inl ⟨(Except.error.inj h).symm, hn, rfl⟩)
    | some id =>
      rw [refetch_eq_fetch hn hid hf] at h
      exact .inr (.inr (FollowUp.ofDraft_eq_error h))
  · unfold refetch at h
    rw [if_neg hn] at h
    exact .inl ⟨(Except.error.inj h).symm, by simpa using hn⟩

theorem refetch_eq_ok_cases {next : FollowUp} (h : model.refetch = .ok next) :
    model.type.implementsNode = true ∧ ∃ id, model.id? = some id := by
  unfold refetch at h
  split at h
  · rename_i hn
    split at h
    · cases h
    · exact ⟨hn, _, ‹_›⟩
  · cases h

theorem fetch_of_refetch {next : FollowUp} (h : model.refetch = .ok next) :
    ∃ id, model.id? = some id ∧ FollowUp.fetch model.source none id model.head.set.typeName
      model.head.set [nodeFieldName] = .ok next := by
  obtain ⟨hn, id, hid⟩ := refetch_eq_ok_cases h
  unfold refetch at h
  rw [if_pos hn, hid] at h
  simp only at h
  split at h
  · exact ⟨id, hid, h⟩
  · cases h

end Model

namespace Decoder

variable {decoder : Decoder}

/-- An object that holds something was decoded with selections. -/
theorem selections_ne_nil {static : TypeDescriptor} {parts : List Part} {mark : Option PageMark}
    {position : Position} {entries : List (String × Json)} {key : String} {value : Decoded}
    (h : (decoder.object static parts mark position entries).get? key = some value) :
    (Part.merged parts).selections ≠ [] := by
  intro hnil
  rw [get?_object] at h
  obtain ⟨collected, hjoined, -⟩ := Option.bind_eq_some_iff.1 h
  have hfields := @Collected.selections_fieldsOfParts decoder.bundle
    (decoder.concreteType static entries) parts
  rw [hnil, Selection.fieldsOnAll, List.map_eq_nil_iff] at hfields
  rw [hfields] at hjoined
  cases hjoined

variable {draft : BundleDraft} {program : OperationDraft} {nodeType : TypeDescriptor} {data : Json}
  {address : List Move} {model : Model}

/-- With a `node` field that fetches objects by their ids, an object that has one can be fetched again
exactly if its type takes the selections it was decoded with. As long as the fields of all objects
agree, this asks only whether those of one response key are the same, with all that is below them. -/
theorem refetch_eq_ok_iff (hb : draft.build = .ok decoder.bundle) (hi : decoder.bundle.issues = [])
    (hf : decoder.bundle.FetchesById nodeType)
    (hd : ∀ fragment ∈ Step.fragmentsOfAll program.program, fragment.DefinedOver decoder.bundle)
    (ho : (program.build decoder.bundle).result = .ok decoder.source.operation)
    (hm : (Decoded.object (decoder.decode data)).at? address = some (.object model)) :
    ∃ static, decoder.bundle.get? model.head.set.typeName = some static ∧
      ((∃ next, model.refetch = .ok next) ↔
        model.type.implementsNode = true ∧ (∃ id, model.id? = some id) ∧
          decoder.bundle.Starts decoder.bundle.queryRoot ∧ decoder.bundle.Starts nodeType ∧
          ((FollowUp.rootScope decoder.source model.head.set).within static).Accepts
            model.head.set.selections) ∧
      (decoder.Agrees (.object (decoder.decode data)) →
        (((FollowUp.rootScope decoder.source model.head.set).within static).Accepts
            model.head.set.selections ↔ Selection.Uniform model.head.set.selections)) ∧
      ∀ error, model.refetch = .error error →
        (error = .notNodeType model.type.name ∧ model.type.implementsNode = false) ∨
          (error = .missingNodeId model.type.name ∧ model.type.implementsNode = true ∧
            model.id? = none) ∨
          ∃ cause, error = .build cause := by
  have hrooted := BundleDraft.rooted_of_build hb
  obtain ⟨field, hfield, hnode, -⟩ := hf.declared
  rw [at?_decode] at hm
  obtain ⟨spot, hfollow, hread⟩ := Option.map_eq_some_iff.1 hm
  obtain ⟨static, parts, entries, hshape, -, rfl⟩ := of_read_eq_object hread
  have hknown : decoder.bundle.get? (Part.merged parts).typeName = some static := by
    have h := (follow?_known hrooted ho hfollow).shape
    rwa [hshape] at h
  have hhas : decoder.bundle.nodeField?.isSome = true := by rw [hfield]; rfl
  refine ⟨static, hknown, ?_, fun hagrees => ?_, fun error => Model.refetch_eq_error hhas⟩
  · -- the fragment of the query is on the type of the set, which need not be that of the object
    have hself : decoder.bundle.get? static.name = some static := Bundle.get?_self hknown
    have hiff : ∀ id, (decoder.concreteType static entries).implementsNode = true →
        (decoder.object static parts spot.mark spot.position entries).id? = some id →
        ((∃ next, (decoder.object static parts spot.mark spot.position entries).refetch = .ok next) ↔
          decoder.bundle.Starts decoder.bundle.queryRoot ∧ decoder.bundle.Starts nodeType ∧
          ((FollowUp.rootScope decoder.source (Part.merged parts)).within static).Accepts
            (Part.merged parts).selections) := by
      intro id hn hid
      rw [Model.refetch_eq_fetch (show (decoder.object static parts spot.mark spot.position
        entries).type.implementsNode = true from hn) hid hhas]
      have hadmits : ((FollowUp.rootScope decoder.source (Part.merged parts)).within
          nodeType).Admits static.name static :=
        hf.admits hi hself (get?_concreteType hself) hn (canBe_concreteType static entries) rfl rfl
      rw [Bundle.get?_name hknown] at hadmits
      obtain ⟨value, hvalue, -⟩ := Option.bind_eq_some_iff.1 hid
      exact FollowUp.fetch_eq_ok_iff (OperationDraft.declares_of_build ho) hf hadmits
        (selections_ne_nil hvalue) none [nodeFieldName]
    constructor
    · rintro ⟨next, hnext⟩
      obtain ⟨hn, id, hid⟩ := Model.refetch_eq_ok_cases hnext
      exact ⟨hn, ⟨id, hid⟩, (hiff id hn hid).1 ⟨next, hnext⟩⟩
    · rintro ⟨hn, ⟨id, hid⟩, hbuilds⟩
      exact (hiff id hn hid).2 hbuilds
  · have htogether : decoder.ValidTogether static parts := by
      have hvalid := OperationDraft.valid_of_validOver
        (fun fragment hm => Fragment.validOver_of_definedOver (hd fragment hm)) ho
      have h := (follow?_validTogether hrooted hvalid hagrees hfollow).shape
      rwa [hshape] at h
    exact Scope.accepts_of_validOn (FollowUp.validOn_declared htogether.valid)

end Decoder

/-- The shop that is asked for twice can be fetched again. -/
def doubledRefetches : Bool :=
  match (Decoded.object (doubledDecoder.decode pagedData)).at? [.key "shop"] with
  | some (.object model) => model.refetch.isOk
  | _ => false

theorem doubled_refetchable :
    ∃ model next, (Decoded.object (doubledDecoder.decode pagedData)).at? [.key "shop"] =
        some (.object model) ∧
      model.refetch = .ok next ∧ Selection.Uniform model.head.set.selections := by
  have h : doubledRefetches = true := by decide +kernel
  unfold doubledRefetches at h
  split at h
  · rename_i model hmodel
    obtain ⟨nodeType, hfetches⟩ := sampleBundle_fetchesById
    have hdefined : ∀ fragment ∈ Step.fragmentsOfAll doubledDraft.program,
        fragment.DefinedOver sampleBundle := by
      intro fragment hf
      obtain rfl : fragment = sampleFragment := by
        simpa [doubledDraft, OperationDraft.ofProgram, Step.fragmentsOfAll, Step.fragments] using hf
      exact sampleFragment_definedOver
    obtain ⟨static, -, hiff, huniform, -⟩ := @Decoder.refetch_eq_ok_iff doubledDecoder _ doubledDraft
      nodeType pagedData _ model sampleBundle_build (by decide +kernel) hfetches hdefined
      (OperationDraft.build_eq_built (by decide +kernel)) hmodel
    cases hnext : model.refetch with
    | error e =>
      rw [hnext] at h
      cases h
    | ok next =>
      obtain ⟨-, -, -, -, haccepts⟩ := hiff.1 ⟨next, hnext⟩
      exact ⟨model, next, hmodel, hnext,
        (huniform (Decoder.agrees_of_agreesOn (by decide +kernel))).1 haccepts⟩
  · cases h

/-- The products of the shop are asked for in two places, which select different things of them. -/
def splitDraft : OperationDraft :=
  .ofProgram .query
    [.object "shop" .none
      [.connection "products" ⟨none, [("first", .int 1)]⟩ [.field "title" .none]],
     .fragmentOn "Query"
      [.object "shop" .none
        [.connection "products" ⟨none, [("first", .int 1)]⟩ [.field "handle" .none]]]]

abbrev splitDecoder : Decoder := ⟨⟨sampleBundle, splitDraft.built sampleBundle, []⟩, none⟩

/-- The shop has an id, and its refetch is refused. -/
def splitRefused : Bool :=
  match (Decoded.object (splitDecoder.decode pagedData)).at? [.key "shop"] with
  | some (.object model) =>
    match model.refetch with
    | .error error => decide (model.type.implementsNode = true ∧ model.id? = some "s1" ∧
        error = .build (.duplicateField "Shop" "products"))
    | .ok _ => false
  | _ => false

/-- A shop with an id cannot be fetched again. -/
theorem split_shop_refused :
    (⟨some "Query", none, sampleBundle.types⟩ : BundleDraft).build = .ok sampleBundle ∧
    sampleBundle.issues = [] ∧ (∃ nodeType, sampleBundle.FetchesById nodeType) ∧
    (splitDraft.build sampleBundle).result = .ok splitDecoder.source.operation ∧
    ∃ model, (Decoded.object (splitDecoder.decode pagedData)).at? [.key "shop"] =
        some (.object model) ∧
      model.type.implementsNode = true ∧ model.id? = some "s1" ∧
      model.refetch = .error (.build (.duplicateField "Shop" "products")) := by
  refine ⟨sampleBundle_build, sampleBundle_issues, sampleBundle_fetchesById,
    OperationDraft.build_eq_built (by decide +kernel), ?_⟩
  have h : splitRefused = true := by decide +kernel
  unfold splitRefused at h
  split at h
  · rename_i model hmodel
    split at h
    · rename_i error herror
      obtain ⟨hnode, hid, rfl⟩ := of_decide_eq_true h
      exact ⟨model, hmodel, hnode, hid, herror⟩
    · cases h
  · cases h

end GraphQLClient
