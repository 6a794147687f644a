import GraphQLClient.Proofs.Building.Sharing
import GraphQLClient.Proofs.Decoding.PageMarks
import GraphQLClient.Proofs.Paging.Refetchable
import GraphQLClient.Proofs.Paging.Replays

set_option autoImplicit false

/-!
# Which field an id comes from

An object is fetched again by what the response shows under the key `id`, and so is the object around a
connection. A set on a type that has ids starts with the field `id`, so that no other field can come
first under the key. Where an object is selected through a union, or through an interface without ids,
the key belongs to the first field that asks for it in some fragment, and this may be any field.
-/

namespace GraphQLClient

/-- Objects of the type can be fetched by an id, which the type declares. -/
def Bundle.givesId (bundle : Bundle) (typeName : String) : Bool :=
  (bundle.get? typeName).any fun type => type.implementsNode && (type.field? "id").isSome

/-- The field `id` of the schema without arguments, whatever key it has. -/
structure Field.IsId (field : Field) : Prop where
  name : field.name = "id"
  arguments : field.arguments = []

/-- Nothing but the id is selected under the key of the id. -/
def Selection.KeepsId (selection : Selection) : Prop :=
  ∀ field ∈ selection.field?, field.responseKey = "id" → field.IsId

namespace SelectionSet

/-- The field that answers to a key on objects of a type. -/
def fieldOn? (bundle : Bundle) (type : TypeDescriptor) (key : String) (set : SelectionSet) :
    Option Field :=
  ((Selection.fieldsOnAll bundle type set.selections).find? (Selection.answers key)).bind
    Selection.field?

/-- The id stands first, if the type of the set gives one. -/
def LeadsWithId (bundle : Bundle) (set : SelectionSet) : Prop :=
  bundle.givesId set.typeName = true → [.leaf (.plain "id")] <+: set.selections

variable {bundle : Bundle} {type : TypeDescriptor} {set : SelectionSet} {key : String} {field : Field}

theorem mem_of_fieldOn? (h : set.fieldOn? bundle type key = some field) :
    field.responseKey = key ∧ ∃ selection ∈ Selection.fieldsOnAll bundle type set.selections,
      selection.field? = some field := by
  obtain ⟨selection, hfound, hfield⟩ := Option.bind_eq_some_iff.1 h
  have hkey := List.find?_some hfound
  rw [Selection.answers, hfield] at hkey
  exact ⟨beq_iff_eq.1 hkey, selection, List.mem_of_find?_eq_some hfound, hfield⟩

theorem LeadsWithId.fieldOn? (h : set.LeadsWithId bundle) (hg : bundle.givesId set.typeName = true) :
    set.fieldOn? bundle type "id" = some (.plain "id") := by
  obtain ⟨rest, hrest⟩ := h hg
  rw [SelectionSet.fieldOn?, ← hrest]
  rfl

end SelectionSet

/-- The field that answers to a key is the one that the decoder makes the group of the key with. -/
theorem Collected.field_find?_ofParts {bundle : Bundle} {type : TypeDescriptor} (parts : List Part)
    (key : String) :
    ((ofParts bundle type parts).find? (·.key == key)).map (·.field) =
      (Part.merged parts).fieldOn? bundle type key := by
  rw [find?_ofParts, SelectionSet.fieldOn?, ← selections_fieldsOfParts, ← List.head?_filter,
    ← filter_selections]
  cases (fieldsOfParts bundle type parts).filter (·.key == key) with
  | nil => rfl
  | cons first rest =>
    obtain ⟨parts, hjoined⟩ := joined_field first rest
    rw [hjoined]
    exact first.field?_selection.symm

/-! ## Sets that start with the id -/

theorem Scope.leadsWithId {scope : Scope} {set : SelectionSet}
    (hself : scope.bundle.get? scope.type.name = some scope.type)
    (hname : set.typeName = scope.type.name) (h : scope.opening <+: set.selections) :
    set.LeadsWithId scope.bundle := by
  intro hg
  rw [Bundle.givesId, hname, hself, Option.any_some] at hg
  have hfirst : [.leaf (.plain "id")] <+: scope.opening := by
    rw [opening, if_pos hg]
    exact List.prefix_append _ _
  exact hfirst.trans h

/-- The set of a new field starts with the id. -/
def Selection.StartsWithId (bundle : Bundle) : Selection → Prop
  | .composite _ typeName inner => SelectionSet.LeadsWithId bundle ⟨typeName, inner⟩
  | _ => True

theorem Selection.given_startsWithId (bundle : Bundle) : Given bundle (StartsWithId bundle) where
  leaf := fun _ _ => trivial
  composite := fun child field inner hb hself hf => by
    subst hb
    exact Scope.leadsWithId hself rfl hf.1
  inlineFragment := fun _ _ _ => trivial
  spread := fun _ => trivial

theorem OperationDraft.leadsWithId_of_build {bundle : Bundle} {draft : OperationDraft}
    {operation : Operation} (hr : bundle.Rooted) (h : (draft.build bundle).result = .ok operation) :
    operation.set.LeadsWithId bundle := by
  obtain ⟨scope, set, hscope, hset, rfl⟩ := build_eq_ok h
  obtain ⟨hroot, -, -, rfl⟩ := scope_eq_ok hscope
  obtain ⟨hname, -, -, -, hprefix⟩ := freelyGrown_of_buildSet hset
  exact Scope.leadsWithId (hr.get?_root hroot) hname hprefix

namespace Decoder

variable {decoder : Decoder}

/-- What is decoded with the parts starts with the id, and so does all below it. -/
structure LedById (decoder : Decoder) (type : TypeDescriptor) (parts : List Part) : Prop where
  first : (Part.merged parts).LeadsWithId decoder.bundle
  below : Throughout (Selection.StartsWithId decoder.bundle) type parts

theorem ledById_singleton {type : TypeDescriptor} {part : Part}
    (h : part.set.LeadsWithId decoder.bundle)
    (hb : Selection.EverywhereAll (Selection.StartsWithId decoder.bundle) part.set.selections) :
    decoder.LedById type [part] := by
  refine ⟨?_, ?_⟩
  · rw [SelectionSet.LeadsWithId, Part.merged_singleton]
    exact h
  · rw [Throughout, Part.merged_singleton]
    exact hb

theorem passes_ledById (spot : Spot) : decoder.Passes decoder.LedById spot := by
  intro static parts entries name collected _ _ hled hj
  refine Shape.each_ofCollected (fun first more type hparts _ => ⟨?_, ?_⟩)
    fun type nodes nodeType htogether hnodes _ => ?_
  · have hmem : first ∈ collected.parts := by rw [hparts]; exact List.mem_cons_self
    obtain ⟨field, hfirst, -⟩ := Collected.everywhere_of_mem hled.below hj hmem
    rw [hparts]
    exact fun hg => (hfirst hg).trans (List.prefix_append _ _)
  · refine Part.everywhere_merged fun part hp => ?_
    obtain ⟨field, -, hinner⟩ := Collected.everywhere_of_mem hled.below hj hp
    exact hinner
  · obtain ⟨field, hfirst, hinner⟩ := Part.everywhere_nodes? htogether.below hnodes
    exact ledById_singleton hfirst hinner

variable {program : OperationDraft} {data : Json} {address : List Move}

/-- Objects of an operation that is built without raw selections are decoded with sets that start with
the id. -/
theorem follow?_ledById (hr : decoder.bundle.Rooted)
    (hf : ∀ fragment ∈ Step.fragmentsOfAll program.program, fragment.GuidedOver decoder.bundle)
    (hg : Step.allGuided program.program = true)
    (hb : (program.build decoder.bundle).result = .ok decoder.source.operation) {spot : Spot}
    (hs : decoder.follow? (decoder.root data) address = some spot) :
    spot.Each decoder.LedById decoder := by
  have hbelow := (Selection.given_startsWithId decoder.bundle).everywhere_of_build hf hg hb
  exact follow?_each (root_each data
    (ledById_singleton (OperationDraft.leadsWithId_of_build hr hb) hbelow))
    (fun _ spot' _ => passes_ledById spot') hs

/-- The id of an object at an address is the string that the response shows there under the key of the
id, if some field is selected under it. -/
theorem id?_eq {model : Model}
    (hm : (Decoded.object (decoder.decode data)).at? address = some (.object model)) :
    model.id? = (model.head.set.fieldOn? decoder.bundle model.type "id").bind fun _ =>
      (data.at? (address ++ [.key "id"])).bind Json.str? := by
  rw [at?_decode] at hm
  obtain ⟨spot, hfollow, hread⟩ := Option.map_eq_some_iff.1 hm
  obtain ⟨static, parts, entries, hshape, hjson, rfl⟩ := of_read_eq_object hread
  have hshown : data.at? (address ++ [.key "id"]) = Keyed.find? "id" entries := by
    rw [Json.at?_append]
    obtain hplaced | ⟨rfl, rfl, hnone⟩ := placed_or_root hfollow
    · rw [hplaced.json, hjson]
      rfl
    · -- data that is no object shows nothing, and the root is decoded from nothing
      obtain rfl : data.obj?.getD [] = entries := Json.obj.inj hjson
      rw [hnone]
      cases data <;> first | rfl | cases hnone
  rw [id?_object, hshown]
  change _ = ((Part.merged parts).fieldOn? decoder.bundle (decoder.concreteType static entries)
    "id").bind _
  rw [← Collected.field_find?_ofParts, Collected.find?_ofParts, Option.bind_map]
  rfl

/-- An anchor is an object of the response with an id. -/
theorem of_anchorAt? {anchor : NodeAnchor} (h : decoder.anchorAt? data address = some anchor) :
    ∃ model, (Decoded.object (decoder.decode data)).at? address = some (.object model) ∧
      model.type.implementsNode = true ∧ anchor.typeName = model.type.name ∧
      anchor.set = model.head.set ∧ data.at? (address ++ [.key "id"]) = some (.str anchor.id) := by
  unfold anchorAt? at h
  split at h
  · rename_i model entries hmodel hjson
    split at h
    · rename_i hnode
      obtain ⟨id, hid, rfl⟩ := Option.map_eq_some_iff.1 h
      obtain ⟨found, hfound, hstr⟩ := Option.bind_eq_some_iff.1 hid
      refine ⟨model, hmodel, hnode, rfl, rfl, ?_⟩
      rw [Json.at?_append, hjson]
      cases found <;> cases hstr
      exact hfound
    · cases h
  · cases h

/-- What is behind the id of an object at an address. -/
structure ShowsId (decoder : Decoder) (data : Json) (address : List Move) (model : Model) : Prop where
  /-- The id is the string that the response shows under its key, if a field is selected for it. -/
  shown : model.id? = (model.head.set.fieldOn? decoder.bundle model.type "id").bind fun _ =>
    (data.at? (address ++ [.key "id"])).bind Json.str?
  /-- On a type that gives an id the field is the id, whatever else is selected. -/
  given : decoder.bundle.givesId model.head.set.typeName = true →
    model.head.set.fieldOn? decoder.bundle model.type "id" = some (.plain "id")
  /-- On other types it is the id unless it is another field with an alias, or has arguments. -/
  elsewhere : ∀ field, model.head.set.fieldOn? decoder.bundle model.type "id" = some field →
    (field.IsId ↔ decoder.bundle.givesId model.head.set.typeName = true ∨
      (field.aliasName = none ∨ field.name = "id") ∧ field.arguments = [])
  /-- It is the id on all types if nothing else is selected under the key anywhere. -/
  kept : Selection.EverywhereAll Selection.KeepsId decoder.source.operation.set.selections →
    ∀ field, model.head.set.fieldOn? decoder.bundle model.type "id" = some field → field.IsId
  /-- The object is fetched again by this id. -/
  refetched : ∀ next, model.refetch = .ok next → ∃ id, model.id? = some id ∧
    FollowUp.fetch decoder.source none id model.head.set.typeName model.head.set [nodeFieldName] =
      .ok next

theorem showsId_of_led {model : Model} {spot : Spot}
    (hm : (Decoded.object (decoder.decode data)).at? address = some (.object model))
    (hs : decoder.follow? (decoder.root data) address = some spot)
    (hled : spot.Each decoder.LedById decoder) : decoder.ShowsId data address model := by
  have hread := hm
  rw [at?_decode, hs] at hread
  obtain ⟨static, parts, entries, hshape, -, rfl⟩ := of_read_eq_object (Option.some.inj hread)
  have hgiven := hled.shape
  rw [hshape] at hgiven
  refine ⟨id?_eq hm, hgiven.first.fieldOn?, fun field hfield => ⟨fun hid => ?_, ?_⟩,
    fun hkeeps field hfield => ?_, fun next hnext => Model.fetch_of_refetch hnext⟩
  · exact .inr ⟨.inr hid.name, hid.arguments⟩
  · rintro (hgives | ⟨hnone | hname, harguments⟩)
    · obtain rfl := Option.some.inj (hfield.symm.trans (hgiven.first.fieldOn? hgives))
      exact ⟨rfl, rfl⟩
    · obtain ⟨hkey, -⟩ := SelectionSet.mem_of_fieldOn? hfield
      rw [Field.responseKey, hnone] at hkey
      exact ⟨hkey, harguments⟩
    · exact ⟨hname, harguments⟩
  · obtain ⟨hkey, selection, hselected, hselection⟩ := SelectionSet.mem_of_fieldOn? hfield
    have hparts := (follow?_throughout hkeeps hs).shape
    rw [hshape] at hparts
    have hfields : Selection.EverywhereAll Selection.KeepsId (Selection.fieldsOnAll decoder.bundle
        (decoder.concreteType static entries) (Part.merged parts).selections) :=
      Selection.everywhere_fieldsOnAll hparts
    exact (Selection.everywhereAll_iff.1 hfields selection hselected).self field hselection hkey

/-- In an operation that is built without raw selections, the id of an object comes from the field `id`
wherever the type of its set gives an id, and elsewhere unless the first field under the key is another
one with an alias, or has arguments. An object is fetched again by its id, and a next page is fetched
from the object around it by the id that the response shows there. -/
theorem ids_of_build (hr : decoder.bundle.Rooted)
    (hf : ∀ fragment ∈ Step.fragmentsOfAll program.program, fragment.GuidedOver decoder.bundle)
    (hg : Step.allGuided program.program = true)
    (hb : (program.build decoder.bundle).result = .ok decoder.source.operation) :
    (∀ address model, (Decoded.object (decoder.decode data)).at? address = some (.object model) →
      decoder.ShowsId data address model) ∧
    ∀ address mark anchor,
      ((Decoded.object (decoder.decode data)).at? address).bind Decoded.mark? = some mark →
      mark.usableAnchor? = some anchor →
        (∃ above ∈ Move.around address, ∃ model,
          (Decoded.object (decoder.decode data)).at? above = some (.object model) ∧
          model.type.implementsNode = true ∧ anchor.typeName = model.type.name ∧
          anchor.set = model.head.set ∧ data.at? (above ++ [.key "id"]) = some (.str anchor.id)) ∧
        ∀ next, mark.nextPage = .ok next → ∃ kept,
          FollowUp.fetch decoder.source decoder.source.operation.name anchor.id anchor.typeName kept
            (nodeFieldName :: mark.path.drop anchor.depth) = .ok next := by
  refine ⟨fun address model hm => ?_, fun address mark anchor hm hu => ?_⟩
  · have hat := hm
    rw [at?_decode] at hat
    obtain ⟨spot, hs, -⟩ := Option.map_eq_some_iff.1 hat
    exact showsId_of_led hm hs (follow?_ledById hr hf hg hb hs)
  · obtain ⟨-, hanchor, hsource⟩ := mark?_placed hm
    refine ⟨?_, fun next hn => ?_⟩
    · have haround := hanchor.symm.trans (Option.eq_some_of_filter_eq_some hu)
      obtain ⟨above, habove, hat⟩ := List.exists_of_findSome?_eq_some haround
      exact ⟨above, habove, of_anchorAt? hat⟩
    · obtain ⟨kept, -, hfetch⟩ := PageMark.nextPage_of_anchored hu hn
      rw [hsource] at hfetch
      exact ⟨kept, hfetch⟩

end Decoder

/-- The shop is fetched again, and the next page of its products is fetched from it. -/
def pagedFetched : Bool :=
  match (Decoded.object (pagedDecoder.decode pagedData)).at? [.key "shop"],
    ((Decoded.object (pagedDecoder.decode pagedData)).at? [.key "shop", .key "products"]).bind
      Decoded.mark? with
  | some (.object model), some mark =>
    match mark.usableAnchor?, model.refetch, mark.nextPage with
    | some anchor, .ok _, .ok _ => decide (model.id? = some "s1" ∧
        sampleBundle.givesId model.head.set.typeName = true ∧ anchor.id = "s1" ∧
        anchor.typeName = "Shop" ∧ mark.path.drop anchor.depth = ["products"])
    | _, _, _ => false
  | _, _ => false

/-- Both queries fetch the shop by its id. -/
theorem paged_shop_id :
    ∃ model again mark next kept,
      (Decoded.object (pagedDecoder.decode pagedData)).at? [.key "shop"] = some (.object model) ∧
      model.head.set.fieldOn? sampleBundle model.type "id" = some (.plain "id") ∧
      pagedData.at? [.key "shop", .key "id"] = some (.str "s1") ∧
      model.refetch = .ok again ∧
      FollowUp.fetch pagedDecoder.source none "s1" model.head.set.typeName model.head.set
        [nodeFieldName] = .ok again ∧
      ((Decoded.object (pagedDecoder.decode pagedData)).at? [.key "shop", .key "products"]).bind
        Decoded.mark? = some mark ∧
      mark.nextPage = .ok next ∧
      FollowUp.fetch pagedDecoder.source pagedDecoder.source.operation.name "s1" "Shop" kept
        [nodeFieldName, "products"] = .ok next := by
  have h : pagedFetched = true := by decide +kernel
  unfold pagedFetched at h
  split at h
  · rename_i model mark hat hmark
    split at h
    · rename_i anchor again next hanchor hagain hnext
      obtain ⟨hid, hgives, hanchorId, htype, hpath⟩ := of_decide_eq_true h
      obtain ⟨hobjects, hmarks⟩ := @Decoder.ids_of_build pagedDecoder pagedDraft pagedData
        (BundleDraft.rooted_of_build sampleBundle_build)
        paged_guidedOver (by rfl) paged_built
      have hshop := hobjects _ _ hat
      obtain ⟨id, hid', hfetch⟩ := hshop.refetched again hagain
      obtain rfl := Option.some.inj (hid.symm.trans hid')
      obtain ⟨-, hpages⟩ := hmarks _ _ _ hmark hanchor
      obtain ⟨kept, hkept⟩ := hpages next hnext
      rw [hanchorId, htype, hpath] at hkept
      exact ⟨model, again, mark, next, kept, hat, hshop.given hgives, rfl, hagain, hfetch,
        hmark, hnext, hkept⟩
    · cases h
  · cases h

/-- What is found may be a product. -/
def foundBundle : Bundle :=
  let query := { sampleBundle.queryRoot with
    fields := ⟨"found", .named "Found", []⟩ :: sampleBundle.queryRoot.fields }
  { sampleBundle with
    queryRoot := query
    types := ⟨"Found", .union, [], ["Product"], false, []⟩ ::
      sampleBundle.types.map fun type => if type.name = "Query" then query else type }

/-- The title of a product comes under the key of its id. -/
def titledDraft : OperationDraft :=
  .ofProgram .query
    [.object "found" .none [.fragmentOn "Product" [.field "title" ⟨some "id", []⟩]]]

abbrev titledDecoder : Decoder := ⟨⟨foundBundle, titledDraft.built foundBundle, []⟩, none⟩

def titledData : Json :=
  .obj [("found", .obj [("__typename", .str "Product"), ("id", .str "Bowler")])]

def titledFetched : Bool :=
  match (Decoded.object (titledDecoder.decode titledData)).at? [.key "found"] with
  | some (.object model) =>
    match model.head.set.fieldOn? foundBundle model.type "id", model.refetch with
    | some field, .ok _ => decide (model.type.implementsNode = true ∧ model.id? = some "Bowler" ∧
        field.name = "title")
    | _, _ => false
  | _ => false

/-- The product is fetched by its title. -/
theorem titled_fetched_by_title :
    Step.allGuided titledDraft.program = true ∧ Step.fragmentsOfAll titledDraft.program = [] ∧
      (titledDraft.build foundBundle).result = .ok (titledDraft.built foundBundle) ∧
      ∃ model field next,
        (Decoded.object (titledDecoder.decode titledData)).at? [.key "found"] = some (.object model) ∧
        model.type.implementsNode = true ∧ model.id? = some "Bowler" ∧
        model.head.set.fieldOn? foundBundle model.type "id" = some field ∧ ¬ field.IsId ∧
        field.name = "title" ∧ model.refetch = .ok next ∧
        FollowUp.fetch model.source none "Bowler" model.head.set.typeName model.head.set
          [nodeFieldName] = .ok next := by
  have h : titledFetched = true := by decide +kernel
  unfold titledFetched at h
  split at h
  · rename_i model hat
    split at h
    · rename_i field next hfield hnext
      obtain ⟨hnode, hid, hname⟩ := of_decide_eq_true h
      obtain ⟨id, hid', hfetch⟩ := Model.fetch_of_refetch hnext
      obtain rfl := Option.some.inj (hid.symm.trans hid')
      refine ⟨rfl, rfl, OperationDraft.build_eq_built (by decide +kernel), model, field, next, hat,
        hnode, hid, hfield, fun his => ?_, hname, hnext, hfetch⟩
      exact absurd (hname.symm.trans his.name) (by decide)
    · cases h
  · cases h

end GraphQLClient
