import GraphQLClient.Proofs.Decoding.Groups
import GraphQLClient.Proofs.Decoding.Starts

set_option autoImplicit false

/-!
# Decoding as a projection

What an operation without connections asks for is a part of the data, and that part can be told without
parts, origins and merging: at every object keep the keys that some field answers to, and below such
a key go on with the selections of all its fields, one list after the other. `project` says so by
recursion on the data alone. The decoder gives just this part back, for all data, also where
it does not fit the selections: `json_decode`.
-/

namespace GraphQLClient

namespace Selection

/-- The type of an object: an abstract type gives way to the type that the object names, if it can be
that type. -/
def typeOf (bundle : Bundle) (static : TypeDescriptor) (entries : List (String × Json)) :
    TypeDescriptor :=
  if static.isAbstract then
    match ((Keyed.find? typenameField entries).bind Json.str?).bind bundle.get? with
    | some named => if static.canBe named.name then named else static
    | none => static
  else static

/-- What is selected below fields of one key: the type comes from the first of them, which may be a
leaf, and the selections from all. -/
def below? (bundle : Bundle) (fields : List Selection) : Option (TypeDescriptor × List Selection) :=
  ((fields.head?.bind fieldSet?).bind fun set => bundle.get? set.typeName).map fun type =>
    (type, fields.flatMap inner)

mutual
def project (bundle : Bundle) (static : TypeDescriptor) (selections : List Selection) : Json → Json
  | .obj entries =>
    let fields := fieldsOnAll bundle (typeOf bundle static entries) selections
    .obj <| (fields.filterMap key?).eraseDups.filterMap fun key =>
      (projectEntry bundle (fields.filter (answers key)) key entries).map fun found => (key, found)
  | .arr items => .arr (projectItems bundle static selections items)
  | other => other

def projectItems (bundle : Bundle) (static : TypeDescriptor) (selections : List Selection) :
    List Json → List Json
  | [] => []
  | item :: rest =>
    project bundle static selections item :: projectItems bundle static selections rest

def projectEntry (bundle : Bundle) (fields : List Selection) (key : String) :
    List (String × Json) → Option Json
  | [] => none
  | (name, item) :: rest =>
    if name = key then
      match below? bundle fields with
      | some (static, selections) => some (project bundle static selections item)
      | none => some item
    else projectEntry bundle fields key rest
end

def Unpaged (selection : Selection) : Prop :=
  ∀ field, selection.field? = some field → field.connection = false

instance : DecidablePred Unpaged := fun selection =>
  decidable_of_iff (∀ field ∈ selection.field?, field.connection = false) Iff.rfl

end Selection

mutual
/-- The data that a decoded value holds. -/
def Decoded.json : Decoded → Json
  | .null => .null
  | .scalar value => value
  | .object model => model.json
  | .list items => .arr (Decoded.jsonOfItems items)
  | .connection nodes _ _ => .arr (Model.jsonOfNodes nodes)

def Decoded.jsonOfItems : List Decoded → List Json
  | [] => []
  | item :: rest => item.json :: Decoded.jsonOfItems rest

def Model.json : Model → Json
  | .mk _ values => .obj (Model.jsonOfValues values)

def Model.jsonOfValues : List (String × Decoded) → List (String × Json)
  | [] => []
  | (key, value) :: rest => (key, value.json) :: Model.jsonOfValues rest

def Model.jsonOfNodes : List Model → List Json
  | [] => []
  | node :: rest => node.json :: Model.jsonOfNodes rest
end

theorem Decoded.jsonOfItems_eq (items : List Decoded) : jsonOfItems items = items.map json := by
  induction items with
  | nil => rfl
  | cons item rest ih => rw [jsonOfItems, ih, List.map_cons]

theorem Model.jsonOfValues_eq (values : List (String × Decoded)) :
    jsonOfValues values = values.map fun entry => (entry.1, entry.2.json) := by
  induction values with
  | nil => rfl
  | cons entry rest ih => rw [jsonOfValues, ih, List.map_cons]

namespace Selection

variable {bundle : Bundle}

theorem everywhereAll_inner {P : Selection → Prop} {selections : List Selection}
    (h : EverywhereAll P selections) : EverywhereAll P (selections.flatMap inner) := by
  rw [everywhereAll_iff] at h ⊢
  intro selection hs
  obtain ⟨outer, ho, hs⟩ := List.mem_flatMap.1 hs
  cases outer with
  | composite field typeName selections => exact everywhereAll_iff.1 (h _ ho).2 selection hs
  | _ => cases hs

theorem everywhereAll_filter {P : Selection → Prop} {selections : List Selection}
    (h : EverywhereAll P selections) (keep : Selection → Bool) :
    EverywhereAll P (selections.filter keep) := by
  rw [everywhereAll_iff] at h ⊢
  exact fun selection hs => h selection (List.mem_filter.1 hs).1

theorem projectItems_eq (static : TypeDescriptor) (selections : List Selection) (items : List Json) :
    projectItems bundle static selections items = items.map (project bundle static selections) := by
  induction items with
  | nil => rfl
  | cons item rest ih => rw [projectItems, ih, List.map_cons]

theorem projectEntry_eq (fields : List Selection) (key : String) (entries : List (String × Json)) :
    projectEntry bundle fields key entries = (Keyed.find? key entries).map fun item =>
      match below? bundle fields with
      | some (static, selections) => project bundle static selections item
      | none => item := by
  induction entries with
  | nil => rfl
  | cons entry rest ih =>
    rw [projectEntry, Keyed.find?]
    split
    · cases below? bundle fields <;> rfl
    · exact ih

end Selection

/-- The shape reads a value with what is selected there: a type and a list of selections, or nothing
for a leaf. -/
inductive Shape.Shows (set : SelectionSet) (table : Nat → Option SelectionSet) :
    Shape → Option (TypeDescriptor × List Selection) → Prop
  | raw : Shows set table .raw none
  | object {static : TypeDescriptor} {parts : List Part} {selections : List Selection}
      (stand : Part.StandFor set table parts selections)
      (unpaged : Selection.EverywhereAll Selection.Unpaged selections) :
      Shows set table (.object static parts) (some (static, selections))

variable {set : SelectionSet} {table : Nat → Option SelectionSet}

theorem Shape.shows_ofCollected (bundle : Bundle) {collected : Collected} {fields : List Selection}
    (h : collected.StandsFor set table fields)
    (hu : Selection.EverywhereAll Selection.Unpaged fields) :
    (ofCollected bundle collected).Shows set table (Selection.below? bundle fields) := by
  obtain ⟨field, parts⟩ := collected
  have hhead := h.head
  cases parts with
  | nil =>
    rw [Selection.below?, hhead]
    exact .raw
  | cons first more =>
    have hbelow : Selection.below? bundle fields = (bundle.get? first.set.typeName).map
        fun type => (type, fields.flatMap Selection.inner) := by
      rw [Selection.below?, hhead]
      rfl
    rw [hbelow]
    simp only [ofCollected]
    cases bundle.get? first.set.typeName with
    | none => exact .raw
    | some type =>
      have hc : field.connection = false :=
        (Selection.everywhereAll_iff.1 hu _ (List.mem_of_head? hhead)).self field rfl
      rw [show (⟨field, first :: more⟩ : Collected).field.connection = false from hc]
      exact .object (h.below (List.cons_ne_nil _ _)) (Selection.everywhereAll_inner hu)

namespace Decoder

variable {decoder : Decoder}

/-- An object is projected, as soon as the values under its keys are. -/
theorem json_object {static : TypeDescriptor} {parts : List Part} {selections : List Selection}
    (hp : Part.StandFor set table parts selections)
    (hu : Selection.EverywhereAll Selection.Unpaged selections) (mark : Option PageMark)
    (position : Position) {entries : List (String × Json)}
    (hv : ∀ key json, Keyed.find? key entries = some json → ∀ shape shown position,
      shape.Shows set table shown → (decoder.value shape position json).json =
        match shown with
        | some (static, selections) => Selection.project decoder.bundle static selections json
        | none => json) :
    (decoder.object static parts mark position entries).json =
      Selection.project decoder.bundle static selections (.obj entries) := by
  have htype : Selection.typeOf decoder.bundle static entries = decoder.concreteType static entries :=
    rfl
  unfold object model
  rw [Model.json, Model.jsonOfValues_eq, Selection.project, htype, ← Collected.keys_of_standFor hp,
    List.filterMap_map, List.map_filterMap]
  refine congrArg Json.obj (List.filterMap_congr fun collected hc => ?_)
  have hshows := Shape.shows_ofCollected decoder.bundle (Collected.standsFor_of_mem hp hc)
    (Selection.everywhereAll_filter (Selection.everywhere_fieldsOnAll hu) _)
  change ((decoder.valueOf collected.key (.ofCollected decoder.bundle collected) _ entries).map
      _).map _ = (Selection.projectEntry decoder.bundle _ collected.key entries).map _
  rw [valueOf_eq, Selection.projectEntry_eq, Option.map_map, Option.map_map, Option.map_map]
  cases hj : Keyed.find? collected.key entries with
  | none => rfl
  | some json => exact congrArg (fun found => some (collected.key, found)) (hv _ json hj _ _ _ hshows)

theorem json_value (json : Json) : ∀ shape shown position, shape.Shows set table shown →
    (decoder.value shape position json).json =
      match shown with
      | some (static, selections) => Selection.project decoder.bundle static selections json
      | none => json := by
  intro shape shown position h
  cases h with
  | raw => cases json <;> rfl
  | @object static parts selections hp hu =>
    cases json with
    | obj entries =>
      refine json_object hp hu none position fun key json hj => ?_
      have hsize := Json.sizeOf_find? hj
      exact json_value json
    | arr items =>
      change (Decoded.list (decoder.items (.object static parts) position items)).json =
        .arr (Selection.projectItems decoder.bundle static selections items)
      rw [Decoded.json, Decoded.jsonOfItems_eq, items_eq, List.map_map, Selection.projectItems_eq]
      refine congrArg Json.arr (List.map_congr_left fun item hm => ?_)
      have hsize := Json.sizeOf_item hm
      exact json_value item _ _ _ (.object hp hu)
    | _ => rfl
termination_by sizeOf json
decreasing_by all_goals omega

/-- Decoding for an operation without connections gives the part of the data that it asks for. -/
theorem json_decode {draft : BundleDraft} {fragments : List Fragment}
    (hb : draft.build = .ok decoder.bundle)
    (ho : decoder.source.operation.Drafted decoder.bundle fragments)
    (hu : Selection.EverywhereAll Selection.Unpaged decoder.source.operation.set.selections)
    (data : Json) :
    ∃ root, OperationDraft.root? decoder.bundle decoder.source.operation.kind = .ok root ∧
      (decoder.decode data).json = Selection.project decoder.bundle root
        decoder.source.operation.set.selections (.obj (data.obj?.getD [])) := by
  obtain ⟨root, hroot, hname⟩ := ho.root
  refine ⟨root, hroot, ?_⟩
  have htype : decoder.rootType = root :=
    rootType_eq ((BundleDraft.rooted_of_build hb).get?_root hroot) hname
  have hplaced : (Part.ofOperation decoder.source.operation.set).Placed
      decoder.source.operation.set (Fragment.table fragments) := ⟨rfl, ho.registered⟩
  rw [← htype]
  exact json_object hplaced.standFor hu none .root fun _ json _ => json_value json

end Decoder

theorem sampleFragment_issued : sampleBundle.Issues [sampleFragment] :=
  .snoc .nil (.empty sampleBundle) 0 ⟨"Title", "Product", [.field "title" .none]⟩ rfl
    (fun _ h => absurd h List.not_mem_nil) (by simp [Step.fragmentsOfAll, Step.fragments])
    sampleFragment_built

/-- One product, asked for twice, with the same fragment. -/
def overlappingDraft : OperationDraft :=
  .ofProgram .query
    [.object "node" ⟨none, [("id", .string "p1")]⟩
      [.fragmentOn "Product" [.field "handle" .none], .spread sampleFragment],
     .fragmentOn "Query"
      [.object "node" ⟨none, [("id", .string "p1")]⟩ [.spread sampleFragment]]]

abbrev overlappingDecoder : Decoder :=
  ⟨⟨sampleBundle, overlappingDraft.built sampleBundle, []⟩, none⟩

def overlappingData : Json :=
  .obj [("shop", .null), ("node", .obj [("__typename", .str "Product"), ("title", .arr [.int 1, .null]),
    ("price", .int 3), ("id", .str "p1"), ("handle", .obj [])])]

theorem overlapping_drafted :
    (overlappingDraft.built sampleBundle).Drafted sampleBundle [sampleFragment] := by
  refine ⟨sampleFragment_issued, overlappingDraft, fun fragment hf => ?_,
    OperationDraft.build_eq_built (by decide +kernel)⟩
  simpa [overlappingDraft, OperationDraft.ofProgram, Step.fragmentsOfAll, Step.fragments] using hf

theorem overlapping_projected :
    ∃ root, OperationDraft.root? sampleBundle .query = .ok root ∧
      (overlappingDecoder.decode overlappingData).json = Selection.project sampleBundle root
        (overlappingDraft.built sampleBundle).set.selections overlappingData ∧
      ((overlappingDecoder.decode overlappingData).json.obj?.bind fun entries =>
        ((Keyed.find? "node" entries).bind Json.obj?).map Keyed.names) =
          some ["id", "__typename", "handle", "title"] := by
  obtain ⟨root, hroot, hjson⟩ := @Decoder.json_decode overlappingDecoder _ _
    sampleBundle_build overlapping_drafted (by decide +kernel) overlappingData
  have hkind : (overlappingDraft.built sampleBundle).kind = .query := by decide +kernel
  exact ⟨root, hkind ▸ hroot, hjson, by decide +kernel⟩

end GraphQLClient
