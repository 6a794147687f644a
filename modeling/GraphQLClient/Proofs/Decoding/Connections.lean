import GraphQLClient.Proofs.Building.Validity
import GraphQLClient.Proofs.Decoding.Places

set_option autoImplicit false

/-!
# Nodes of repeated connections

When a connection is selected several times for one object, its nodes are decoded with the node
selections of the first occurrence. What only the others select is dropped without an error.
-/

namespace GraphQLClient

namespace Part

theorem findIn?_selection (key : String) (origin : Origin) (index : Nat)
    (selections : List Selection) :
    (findIn? key origin index selections).map Prod.snd =
      selections.find? (Selection.answers key) := by
  induction selections generalizing index with
  | nil => rfl
  | cons selection rest ih =>
    rw [findIn?, List.find?_cons]
    cases h : selection.answers key with
    | true => rfl
    | false => exact ih (index + 1)

theorem below?_cons {part : Part} {key : String} {set : SelectionSet} (more : List Part)
    (h : part.set.below? key = some set) :
    ∃ origin, below? (part :: more) key = some ⟨origin, set⟩ := by
  have hfind := findIn?_selection key part.origin 0 part.set.selections
  unfold SelectionSet.below? SelectionSet.find? at h
  rw [← hfind] at h
  cases hin : findIn? key part.origin 0 part.set.selections with
  | none => simp [hin] at h
  | some found =>
    refine ⟨found.1, ?_⟩
    have hset : found.2.fieldSet? = some set := by simpa [hin] using h
    simp [below?, hin, hset]

/-- The nodes of the first part are the nodes of the connection. -/
theorem nodes?_cons {part : Part} {set : SelectionSet} (more : List Part)
    (h : part.set.nodeSet? = some set) :
    ∃ origin, nodes? (part :: more) = some ⟨origin, set⟩ := by
  obtain ⟨edges, he, hn⟩ := Option.bind_eq_some_iff.1 h
  obtain ⟨origin, ho⟩ := below?_cons more he
  have hedges : (⟨origin, edges⟩ : Part).set.below? "node" = some set := hn
  obtain ⟨inner, hi⟩ := below?_cons [] hedges
  exact ⟨inner, by simp [nodes?, ho, hi]⟩

end Part

namespace Collected

theorem answers_selection (collected : Collected) (key : String) :
    collected.selection.answers key = (collected.key == key) := by
  unfold Collected.selection
  cases collected.parts.head? <;> rfl

theorem field?_selection (collected : Collected) :
    collected.selection.field? = some collected.field := by
  unfold Collected.selection
  cases collected.parts.head?.map (·.set) <;> rfl

theorem filter_selections (fields : List Collected) (key : String) :
    (fields.filter (·.key == key)).map Collected.selection =
      (fields.map Collected.selection).filter (Selection.answers key) := by
  rw [List.filter_map]
  congr 1
  exact List.filter_congr fun field _ => (answers_selection field key).symm

/-- A group whose first field is a connection starts with the set of that field. -/
theorem joined_of_connectionNodeSet? {fields : List Collected} {key : String} {first : Selection}
    {rest : List Selection} {set : SelectionSet}
    (hf : (fields.map Collected.selection).filter (Selection.answers key) = first :: rest)
    (hs : first.connectionNodeSet? = some set) :
    ∃ field part more, joined (fields.filter (·.key == key)) = some ⟨field, part :: more⟩ ∧
      part.set.nodeSet? = some set := by
  rw [← filter_selections] at hf
  obtain ⟨collected, others, hc, rfl, -⟩ := List.map_eq_cons_iff.1 hf
  obtain ⟨field, parts⟩ := collected
  cases parts with
  | nil => cases hs
  | cons part more =>
    have hparts : (⟨field, part :: more⟩ : Collected).parts = part :: more := rfl
    obtain ⟨more', hj⟩ := joined_head others hparts
    refine ⟨field, part, more', hc ▸ hj, ?_⟩
    change (if field.connection = true then part.set.nodeSet? else none) = some set at hs
    split at hs
    · exact hs
    · cases hs

end Collected

theorem Shape.nodes_of_ofCollected {bundle : Bundle} {collected : Collected}
    {type nodeType : TypeDescriptor} {parts : List Part} {nodes : Part}
    (h : ofCollected bundle collected = .connection type parts nodeType nodes) :
    Part.nodes? collected.parts = some nodes ∧ bundle.get? nodes.set.typeName = some nodeType := by
  obtain hraw | ⟨_, _, _, -, -, hobject | ⟨_, _, -, hnodes, hn, hconnection⟩⟩ :=
    ofCollected_cases bundle collected
  · cases hraw.symm.trans h
  · cases hobject.symm.trans h
  · cases hconnection.symm.trans h
    exact ⟨hnodes, hn⟩

namespace Decoder

variable {decoder : Decoder}

def dataAt? (decoder : Decoder) (data : Json) (address : List Move) : Option Json :=
  (decoder.follow? (decoder.root data) address).map (·.json)

theorem of_read_eq_object {spot : Spot} {model : Model} (h : decoder.read spot = .object model) :
    ∃ static parts entries, spot.shape = .object static parts ∧ spot.json = .obj entries ∧
      model = decoder.object static parts spot.mark spot.position entries := by
  obtain ⟨shape, position, mark, json⟩ := spot
  cases shape with
  | object static parts =>
    cases json with
    | obj entries => exact ⟨static, parts, entries, rfl, rfl, (Decoded.object.inj h).symm⟩
    | _ => cases h
  | _ => cases json <;> cases h

theorem of_read_eq_connection {spot : Spot} {nodes : List Model} {info : PageInfo}
    {mark : Option PageMark} (h : decoder.read spot = .connection nodes info mark) :
    ∃ type parts nodeType part entries, spot.shape = .connection type parts nodeType part ∧
      spot.json = .obj entries := by
  obtain ⟨shape, position, mark, json⟩ := spot
  cases shape with
  | connection type parts nodeType part =>
    cases json with
    | obj entries => exact ⟨type, parts, nodeType, part, entries, rfl, rfl⟩
    | _ => cases h
  | _ => cases json <;> cases h

theorem follow?_append (spot : Spot) (address more : List Move) :
    decoder.follow? spot (address ++ more) =
      (decoder.follow? spot address).bind (decoder.follow? · more) := by
  induction address generalizing spot with
  | nil => rfl
  | cons move rest ih =>
    rw [List.cons_append, follow?, follow?]
    cases decoder.step? spot move with
    | none => rfl
    | some next => exact ih next

/-- Whether a model holds a value for a key. -/
theorem isSome_get?_object (static : TypeDescriptor) (parts : List Part) (mark : Option PageMark)
    (position : Position) (entries : List (String × Json)) (name : String) :
    ((decoder.object static parts mark position entries).get? name).isSome = true ↔
      Keyed.contains name entries = true ∧
        ∃ field ∈ Selection.fieldsOnAll decoder.bundle (decoder.concreteType static entries)
          (Part.merged parts).selections, field.answers name = true := by
  rw [get?_object, ← Collected.selections_fieldsOfParts]
  have hany : (∃ field ∈ (Collected.fieldsOfParts decoder.bundle
      (decoder.concreteType static entries) parts).map Collected.selection,
      field.answers name = true) ↔
      (Collected.fieldsOfParts decoder.bundle (decoder.concreteType static entries) parts).filter
        (·.key == name) ≠ [] := by
    simp only [← List.any_eq_true, List.any_map, Function.comp_def, Collected.answers_selection]
    simp [List.filter_eq_nil_iff]
  rw [hany]
  unfold Keyed.contains
  cases (Collected.fieldsOfParts decoder.bundle (decoder.concreteType static entries) parts).filter
      (·.key == name) with
  | nil => simp [Collected.joined]
  | cons first rest =>
    cases Keyed.find? name entries <;> simp [Collected.joined]

/-- A node holds a value for exactly the keys of its data that the first occurrence of its connection
selects on its type. -/
theorem get?_node_isSome_iff {data : Json} {address : List Move} {model node : Model}
    {key name : String} {first : Selection} {rest : List Selection} {set : SelectionSet}
    {nodes : List Model} {info : PageInfo} {mark : Option PageMark} {index : Nat}
    {entries : List (String × Json)}
    (hm : (Decoded.object (decoder.decode data)).at? address = some (.object model))
    (hf : (Selection.fieldsOnAll decoder.bundle model.type model.head.set.selections).filter
      (Selection.answers key) = first :: rest)
    (hs : first.connectionNodeSet? = some set)
    (hc : model.get? key = some (.connection nodes info mark)) (hn : nodes[index]? = some node)
    (he : decoder.dataAt? data (address ++ [.key key, .item index]) = some (.obj entries)) :
    (node.get? name).isSome = true ↔
      Keyed.contains name entries = true ∧
        ∃ field ∈ Selection.fieldsOnAll decoder.bundle node.type set.selections,
          field.answers name = true := by
  rw [at?_decode] at hm
  obtain ⟨spot, hspot, hread⟩ := Option.map_eq_some_iff.1 hm
  have hmove : model.get? key = (decoder.step? spot (.key key)).map decoder.read := by
    rw [← move?_read, hread]
    rfl
  rw [hc] at hmove
  obtain ⟨next, hnext, hconnection⟩ := Option.map_eq_some_iff.1 hmove.symm
  have hitem : nodes[index]?.map .object = (decoder.step? next (.item index)).map decoder.read := by
    rw [← move?_read, hconnection]
    rfl
  obtain ⟨last, hlast, hdata⟩ : ∃ last, decoder.step? next (.item index) = some last ∧
      last.json = .obj entries := by
    simpa [dataAt?, follow?_append, hspot, follow?, hnext] using he
  rw [hn, hlast] at hitem
  obtain ⟨static, parts, outer, hshape, hjson, rfl⟩ := of_read_eq_object hread
  obtain ⟨type, _, nodeType, nodePart, inner, hnextShape, hnextJson⟩ :=
    of_read_eq_connection hconnection
  obtain ⟨field, part, more, hjoined, hpart⟩ := Collected.joined_of_connectionNodeSet?
    (Collected.selections_fieldsOfParts parts ▸ hf) hs
  have hnodes : nodePart.set = set := by
    change Collected.joined ((Collected.fieldsOfParts decoder.bundle
      (decoder.concreteType static outer) parts).filter (·.key == key)) = _ at hjoined
    rw [step?_key hshape hjson, hjoined] at hnext
    obtain ⟨json, -, rfl⟩ := Option.map_eq_some_iff.1 hnext
    have hcollected : Shape.ofCollected decoder.bundle ⟨field, part :: more⟩ = _ := hnextShape
    obtain ⟨hpick, -⟩ := Shape.nodes_of_ofCollected hcollected
    obtain ⟨origin, ho⟩ := Part.nodes?_cons more hpart
    rw [Option.some.inj (hpick.symm.trans ho)]
  obtain ⟨found, -, rfl⟩ : ∃ found, (Json.nodeObjects inner)[index]? = some found ∧
      last = ⟨.object nodeType [nodePart], next.position,
        found.1.map (decoder.markAt next.position (.ofEntries inner)), .obj found.2⟩ := by
    rw [step?_item hnextShape hnextJson] at hlast
    obtain ⟨found, hf, rfl⟩ := Option.map_eq_some_iff.1 hlast
    exact ⟨found, hf, rfl⟩
  obtain rfl := Json.obj.inj hdata
  obtain rfl : node = decoder.object nodeType [nodePart] _ _ _ :=
    Decoded.object.inj (Option.some.inj hitem)
  rw [isSome_get?_object]
  have hmerged : (Part.merged [nodePart]).selections = set.selections := by
    rw [← hnodes]
    exact List.append_nil _
  rw [hmerged]
  rfl

end Decoder

def repeatedDraft : OperationDraft :=
  .ofProgram .query
    [.object "shop" .none
      [.connection "products" ⟨none, [("first", .int 1)]⟩ [.field "title" .none],
       .fragmentOn "Shop"
         [.connection "products" ⟨none, [("first", .int 1)]⟩ [.field "handle" .none]]]]

def repeatedDecoder : Decoder := ⟨⟨sampleBundle, repeatedDraft.built sampleBundle, []⟩, none⟩

def repeatedData : Json :=
  .obj [("shop", .obj [("id", .str "s1"), ("products", .obj
    [("edges", .arr [.obj [("cursor", .str "c1"), ("node", .obj
        [("id", .str "p1"), ("title", .str "Bowler"), ("handle", .str "bowler")])]]),
     ("pageInfo", .obj [("hasNextPage", .bool false), ("hasPreviousPage", .bool false)])])])]

/-- The response has a handle for the first product, the second occurrence selects it, and the model
of the product lacks it. -/
def repeatedLoses : Bool :=
  match (Decoded.object (repeatedDecoder.decode repeatedData)).at? [.key "shop"] with
  | some (.object shop) =>
    match (Selection.fieldsOnAll repeatedDecoder.bundle shop.type
        shop.head.set.selections).filter (Selection.answers "products"),
      shop.get? "products",
      repeatedDecoder.dataAt? repeatedData ([.key "shop"] ++ [.key "products", .item 0]) with
    | [first, second], some (.connection [node] _ _), some (.obj entries) =>
      first.connectionNodeSet?.isSome && second.connectionNodeSet?.any fun set' =>
        Keyed.contains "handle" entries &&
          (Selection.fieldsOnAll repeatedDecoder.bundle node.type set'.selections).any
            (Selection.answers "handle") && (node.get? "handle").isNone
    | _, _, _ => false
  | _ => false

/-- The shop asks for products twice: for their titles, and for their handles. -/
theorem repeated_places :
    ∃ shop node first second set set' info mark entries,
      (Decoded.object (repeatedDecoder.decode repeatedData)).at? [.key "shop"] =
        some (.object shop) ∧
      (Selection.fieldsOnAll repeatedDecoder.bundle shop.type shop.head.set.selections).filter
        (Selection.answers "products") = [first, second] ∧
      first.connectionNodeSet? = some set ∧ second.connectionNodeSet? = some set' ∧
      shop.get? "products" = some (.connection [node] info mark) ∧
      repeatedDecoder.dataAt? repeatedData ([.key "shop"] ++ [.key "products", .item 0]) =
        some (.obj entries) ∧
      Keyed.contains "handle" entries = true ∧
      (Selection.fieldsOnAll repeatedDecoder.bundle node.type set'.selections).any
        (Selection.answers "handle") = true ∧
      (node.get? "handle").isNone = true := by
  have h : repeatedLoses = true := by decide +kernel
  unfold repeatedLoses at h
  split at h
  · rename_i shop hshop
    split at h
    · rename_i first second node info mark entries hfields hproducts hdata
      rw [Bool.and_eq_true, Option.any_eq_true] at h
      obtain ⟨hfirst, set', hsecond, h⟩ := h
      obtain ⟨set, hset⟩ := Option.isSome_iff_exists.1 hfirst
      simp only [Bool.and_eq_true] at h
      exact ⟨shop, node, first, second, set, set', info, mark, entries, hshop, hfields, hset,
        hsecond, hproducts, hdata, h.1.1, h.1.2, h.2⟩
    · cases h
  · cases h

/-- The handle that the second occurrence selects, and the response has, is lost. -/
theorem repeated_handle_lost :
    (repeatedDraft.build sampleBundle).result = .ok (repeatedDraft.built sampleBundle) ∧
      ∃ shop node occurrence set info mark, ∃ entries : List (String × Json),
        (Decoded.object (repeatedDecoder.decode repeatedData)).at? [.key "shop"] =
          some (.object shop) ∧
        occurrence ∈ (Selection.fieldsOnAll repeatedDecoder.bundle shop.type
          shop.head.set.selections).filter (Selection.answers "products") ∧
        occurrence.connectionNodeSet? = some set ∧
        shop.get? "products" = some (.connection [node] info mark) ∧
        repeatedDecoder.dataAt? repeatedData ([.key "shop"] ++ [.key "products", .item 0]) =
          some (.obj entries) ∧
        Keyed.contains "handle" entries = true ∧
        (∃ field ∈ Selection.fieldsOnAll repeatedDecoder.bundle node.type set.selections,
          field.answers "handle" = true) ∧
        node.get? "handle" = none := by
  refine ⟨OperationDraft.build_eq_built (by decide +kernel), ?_⟩
  obtain ⟨shop, node, first, second, _, set', info, mark, entries, hshop, hfields, _, hsecond,
    hproducts, hdata, hhas, hselects, hnone⟩ := repeated_places
  exact ⟨shop, node, second, set', info, mark, entries, hshop, by simp [hfields], hsecond,
    hproducts, hdata, hhas, List.any_eq_true.1 hselects, by simpa using hnone⟩

theorem repeated_node_isSome_iff :
    ∃ shop node first second set info mark, ∃ entries : List (String × Json),
      (Decoded.object (repeatedDecoder.decode repeatedData)).at? [.key "shop"] =
        some (.object shop) ∧
      (Selection.fieldsOnAll repeatedDecoder.bundle shop.type shop.head.set.selections).filter
        (Selection.answers "products") = [first, second] ∧
      first.connectionNodeSet? = some set ∧
      shop.get? "products" = some (.connection [node] info mark) ∧
      ((node.get? "handle").isSome = true ↔ Keyed.contains "handle" entries = true ∧
        ∃ field ∈ Selection.fieldsOnAll repeatedDecoder.bundle node.type set.selections,
          field.answers "handle" = true) := by
  obtain ⟨shop, node, first, second, set, _, info, mark, entries, hshop, hfields, hset, _,
    hproducts, hdata, -⟩ := repeated_places
  exact ⟨shop, node, first, second, set, info, mark, entries, hshop, hfields, hset, hproducts,
    Decoder.get?_node_isSome_iff hshop hfields hset hproducts rfl hdata⟩

end GraphQLClient
