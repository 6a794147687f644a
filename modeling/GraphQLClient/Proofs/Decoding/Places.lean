import GraphQLClient.Proofs.Decoding.Fields

set_option autoImplicit false

/-!
# Places in a response

An address leads from the root model to a value inside it, through fields, list items and nodes. The
same address leads through the data of the response, and the value there is read off the data and
the selections that stand for it: `at?_decode`.
-/

namespace GraphQLClient

inductive Move where
  | key (name : String)
  | item (index : Nat)
deriving DecidableEq

namespace Decoded

def move? : Decoded → Move → Option Decoded
  | .object model, .key name => model.get? name
  | .list items, .item index => items[index]?
  | .connection nodes _ _, .item index => nodes[index]?.map .object
  | _, _ => none

/-- The value that an address leads to. -/
def at? (decoded : Decoded) : List Move → Option Decoded
  | [] => some decoded
  | move :: rest => (decoded.move? move).bind (·.at? rest)

end Decoded

/-- The nodes of a connection that are objects, each with the cursor of its edge. -/
def Json.nodeObjects (entries : List (String × Json)) :
    List (Option String × List (String × Json)) :=
  (((Keyed.find? "edges" entries).bind Json.arr?).getD []).filterMap fun edge =>
    edge.obj?.bind fun edge => ((Keyed.find? "node" edge).bind Json.obj?).map fun node =>
      (PageInfo.text? edge "cursor", node)

/-- The `pageInfo` object of a connection has a value under a key. -/
def Json.PageHas (entries : List (String × Json)) (key : String) (value : Json) : Prop :=
  ∃ page, Keyed.find? "pageInfo" entries = some (.obj page) ∧ Keyed.find? key page = some value

namespace PageInfo

/-- What is told of a page is what its `pageInfo` object holds. -/
structure Tells (info : PageInfo) (entries : List (String × Json)) : Prop where
  hasNext : info.hasNext = true ↔ Json.PageHas entries "hasNextPage" (.bool true)
  hasPrevious : info.hasPrevious = true ↔ Json.PageHas entries "hasPreviousPage" (.bool true)
  startCursor (cursor : String) :
    info.startCursor = some cursor ↔ Json.PageHas entries "startCursor" (.str cursor)
  endCursor (cursor : String) :
    info.endCursor = some cursor ↔ Json.PageHas entries "endCursor" (.str cursor)

theorem flag_eq_true {entries : List (String × Json)} {key : String} :
    flag entries key = true ↔ Keyed.find? key entries = some (.bool true) := by
  unfold flag
  rcases Keyed.find? key entries with _ | _ | (_ | _) | _ <;> simp [Json.bool?]

theorem text?_eq_some {entries : List (String × Json)} {key text : String} :
    text? entries key = some text ↔ Keyed.find? key entries = some (.str text) := by
  unfold text?
  rcases Keyed.find? key entries with _ | _ | _ | _ | _ | _ | _ | _ <;> simp [Json.str?]

/-- Without a `pageInfo` object a page is read like one that has an empty one. -/
theorem find?_pageInfo {entries : List (String × Json)} {key : String} {value : Json} :
    Keyed.find? key (((Keyed.find? "pageInfo" entries).bind Json.obj?).getD []) = some value ↔
      Json.PageHas entries key value := by
  unfold Json.PageHas
  rcases Keyed.find? "pageInfo" entries with _ | _ | _ | _ | _ | _ | _ | page <;>
    simp [Json.obj?, Keyed.find?]

theorem tells_ofEntries (entries : List (String × Json)) : (ofEntries entries).Tells entries where
  hasNext := flag_eq_true.trans find?_pageInfo
  hasPrevious := flag_eq_true.trans find?_pageInfo
  startCursor _ := text?_eq_some.trans find?_pageInfo
  endCursor _ := text?_eq_some.trans find?_pageInfo

end PageInfo

theorem Json.sizeOf_find? {name : String} {entries : List (String × Json)} {json : Json}
    (h : Keyed.find? name entries = some json) : sizeOf json < sizeOf (Json.obj entries) := by
  have hlist : sizeOf json < sizeOf entries := by
    induction entries with
    | nil => cases h
    | cons entry rest ih =>
      obtain ⟨key, found⟩ := entry
      rw [Keyed.find?] at h
      split at h
      · obtain rfl := Option.some.inj h
        simp
        omega
      · have hrest := ih h
        simp
        omega
  simp
  omega

theorem Json.sizeOf_nodeObjects {entries : List (String × Json)}
    {found : Option String × List (String × Json)} (h : found ∈ Json.nodeObjects entries) :
    sizeOf (Json.obj found.2) < sizeOf (Json.obj entries) := by
  obtain ⟨edge, he, hn⟩ := List.mem_filterMap.1 h
  cases hlist : Keyed.find? "edges" entries with
  | none => simp [hlist] at he
  | some list =>
    have hsize := sizeOf_find? hlist
    rw [hlist] at he
    cases list with
    | arr items =>
      have hitem : sizeOf edge < sizeOf (Json.arr items) := by
        have hlt := List.sizeOf_lt_of_mem (show edge ∈ items from he)
        simp
        omega
      cases edge with
      | obj inner =>
        obtain ⟨node, hnode, rfl⟩ := Option.map_eq_some_iff.1 hn
        obtain ⟨json, hjson, hobj⟩ := Option.bind_eq_some_iff.1 hnode
        have hinner := sizeOf_find? hjson
        cases json with
        | obj entries =>
          obtain rfl := Option.some.inj hobj
          change sizeOf (Json.obj entries) < _
          omega
        | _ => cases hobj
      | _ => cases hn
    | _ => cases he

theorem Json.sizeOf_item {items : List Json} {item : Json} (h : item ∈ items) :
    sizeOf item < sizeOf (Json.arr items) := by
  have hlt := List.sizeOf_lt_of_mem h
  simp
  omega

/-- Looking a name up among the entries made from a list of things with distinct names. -/
theorem Keyed.find?_filterMap {α β : Type} (key : α → String) (value : α → Option β) (name : String)
    {entries : List α} (h : (entries.map key).Nodup) :
    Keyed.find? name (entries.filterMap fun entry => (value entry).map fun found => (key entry, found)) =
      (entries.find? (key · == name)).bind value := by
  induction entries with
  | nil => rfl
  | cons entry rest ih =>
    obtain ⟨hentry, hrest⟩ := List.nodup_cons.1 h
    rw [List.filterMap_cons, List.find?_cons]
    by_cases hk : key entry = name
    · have hnone : rest.find? (key · == name) = none := by
        rw [List.find?_eq_none]
        intro other ho he
        exact hentry (by rw [hk, ← (beq_iff_eq.1 he)]; exact List.mem_map_of_mem ho)
      cases hv : value entry with
      | none => simp [hk, hv, ih hrest, hnone]
      | some found => simp [hk, hv, Keyed.find?]
    · have hb : (key entry == name) = false := by simpa using hk
      cases hv : value entry with
      | none => simp [hb, ih hrest]
      | some found => simp [hb, hk, Keyed.find?, ih hrest]

/-- What a group is decoded as: nothing but its value, an object with all parts of the group, or a
connection with the nodes among them. -/
theorem Shape.ofCollected_cases (bundle : Bundle) (collected : Collected) :
    ofCollected bundle collected = .raw ∨
      ∃ first more type, collected.parts = first :: more ∧
        bundle.get? first.set.typeName = some type ∧
        (ofCollected bundle collected = .object type collected.parts ∨
          ∃ nodes nodeType, collected.field.connection = true ∧
            Part.nodes? collected.parts = some nodes ∧
            bundle.get? nodes.set.typeName = some nodeType ∧
            ofCollected bundle collected = .connection type collected.parts nodeType nodes) := by
  obtain ⟨field, parts⟩ := collected
  cases parts with
  | nil => exact .inl rfl
  | cons first more =>
    cases htype : bundle.get? first.set.typeName with
    | none => exact .inl (by simp only [ofCollected, htype])
    | some type =>
      refine .inr ⟨first, more, type, rfl, htype, ?_⟩
      simp only [ofCollected, htype]
      split
      · rename_i hc
        split
        · exact .inl rfl
        · rename_i nodes hnodes
          split
          · rename_i nodeType hn
            exact .inr ⟨nodes, nodeType, hc, hnodes, hn, rfl⟩
          · exact .inl rfl
      · exact .inl rfl

/-- A piece of data with all that it is decoded by. -/
structure Spot where
  shape : Shape
  position : Position
  mark : Option PageMark
  json : Json

namespace Decoder

variable (decoder : Decoder)

def object (static : TypeDescriptor) (parts : List Part) (mark : Option PageMark)
    (position : Position) (entries : List (String × Json)) : Model :=
  decoder.model static parts mark position entries fun key shape position =>
    decoder.valueOf key shape position entries

def read (spot : Spot) : Decoded :=
  match spot.shape, spot.json with
  | .object type parts, .obj entries =>
    .object (decoder.object type parts spot.mark spot.position entries)
  | shape, json => decoder.value shape spot.position json

def step? (spot : Spot) (move : Move) : Option Spot :=
  match spot.shape, spot.json, move with
  | .object static parts, .obj entries, .key name =>
    let type := decoder.concreteType static entries
    (Collected.joined ((Collected.fieldsOfParts decoder.bundle type parts).filter
      (·.key == name))).bind fun collected =>
        (Keyed.find? name entries).map fun json =>
          ⟨.ofCollected decoder.bundle collected,
            (enter spot.position type (Part.merged parts) entries).child name, none, json⟩
  | .connection _ _ type nodes, .obj entries, .item index =>
    (Json.nodeObjects entries)[index]?.map fun found =>
      ⟨.object type [nodes], spot.position,
        found.1.map (decoder.markAt spot.position (.ofEntries entries)), .obj found.2⟩
  | .object type parts, .arr items, .item index =>
    items[index]?.map fun json => ⟨.object type parts, spot.position, none, json⟩
  | .connection type parts _ _, .arr items, .item index =>
    items[index]?.map fun json => ⟨.object type parts, spot.position, none, json⟩
  | _, _, _ => none

def follow? (spot : Spot) : List Move → Option Spot
  | [] => some spot
  | move :: rest => (decoder.step? spot move).bind (follow? · rest)

def rootType : TypeDescriptor :=
  (decoder.bundle.get? decoder.source.operation.set.typeName).getD decoder.bundle.queryRoot

def root (data : Json) : Spot :=
  ⟨.object decoder.rootType [.ofOperation decoder.source.operation.set], .root, none,
    .obj (data.obj?.getD [])⟩

variable {decoder}

theorem valueOf_eq (key : String) (shape : Shape) (position : Position)
    (entries : List (String × Json)) :
    decoder.valueOf key shape position entries =
      (Keyed.find? key entries).map (decoder.value shape position) := by
  induction entries with
  | nil => rfl
  | cons entry rest ih =>
    rw [valueOf, Keyed.find?]
    split
    · rfl
    · exact ih

theorem items_eq (shape : Shape) (position : Position) (items : List Json) :
    decoder.items shape position items = items.map (decoder.value shape position) := by
  induction items with
  | nil => rfl
  | cons item rest ih => rw [Decoder.items, ih, List.map_cons]

/-- The model of a node and the cursor beside it. -/
def nodeModel (decoder : Decoder) (type : TypeDescriptor) (nodes : Part) (info : PageInfo)
    (position : Position) (found : Option String × List (String × Json)) : Option String × Model :=
  (found.1, decoder.object type [nodes] (found.1.map (decoder.markAt position info)) position found.2)

theorem edge_eq (type : TypeDescriptor) (nodes : Part) (info : PageInfo) (position : Position)
    (edge : Json) :
    decoder.edge type nodes info position edge =
      ((edge.obj?.bind fun edge => ((Keyed.find? "node" edge).bind Json.obj?).map fun node =>
        (PageInfo.text? edge "cursor", node)).map
          (decoder.nodeModel type nodes info position)).toList := by
  cases edge with
  | obj entries =>
    have hnode : ∀ (cursor : Option String) (entries : List (String × Json)),
        decoder.nodeOf type nodes info position cursor entries =
          ((((Keyed.find? "node" entries).bind Json.obj?).map fun node => (cursor, node)).map
            (decoder.nodeModel type nodes info position)).toList := by
      intro cursor entries
      induction entries with
      | nil => rfl
      | cons entry rest ih =>
        rw [nodeOf, Keyed.find?]
        split
        · cases entry.2 <;> rfl
        · exact ih
    exact hnode _ entries
  | _ => rfl

theorem edges_eq (type : TypeDescriptor) (nodes : Part) (info : PageInfo) (position : Position)
    (items : List Json) :
    decoder.edges type nodes info position items =
      (items.filterMap fun edge => edge.obj?.bind fun edge =>
        ((Keyed.find? "node" edge).bind Json.obj?).map fun node =>
          (PageInfo.text? edge "cursor", node)).map (decoder.nodeModel type nodes info position) := by
  induction items with
  | nil => rfl
  | cons item rest ih =>
    rw [edges, edge_eq, ih, List.filterMap_cons]
    cases item.obj?.bind fun edge => ((Keyed.find? "node" edge).bind Json.obj?).map fun node =>
      (PageInfo.text? edge "cursor", node) <;> rfl

theorem edgesOf_eq (type : TypeDescriptor) (nodes : Part) (info : PageInfo) (position : Position)
    (entries : List (String × Json)) :
    decoder.edgesOf type nodes info position entries =
      (Json.nodeObjects entries).map (decoder.nodeModel type nodes info position) := by
  unfold Json.nodeObjects
  induction entries with
  | nil => rfl
  | cons entry rest ih =>
    rw [edgesOf, Keyed.find?]
    split
    · cases entry.2 with
      | arr items => exact edges_eq _ _ _ _ _
      | _ => rfl
    · exact ih

theorem value_connection (type nodeType : TypeDescriptor) (parts : List Part) (nodes : Part)
    (position : Position) (entries : List (String × Json)) :
    let info := PageInfo.ofEntries entries
    let cursors := (Json.nodeObjects entries).filterMap (·.1)
    decoder.value (.connection type parts nodeType nodes) position (.obj entries) =
      .connection ((Json.nodeObjects entries).map fun found =>
          (decoder.nodeModel nodeType nodes info position found).2)
        (info.withCursors cursors) (cursors.getLast?.map (decoder.markAt position info)) := by
  intro info cursors
  rw [value, edgesOf_eq, connection, List.map_map, List.filterMap_map]
  rfl

theorem get?_object (static : TypeDescriptor) (parts : List Part) (mark : Option PageMark)
    (position : Position) (entries : List (String × Json)) (name : String) :
    (decoder.object static parts mark position entries).get? name =
      (Collected.joined ((Collected.fieldsOfParts decoder.bundle
        (decoder.concreteType static entries) parts).filter (·.key == name))).bind fun collected =>
          (Keyed.find? name entries).map
            (decoder.value (.ofCollected decoder.bundle collected)
              ((enter position (decoder.concreteType static entries) (Part.merged parts) entries).child
                name)) := by
  unfold object model
  change Keyed.find? name (List.filterMap _ _) = _
  rw [Keyed.find?_filterMap Collected.key _ name (Collected.nodup_keys_ofParts parts),
    Collected.find?_ofParts]
  cases hj : Collected.joined ((Collected.fieldsOfParts decoder.bundle
    (decoder.concreteType static entries) parts).filter (·.key == name)) with
  | none => rfl
  | some collected =>
    have hkey : collected.key = name := by
      rw [← Collected.find?_ofParts] at hj
      simpa using List.find?_some hj
    simp only [Option.bind_some, valueOf_eq, hkey]

theorem read_value (shape : Shape) (position : Position) (json : Json) :
    decoder.read ⟨shape, position, none, json⟩ = decoder.value shape position json := by
  cases shape <;> cases json <;> rfl

theorem move?_read (spot : Spot) (move : Move) :
    (decoder.read spot).move? move = (decoder.step? spot move).map decoder.read := by
  obtain ⟨shape, position, mark, json⟩ := spot
  cases shape with
  | raw => cases json <;> cases move <;> rfl
  | object static parts =>
    cases json with
    | obj entries =>
      cases move with
      | key name =>
        change (decoder.object static parts mark position entries).get? name = _
        rw [get?_object]
        simp only [step?]
        cases Collected.joined ((Collected.fieldsOfParts decoder.bundle
          (decoder.concreteType static entries) parts).filter (·.key == name)) <;>
          cases Keyed.find? name entries <;> simp [read_value]
      | item index => rfl
    | arr items =>
      cases move with
      | key name => rfl
      | item index =>
        change (decoder.items (.object static parts) position items)[index]? = _
        rw [items_eq, List.getElem?_map]
        simp only [step?]
        cases items[index]? <;> simp [read_value]
    | _ => cases move <;> rfl
  | connection type parts nodeType nodes =>
    cases json with
    | obj entries =>
      cases move with
      | key name => rfl
      | item index =>
        change (((decoder.edgesOf nodeType nodes _ position entries).map (·.2))[index]?).map _ = _
        rw [edgesOf_eq, List.map_map, List.getElem?_map]
        simp only [step?]
        cases (Json.nodeObjects entries)[index]? <;> rfl
    | arr items =>
      cases move with
      | key name => rfl
      | item index =>
        change (decoder.items (.object type parts) position items)[index]? = _
        rw [items_eq, List.getElem?_map]
        simp only [step?]
        cases items[index]? <;> simp [read_value]
    | _ => cases move <;> rfl

theorem step?_key {spot : Spot} {static : TypeDescriptor} {parts : List Part}
    {entries : List (String × Json)} (hs : spot.shape = .object static parts)
    (hj : spot.json = .obj entries) (name : String) :
    decoder.step? spot (.key name) =
      (Collected.joined ((Collected.fieldsOfParts decoder.bundle
        (decoder.concreteType static entries) parts).filter (·.key == name))).bind fun collected =>
          (Keyed.find? name entries).map fun json =>
            ⟨.ofCollected decoder.bundle collected,
              (enter spot.position (decoder.concreteType static entries) (Part.merged parts)
                entries).child name, none, json⟩ := by
  unfold step?
  rw [hs, hj]

theorem step?_item {spot : Spot} {type nodeType : TypeDescriptor} {parts : List Part} {nodes : Part}
    {entries : List (String × Json)} (hs : spot.shape = .connection type parts nodeType nodes)
    (hj : spot.json = .obj entries) (index : Nat) :
    decoder.step? spot (.item index) =
      (Json.nodeObjects entries)[index]?.map fun found =>
        ⟨.object nodeType [nodes], spot.position,
          found.1.map (decoder.markAt spot.position (.ofEntries entries)), .obj found.2⟩ := by
  unfold step?
  rw [hs, hj]

/-- The steps that there are: from an object to one of its fields, from a connection to one of its nodes,
and from a list to one of its items. -/
inductive Steps (decoder : Decoder) : Spot → Move → Spot → Prop where
  | field {static : TypeDescriptor} {parts : List Part} {position : Position} {mark : Option PageMark}
      {entries : List (String × Json)} {name : String} {collected : Collected} {json : Json}
      (joined : Collected.joined ((Collected.fieldsOfParts decoder.bundle
        (decoder.concreteType static entries) parts).filter (·.key == name)) = some collected)
      (found : Keyed.find? name entries = some json) :
      Steps decoder ⟨.object static parts, position, mark, .obj entries⟩ (.key name)
        ⟨.ofCollected decoder.bundle collected, (enter position (decoder.concreteType static entries)
          (Part.merged parts) entries).child name, none, json⟩
  | node {type nodeType : TypeDescriptor} {parts : List Part} {nodes : Part} {position : Position}
      {mark : Option PageMark} {entries : List (String × Json)} {index : Nat}
      {node : Option String × List (String × Json)}
      (found : (Json.nodeObjects entries)[index]? = some node) :
      Steps decoder ⟨.connection type parts nodeType nodes, position, mark, .obj entries⟩ (.item index)
        ⟨.object nodeType [nodes], position,
          node.1.map (decoder.markAt position (.ofEntries entries)), .obj node.2⟩
  | object {static : TypeDescriptor} {parts : List Part} {position : Position}
      {mark : Option PageMark} {items : List Json} {index : Nat} {json : Json}
      (found : items[index]? = some json) :
      Steps decoder ⟨.object static parts, position, mark, .arr items⟩ (.item index)
        ⟨.object static parts, position, none, json⟩
  | connection {type nodeType : TypeDescriptor} {parts : List Part} {nodes : Part}
      {position : Position} {mark : Option PageMark} {items : List Json} {index : Nat} {json : Json}
      (found : items[index]? = some json) :
      Steps decoder ⟨.connection type parts nodeType nodes, position, mark, .arr items⟩ (.item index)
        ⟨.object type parts, position, none, json⟩

theorem steps_of_step? {spot next : Spot} {move : Move} (h : decoder.step? spot move = some next) :
    decoder.Steps spot move next := by
  obtain ⟨shape, position, mark, json⟩ := spot
  cases shape with
  | raw => cases json <;> cases move <;> cases h
  | object static parts =>
    cases json with
    | obj entries =>
      cases move with
      | key name =>
        obtain ⟨collected, hj, h⟩ := Option.bind_eq_some_iff.1 h
        obtain ⟨json, hk, rfl⟩ := Option.map_eq_some_iff.1 h
        exact .field hj hk
      | item index => cases h
    | arr items =>
      cases move with
      | key name => cases h
      | item index =>
        obtain ⟨json, hi, rfl⟩ := Option.map_eq_some_iff.1 h
        exact .object hi
    | _ => cases move <;> cases h
  | connection type parts nodeType nodes =>
    cases json with
    | obj entries =>
      cases move with
      | key name => cases h
      | item index =>
        obtain ⟨found, hf, rfl⟩ := Option.map_eq_some_iff.1 h
        exact .node hf
    | arr items =>
      cases move with
      | key name => cases h
      | item index =>
        obtain ⟨json, hi, rfl⟩ := Option.map_eq_some_iff.1 h
        exact .connection hi
    | _ => cases move <;> cases h

theorem at?_read (spot : Spot) (address : List Move) :
    (decoder.read spot).at? address = (decoder.follow? spot address).map decoder.read := by
  induction address generalizing spot with
  | nil => rfl
  | cons move rest ih =>
    rw [Decoded.at?, follow?, move?_read]
    cases decoder.step? spot move with
    | none => rfl
    | some next => exact ih next

/-- What an address leads to in the decoded response is what is read where it leads to in the
data. -/
theorem at?_decode (data : Json) (address : List Move) :
    (Decoded.object (decoder.decode data)).at? address =
      (decoder.follow? (decoder.root data) address).map decoder.read :=
  at?_read (decoder.root data) address

end Decoder

end GraphQLClient
