import GraphQLClient.Proofs.Building.Validity
import GraphQLClient.Proofs.Decoding.Provenance
import Mathlib.Data.List.Infix

set_option autoImplicit false

/-!
# Where page marks stand

The mark of a connection, and that of each of its nodes, tell where the connection sits in the
response: the keys that lead there, and the nearest object around it that can be fetched again. Both
are read off the address of the connection here, without following the decoder.
-/

namespace GraphQLClient

def Move.key? : Move → Option String
  | .key name => some name
  | .item _ => none

/-- The response keys of an address; list items and nodes have none. -/
def Move.keys (address : List Move) : List String := address.filterMap Move.key?

/-- The addresses of all that is around an address, the nearest first. -/
def Move.around (address : List Move) : List (List Move) := address.inits.dropLast.reverse

theorem Move.around_append (address : List Move) (move : Move) :
    around (address ++ [move]) = address :: around address := by
  have hlast : address.inits = address.inits.dropLast ++ [address] := by
    cases address using List.reverseRecOn with
    | nil => rfl
    | append_singleton before last => simp [List.inits_append]
  have happend : (address ++ [move]).inits = address.inits ++ [address ++ [move]] := by
    simp [List.inits_append]
  rw [around, happend, List.dropLast_concat, hlast, List.reverse_append, around]
  rfl

namespace Json

def move? : Json → Move → Option Json
  | .obj entries, .key name => Keyed.find? name entries
  | .obj entries, .item index => (nodeObjects entries)[index]?.map fun found => .obj found.2
  | .arr items, .item index => items[index]?
  | _, _ => none

/-- The data that an address leads to. -/
def at? (json : Json) : List Move → Option Json
  | [] => some json
  | move :: rest => (json.move? move).bind (·.at? rest)

theorem at?_append (json : Json) (address : List Move) (move : Move) :
    json.at? (address ++ [move]) = (json.at? address).bind (·.move? move) := by
  induction address generalizing json with
  | nil =>
    rw [List.nil_append, at?, at?, Option.bind_some]
    cases json.move? move <;> rfl
  | cons first rest ih =>
    rw [List.cons_append, at?, at?]
    cases json.move? first with
    | none => rfl
    | some inner => exact ih inner

end Json

namespace Decoder

/-- The object at an address as an anchor, if its type can be fetched again and it has an id. -/
def anchorAt? (decoder : Decoder) (data : Json) (address : List Move) : Option NodeAnchor :=
  match (Decoded.object (decoder.decode data)).at? address, data.at? address with
  | some (.object model), some (.obj entries) =>
    if model.type.implementsNode then
      ((Keyed.find? "id" entries).bind Json.str?).map fun id =>
        ⟨id, model.type.name, model.head.set, (Move.keys address).length⟩
    else none
  | _, _ => none

/-- The nearest anchor around an address. -/
def anchorAround? (decoder : Decoder) (data : Json) (address : List Move) : Option NodeAnchor :=
  (Move.around address).findSome? (decoder.anchorAt? data)

variable {decoder : Decoder} {data : Json}

theorem anchorAround?_append (address : List Move) (move : Move) :
    decoder.anchorAround? data (address ++ [move]) =
      (decoder.anchorAt? data address).or (decoder.anchorAround? data address) := by
  rw [anchorAround?, Move.around_append, List.findSome?_cons]
  cases decoder.anchorAt? data address <;> rfl

/-- A place tells its own address. -/
structure Placed (decoder : Decoder) (data : Json) (address : List Move) (spot : Spot) : Prop where
  json : data.at? address = some spot.json
  path : spot.position.path = Move.keys address
  anchor : spot.position.anchor = decoder.anchorAround? data address

theorem step?_json {spot next : Spot} {move : Move} (h : decoder.step? spot move = some next) :
    spot.json.move? move = some next.json := by
  cases steps_of_step? h with
  | field _ hfound => exact hfound
  | node hfound => exact Option.map_eq_some_iff.2 ⟨_, hfound, rfl⟩
  | object hfound => exact hfound
  | connection hfound => exact hfound

/-- A list item or a node stands at the position of its list or connection, which is no object; a field
stands one key further, below its object. -/
theorem step?_position {spot next : Spot} {move : Move} (h : decoder.step? spot move = some next) :
    (∃ static parts entries name, spot.shape = .object static parts ∧ spot.json = .obj entries ∧
      move = .key name ∧ next.position = (enter spot.position (decoder.concreteType static entries)
        (Part.merged parts) entries).child name) ∨
    ((∀ model, decoder.read spot ≠ .object model) ∧ (∃ index, move = .item index) ∧
      next.position = spot.position) := by
  cases steps_of_step? h with
  | field _ _ => exact .inl ⟨_, _, _, _, rfl, rfl, rfl, rfl⟩
  | node _ => exact .inr ⟨fun model hm => (nomatch hm), ⟨_, rfl⟩, rfl⟩
  | object _ => exact .inr ⟨fun model hm => (nomatch hm), ⟨_, rfl⟩, rfl⟩
  | connection _ => exact .inr ⟨fun model hm => (nomatch hm), ⟨_, rfl⟩, rfl⟩

theorem anchorAt?_of_not_object {address : List Move} {spot : Spot}
    (hf : decoder.follow? (decoder.root data) address = some spot)
    (h : ∀ model, decoder.read spot ≠ .object model) : decoder.anchorAt? data address = none := by
  unfold anchorAt?
  rw [at?_decode, hf, Option.map_some]
  split
  · rename_i model _ hm _
    exact absurd (Option.some.inj hm) (h model)
  · rfl

/-- An object is the anchor below it, or leaves the one around it. -/
theorem anchor_enter {address : List Move} {spot : Spot} {static : TypeDescriptor}
    {parts : List Part} {entries : List (String × Json)}
    (hf : decoder.follow? (decoder.root data) address = some spot)
    (hp : decoder.Placed data address spot) (hs : spot.shape = .object static parts)
    (hj : spot.json = .obj entries) :
    (enter spot.position (decoder.concreteType static entries) (Part.merged parts) entries).anchor =
      (decoder.anchorAt? data address).or spot.position.anchor := by
  have hread : decoder.read spot =
      .object (decoder.object static parts spot.mark spot.position entries) := by
    unfold read
    rw [hs, hj]
  have hat : decoder.anchorAt? data address =
      if (decoder.concreteType static entries).implementsNode then
        ((Keyed.find? "id" entries).bind Json.str?).map fun id =>
          ⟨id, (decoder.concreteType static entries).name, Part.merged parts,
            spot.position.path.length⟩
      else none := by
    unfold anchorAt?
    rw [at?_decode, hf, Option.map_some, hread, hp.json, hj, hp.path]
    rfl
  rw [hat, enter]
  split
  · cases (Keyed.find? "id" entries).bind Json.str? <;> rfl
  · rfl

/-- One move more. -/
theorem Placed.step {address : List Move} {spot next : Spot} {move : Move}
    (h : decoder.Placed data address spot)
    (hf : decoder.follow? (decoder.root data) address = some spot)
    (hs : decoder.step? spot move = some next) : decoder.Placed data (address ++ [move]) next := by
  have hjson : data.at? (address ++ [move]) = some next.json := by
    rw [Json.at?_append, h.json]
    exact step?_json hs
  obtain ⟨static, parts, entries, name, hshape, hj, rfl, hposition⟩ | ⟨hnot, ⟨index, rfl⟩, hposition⟩ :=
    step?_position hs
  · refine ⟨hjson, ?_, ?_⟩
    · rw [hposition, path_enter_child, h.path, Move.keys, Move.keys, List.filterMap_append]
      rfl
    · rw [hposition, anchorAround?_append, ← h.anchor]
      exact anchor_enter hf h hshape hj
  · refine ⟨hjson, ?_, ?_⟩
    · rw [hposition, h.path, Move.keys, Move.keys, List.filterMap_append]
      exact (List.append_nil _).symm
    · rw [hposition, anchorAround?_append, anchorAt?_of_not_object hf hnot, h.anchor]
      rfl

/-- Whatever is reached in a response knows where it stands. -/
theorem placed_follow? {entries : List (String × Json)} {address : List Move} {spot : Spot}
    (hs : decoder.follow? (decoder.root (.obj entries)) address = some spot) :
    decoder.Placed (.obj entries) address spot := by
  induction address using List.reverseRecOn generalizing spot with
  | nil =>
    obtain rfl := Option.some.inj hs
    exact ⟨rfl, rfl, rfl⟩
  | append_singleton address move ih =>
    rw [follow?_append] at hs
    obtain ⟨between, hb, hs⟩ := Option.bind_eq_some_iff.1 hs
    obtain ⟨next, hn, hs⟩ := Option.bind_eq_some_iff.1 hs
    obtain rfl := Option.some.inj hs
    exact (ih hb).step hb hn

/-- Data that is no object holds nothing but the root. -/
theorem follow?_of_obj?_eq_none (h : data.obj? = none) (move : Move) (rest : List Move) :
    decoder.follow? (decoder.root data) (move :: rest) = none := by
  cases move with
  | item index => rfl
  | key name =>
    rw [follow?, step?_key rfl rfl, h]
    simp [Keyed.find?]

/-- What is reached in data that is no object is the empty root. -/
theorem placed_or_root {address : List Move} {spot : Spot}
    (hs : decoder.follow? (decoder.root data) address = some spot) :
    decoder.Placed data address spot ∨
      (address = [] ∧ spot = decoder.root data ∧ data.obj? = none) := by
  cases data with
  | obj entries => exact .inl (placed_follow? hs)
  | _ =>
    cases address with
    | nil => exact .inr ⟨rfl, (Option.some.inj hs).symm, rfl⟩
    | cons move rest =>
      rw [follow?_of_obj?_eq_none rfl] at hs
      cases hs

/-- What is reached has no mark but that of its place. -/
theorem follow?_marked {address : List Move} {spot : Spot}
    (hs : decoder.follow? (decoder.root data) address = some spot) :
    spot.Each (fun _ _ => True) decoder :=
  follow?_each (root_each data trivial) (fun _ _ _ _ _ _ _ _ _ _ _ _ =>
    Shape.each_ofCollected (fun _ _ _ _ _ => trivial) fun _ _ _ _ _ _ => trivial) hs

/-- A connection in a decoded response is read at a place that knows where it stands. -/
theorem placed_connection {address : List Move} {nodes : List Model} {info : PageInfo}
    {mark : Option PageMark}
    (h : (Decoded.object (decoder.decode data)).at? address = some (.connection nodes info mark)) :
    ∃ spot, decoder.Placed data address spot ∧ spot.Each (fun _ _ => True) decoder ∧
      decoder.read spot = .connection nodes info mark := by
  rw [at?_decode] at h
  obtain ⟨spot, hspot, hread⟩ := Option.map_eq_some_iff.1 h
  obtain hplaced | ⟨-, rfl, -⟩ := placed_or_root hspot
  · exact ⟨spot, hplaced, follow?_marked hspot, hread⟩
  · cases hread

/-- A mark at an address tells where it stands. -/
theorem mark?_placed {address : List Move} {mark : PageMark}
    (hm : ((Decoded.object (decoder.decode data)).at? address).bind Decoded.mark? = some mark) :
    mark.path = Move.keys address ∧ mark.anchor = decoder.anchorAround? data address ∧
      mark.source = decoder.source := by
  obtain ⟨found, hfound, hmark⟩ := Option.bind_eq_some_iff.1 hm
  rw [at?_decode] at hfound
  obtain ⟨spot, hspot, rfl⟩ := Option.map_eq_some_iff.1 hfound
  obtain hplaced | ⟨-, rfl, -⟩ := placed_or_root hspot
  · obtain ⟨hpath, hanchor, hsource⟩ := mark?_read (follow?_marked hspot) hmark
    exact ⟨hpath.trans hplaced.path, hanchor.trans hplaced.anchor, hsource⟩
  · cases hmark

/-- What a connection is decoded into. -/
theorem connection_of_read {spot : Spot} {nodes : List Model} {info : PageInfo}
    {mark : Option PageMark} (h : decoder.read spot = .connection nodes info mark) :
    ∃ nodeType part entries, spot.json = .obj entries ∧
      nodes = (Json.nodeObjects entries).map (fun found =>
        (decoder.nodeModel nodeType part (.ofEntries entries) spot.position found).2) ∧
      info = (PageInfo.ofEntries entries).withCursors
        ((Json.nodeObjects entries).filterMap (·.1)) ∧
      mark = ((Json.nodeObjects entries).filterMap (·.1)).getLast?.map
        (decoder.markAt spot.position (.ofEntries entries)) := by
  obtain ⟨type, parts, nodeType, part, entries, hshape, hjson⟩ := of_read_eq_connection h
  obtain ⟨shape, position, own, json⟩ := spot
  obtain rfl : shape = _ := hshape
  obtain rfl : json = _ := hjson
  have hvalue : decoder.value (.connection type parts nodeType part) position (.obj entries) =
    .connection nodes info mark := h
  rw [value_connection] at hvalue
  obtain ⟨hnodes, hinfo, hmark⟩ := Decoded.connection.inj hvalue
  exact ⟨nodeType, part, entries, rfl, hnodes.symm, hinfo.symm, hmark.symm⟩

/-- The mark for a cursor of the connection at an address. -/
def markOf (decoder : Decoder) (data : Json) (address : List Move) (info : PageInfo)
    (cursor : String) : PageMark :=
  ⟨cursor, info.hasNext, info.hasPrevious, Move.keys address, decoder.anchorAround? data address,
    decoder.source⟩

/-- How a connection sits at an address of a response. -/
structure Sits (decoder : Decoder) (data : Json) (address : List Move) (nodes : List Model)
    (info : PageInfo) (mark : Option PageMark) (entries : List (String × Json)) : Prop where
  json : data.at? address = some (.obj entries)
  /-- The nodes are the models of the edges that are objects with an object for a node. -/
  models : ∃ nodeType part, nodes = (Json.nodeObjects entries).map fun found =>
    decoder.object nodeType [part] (found.1.map (decoder.markOf data address info))
      ⟨Move.keys address, decoder.anchorAround? data address⟩ found.2
  /-- A node has a mark if its edge has a cursor. -/
  marks : nodes.map (·.head.mark) =
    (Json.nodeObjects entries).map (·.1.map (decoder.markOf data address info))
  position : mark = ((Json.nodeObjects entries).filterMap (·.1)).getLast?.map
    (decoder.markOf data address info)
  hasNext : info.hasNext = true ↔ Json.PageHas entries "hasNextPage" (.bool true)
  hasPrevious : info.hasPrevious = true ↔ Json.PageHas entries "hasPreviousPage" (.bool true)
  depth : ∀ anchor, decoder.anchorAround? data address = some anchor →
    anchor.depth < (Move.keys address).length

/-- The marks of a connection and of its nodes hold the keys that lead to the connection, and the
nearest object around it that can be fetched again. -/
theorem sits_of_at? {address : List Move} {nodes : List Model} {info : PageInfo}
    {mark : Option PageMark}
    (h : (Decoded.object (decoder.decode data)).at? address = some (.connection nodes info mark)) :
    ∃ entries, decoder.Sits data address nodes info mark entries := by
  obtain ⟨⟨shape, ⟨path, anchor⟩, own, json⟩, ⟨hat, hpath, hanchor⟩, heach, hread⟩ :=
    placed_connection h
  obtain ⟨nodeType, part, entries, hjson, hnodes, hinfo, hmark⟩ := connection_of_read hread
  obtain rfl : path = _ := hpath
  obtain rfl : anchor = _ := hanchor
  obtain rfl : json = _ := hjson
  have hmarkAt : decoder.markAt ⟨Move.keys address, decoder.anchorAround? data address⟩
      (.ofEntries entries) = decoder.markOf data address info := by
    rw [hinfo]
    rfl
  have hmodels : nodes = (Json.nodeObjects entries).map fun found =>
      decoder.object nodeType [part] (found.1.map (decoder.markOf data address info))
        ⟨Move.keys address, decoder.anchorAround? data address⟩ found.2 := by
    rw [hnodes, ← hmarkAt]
    rfl
  have htells := PageInfo.tells_ofEntries entries
  refine ⟨entries, hat, ⟨nodeType, part, hmodels⟩, ?_, by rw [hmark, hmarkAt], ?_, ?_,
    fun anchor ha => (heach.anchor anchor ha).1⟩
  · rw [hmodels, List.map_map]
    rfl
  · rw [hinfo]
    exact htells.hasNext
  · rw [hinfo]
    exact htells.hasPrevious

end Decoder

/-- Products have related products, which come in pages too. -/
def relatedBundle : Bundle :=
  { sampleBundle with
    types := sampleBundle.types.map fun type =>
      if type.name = "Product" then
        { type with fields := type.fields ++ [⟨"related", .nonNull (.named "ProductConnection"),
            [("first", .named "Int"), ("after", .named "String")]⟩] }
      else type }

def relatedDraft : OperationDraft :=
  .ofProgram .query
    [.object "shop" .none
      [.connection "products" ⟨none, [("first", .int 1)]⟩
        [.connection "related" ⟨none, [("first", .int 2)]⟩ [.field "title" .none]]]]

abbrev relatedDecoder : Decoder := ⟨⟨relatedBundle, relatedDraft.built relatedBundle, []⟩, none⟩

/-- The shop has no id; of the products related to the first one, one has no cursor. -/
def relatedData : Json :=
  let page (edges : List Json) : Json := .obj
    [("edges", .arr edges),
     ("pageInfo", .obj [("hasNextPage", .bool true), ("hasPreviousPage", .bool false)])]
  let related := page
    [.obj [("cursor", .str "r1"), ("node", .obj [("id", .str "p2"), ("title", .str "Beret")])],
     .obj [("node", .obj [("id", .str "p3"), ("title", .str "Fez")])]]
  .obj [("shop", .obj [("products", page
    [.obj [("cursor", .str "c1"), ("node", .obj [("id", .str "p1"), ("related", related)])]])])]

def relatedAddress : List Move := [.key "shop", .key "products", .item 0, .key "related"]

/-- What a mark says of further pages, and of pages before. -/
def PageMark.flags (mark : PageMark) : Bool × Bool := (mark.hasNext, mark.hasPrevious)

def relatedSits : Bool :=
  match (Decoded.object (relatedDecoder.decode relatedData)).at? relatedAddress with
  | some (.connection nodes _ (some mark)) =>
    decide (nodes.map Model.cursor? = [some "r1", none] ∧
      nodes.map (·.head.mark.map PageMark.flags) = [some (true, false), none] ∧
      mark.cursor = "r1" ∧ mark.hasNext = true ∧ mark.hasPrevious = false ∧
      mark.path = ["shop", "products", "related"] ∧
      (mark.anchor.map fun anchor => (anchor.id, anchor.typeName, anchor.depth)) =
        some ("p1", "Product", 2))
  | _ => false

/-- The nearest object around the related products is the product that they are related to, and their
page says that a further one follows and none comes before. -/
theorem related_sits :
    ∃ nodes info mark entries,
      (Decoded.object (relatedDecoder.decode relatedData)).at? relatedAddress =
        some (.connection nodes info (some mark)) ∧
      nodes.map Model.cursor? = [some "r1", none] ∧
      nodes.map (·.head.mark.map PageMark.flags) = [some (true, false), none] ∧
      mark.cursor = "r1" ∧ mark.hasNext = true ∧ mark.hasPrevious = false ∧
      mark.path = ["shop", "products", "related"] ∧
      (mark.anchor.map fun anchor => (anchor.id, anchor.typeName, anchor.depth)) =
        some ("p1", "Product", 2) ∧
      relatedDecoder.Sits relatedData relatedAddress nodes info (some mark) entries := by
  have h : relatedSits = true := by decide +kernel
  unfold relatedSits at h
  split at h
  · rename_i nodes info mark hat
    obtain ⟨hcursors, hflags, hcursor, hnext, hprevious, hpath, hanchor⟩ := of_decide_eq_true h
    obtain ⟨entries, hsits⟩ := Decoder.sits_of_at? hat
    exact ⟨nodes, info, mark, entries, hat, hcursors, hflags, hcursor, hnext, hprevious, hpath, hanchor,
      hsits⟩
  · cases h

/-! ## Cursors of edges -/

namespace Json

/-- The cursor of an edge. -/
def cursor? (edge : Json) : Option String := edge.obj?.bind (PageInfo.text? · "cursor")

/-- The node of an edge is an object. -/
def hasNode (edge : Json) : Bool :=
  (edge.obj?.bind fun entries => (Keyed.find? "node" entries).bind Json.obj?).isSome

/-- Only edges with an object for a node give a cursor. -/
theorem cursors_nodeObjects {entries : List (String × Json)} {edges : List Json}
    (h : Keyed.find? "edges" entries = some (.arr edges)) :
    (nodeObjects entries).filterMap (·.1) = (edges.filter hasNode).filterMap cursor? := by
  unfold nodeObjects
  rw [h]
  change (edges.filterMap _).filterMap _ = _
  rw [List.filterMap_filterMap, List.filterMap_filter]
  refine List.filterMap_congr fun edge _ => ?_
  unfold hasNode cursor?
  cases edge.obj? with
  | none => rfl
  | some inner =>
    simp only [Option.bind_some]
    cases (Keyed.find? "node" inner).bind Json.obj? <;> rfl

end Json

namespace Decoder

variable {decoder : Decoder} {data : Json}

/-- Where a connection is positioned. Its cursors are those of the edges with an object for a node; if
every edge that has a cursor has such a node, these are the cursors of all edges. What the `pageInfo`
object says comes before them. -/
theorem cursors_of_at? {address : List Move} {nodes : List Model} {info : PageInfo}
    {mark : Option PageMark} {entries : List (String × Json)} {edges : List Json}
    (h : (Decoded.object (decoder.decode data)).at? address = some (.connection nodes info mark))
    (hd : data.at? address = some (.obj entries))
    (he : Keyed.find? "edges" entries = some (.arr edges)) :
    let page := PageInfo.ofEntries entries
    let cursors := (edges.filter Json.hasNode).filterMap Json.cursor?
    page.Tells entries ∧ mark.map (·.cursor) = cursors.getLast? ∧
      info.startCursor = (page.startCursor <|> cursors.head?) ∧
      info.endCursor = (page.endCursor <|> cursors.getLast?) ∧
      ((∀ edge ∈ edges, edge.cursor?.isSome = true → edge.hasNode = true) →
        cursors = edges.filterMap Json.cursor?) := by
  intro page cursors
  obtain ⟨spot, hplaced, -, hread⟩ := placed_connection h
  obtain ⟨nodeType, part, found, hjson, -, hinfo, hmark⟩ := connection_of_read hread
  obtain rfl : found = entries := by
    have hsame := hplaced.json.symm.trans hd
    rw [hjson] at hsame
    exact Json.obj.inj (Option.some.inj hsame)
  rw [Json.cursors_nodeObjects he] at hinfo hmark
  refine ⟨PageInfo.tells_ofEntries _, ?_, by rw [hinfo]; rfl, by rw [hinfo]; rfl,
    fun hnodes => ?_⟩
  · rw [hmark, Option.map_map]
    exact Option.map_id'
  · change (edges.filter Json.hasNode).filterMap Json.cursor? = _
    rw [List.filterMap_filter]
    refine List.filterMap_congr fun edge hm => ?_
    cases hc : edge.cursor? with
    | none => split <;> rfl
    | some cursor => rw [if_pos (hnodes edge hm (by rw [hc]; rfl))]

end Decoder

/-- The second edge has a cursor and no node. -/
def gappedPage : List (String × Json) :=
  [("edges", .arr
    [.obj [("cursor", .str "c1"), ("node", .obj [("id", .str "p1")])],
     .obj [("cursor", .str "c2"), ("node", .null)]]),
   ("pageInfo", .obj [("hasNextPage", .bool true), ("hasPreviousPage", .bool false)])]

def gappedData : Json := .obj [("shop", .obj [("products", .obj gappedPage)])]

def gappedPositioned : Bool :=
  match (Decoded.object (relatedDecoder.decode gappedData)).at? [.key "shop", .key "products"] with
  | some (.connection _ info (some mark)) =>
    decide (mark.cursor = "c1" ∧ info.endCursor = some "c1")
  | _ => false

/-- The position is that of the first edge. -/
theorem gapped_connection :
    ∃ nodes info mark,
      (Decoded.object (relatedDecoder.decode gappedData)).at? [.key "shop", .key "products"] =
        some (.connection nodes info (some mark)) ∧
      mark.cursor = "c1" ∧ info.endCursor = some "c1" := by
  have h : gappedPositioned = true := by decide +kernel
  unfold gappedPositioned at h
  split at h
  · rename_i nodes info mark hat
    exact ⟨nodes, info, mark, hat, of_decide_eq_true h⟩
  · cases h

theorem gapped_cursors :
    ∃ nodes info mark edges,
      (Decoded.object (relatedDecoder.decode gappedData)).at? [.key "shop", .key "products"] =
        some (.connection nodes info mark) ∧
      gappedData.at? [.key "shop", .key "products"] = some (.obj gappedPage) ∧
      Keyed.find? "edges" gappedPage = some (.arr edges) ∧
      mark.map (·.cursor) = ((edges.filter Json.hasNode).filterMap Json.cursor?).getLast? := by
  obtain ⟨nodes, info, mark, hat, -⟩ := gapped_connection
  exact ⟨nodes, info, some mark, _, hat, rfl, rfl, (Decoder.cursors_of_at? hat rfl rfl).2.1⟩

/-- The last edge with a cursor is the second one, where the connection is not positioned. -/
theorem gapped_position_lost :
    ∃ nodes info mark edges,
      (Decoded.object (relatedDecoder.decode gappedData)).at? [.key "shop", .key "products"] =
        some (.connection nodes info mark) ∧
      gappedData.at? [.key "shop", .key "products"] = some (.obj gappedPage) ∧
      Keyed.find? "edges" gappedPage = some (.arr edges) ∧
      (PageInfo.ofEntries gappedPage).endCursor = none ∧
      (edges.filterMap Json.cursor?).getLast? = some "c2" ∧
      mark.map (·.cursor) = some "c1" ∧ info.endCursor = some "c1" := by
  obtain ⟨nodes, info, mark, hat, hcursor, hend⟩ := gapped_connection
  exact ⟨nodes, info, some mark, _, hat, rfl, rfl, rfl, rfl, congrArg some hcursor, hend⟩

end GraphQLClient
