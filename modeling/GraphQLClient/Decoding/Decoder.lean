import GraphQLClient.Decoding.Collect
import GraphQLClient.Decoding.Registry

set_option autoImplicit false

/-!
# Decoding responses

The decoder walks the data of a response next to the selections of its operation. It cannot fail:
a key that the response leaves out is left out of the model, and a value whose shape does not fit
its selection is kept as it came.
-/

namespace GraphQLClient

/-- The place of a value in a response. -/
structure Position where
  path : List String
  anchor : Option NodeAnchor
deriving Inhabited

def Position.root : Position := ⟨[], none⟩

def Position.child (position : Position) (key : String) : Position :=
  { position with path := position.path ++ [key] }

/-- How the value of a field is to be read. -/
inductive Shape where
  | raw
  | object (type : TypeDescriptor) (parts : List Part)
  | connection (type : TypeDescriptor) (parts : List Part) (nodeType : TypeDescriptor)
      (nodes : Part)

namespace Shape

/-- The shape of the items, should the value be a list. -/
def item : Shape → Shape
  | .connection type parts _ _ => .object type parts
  | shape => shape

/-- A field without selections, or with selections on a type that the bundle does not hold, is kept
as it came. -/
def ofCollected (bundle : Bundle) (collected : Collected) : Shape :=
  match collected.parts with
  | [] => .raw
  | first :: _ =>
    match bundle.get? first.set.typeName with
    | none => .raw
    | some type =>
      if collected.field.connection then
        match Part.nodes? collected.parts with
        | none => .object type collected.parts
        | some nodes =>
          match bundle.get? nodes.set.typeName with
          | some nodeType => .connection type collected.parts nodeType nodes
          | none => .object type collected.parts
      else .object type collected.parts

end Shape

namespace PageInfo

def flag (entries : List (String × Json)) (key : String) : Bool :=
  ((Keyed.find? key entries).bind Json.bool?).getD false

def text? (entries : List (String × Json)) (key : String) : Option String :=
  (Keyed.find? key entries).bind Json.str?

/-- What a connection says of its page. -/
def ofEntries (entries : List (String × Json)) : PageInfo :=
  let info := ((Keyed.find? "pageInfo" entries).bind Json.obj?).getD []
  ⟨flag info "hasNextPage", flag info "hasPreviousPage", text? info "startCursor",
    text? info "endCursor"⟩

/-- Takes missing cursors from those of the edges. -/
def withCursors (info : PageInfo) (cursors : List String) : PageInfo :=
  { info with
    startCursor := info.startCursor <|> cursors.head?
    endCursor := info.endCursor <|> cursors.getLast? }

end PageInfo

/-- What a response is decoded for, and the classes for its models. -/
structure Decoder where
  source : Source
  registry : Option ClassRegistry

namespace Decoder

def bundle (decoder : Decoder) : Bundle := decoder.source.bundle

/-- The concrete type of an object. An interface or union is replaced by the type that the object
names itself, if it can be that type. -/
def concreteType (decoder : Decoder) (type : TypeDescriptor) (entries : List (String × Json)) :
    TypeDescriptor :=
  if type.isAbstract then
    match ((Keyed.find? typenameField entries).bind Json.str?).bind decoder.bundle.get? with
    | some concrete => if type.canBe concrete.name then concrete else type
    | none => type
  else type

/-- Inside an object with an id that can be fetched again, that object is the anchor. -/
def enter (position : Position) (type : TypeDescriptor) (set : SelectionSet)
    (entries : List (String × Json)) : Position :=
  if type.implementsNode then
    match (Keyed.find? "id" entries).bind Json.str? with
    | some id => { position with anchor := some ⟨id, type.name, set, position.path.length⟩ }
    | none => position
  else position

def markAt (decoder : Decoder) (position : Position) (info : PageInfo) (cursor : String) :
    PageMark :=
  ⟨cursor, info.hasNext, info.hasPrevious, position.path, position.anchor, decoder.source⟩

/-- The model of an object; `value` decodes the field of a response key. -/
def model (decoder : Decoder) (static : TypeDescriptor) (parts : List Part)
    (mark : Option PageMark) (position : Position) (entries : List (String × Json))
    (value : String → Shape → Position → Option Decoded) : Model :=
  let type := decoder.concreteType static entries
  let set := Part.merged parts
  let inside := enter position type set entries
  let values := (Collected.ofParts decoder.bundle type parts).filterMap fun collected =>
    (value collected.key (.ofCollected decoder.bundle collected) (inside.child collected.key)).map
      fun found => (collected.key, found)
  .mk ⟨decoder.source, type, set, mark, decoder.registry.bind (·.lookup? type.name)⟩ values

/-- A connection from its edges, each with its cursor and the model of its node. -/
def connection (decoder : Decoder) (position : Position) (info : PageInfo)
    (edges : List (Option String × Model)) : Decoded :=
  let cursors := edges.filterMap (·.1)
  .connection (edges.map (·.2)) (info.withCursors cursors)
    (cursors.getLast?.map (decoder.markAt position info))

mutual
def value (decoder : Decoder) (shape : Shape) (position : Position) : Json → Decoded
  | .null =>
    match shape with
    | .raw => .scalar .null
    | _ => .null
  | .obj entries =>
    match shape with
    | .raw => .scalar (.obj entries)
    | .object type parts =>
      .object <| decoder.model type parts none position entries fun key shape position =>
        valueOf decoder key shape position entries
    | .connection _ _ type nodes =>
      let info := PageInfo.ofEntries entries
      decoder.connection position info (edgesOf decoder type nodes info position entries)
  | .arr entries =>
    match shape with
    | .raw => .scalar (.arr entries)
    | shape => .list (items decoder shape.item position entries)
  | other => .scalar other

def items (decoder : Decoder) (shape : Shape) (position : Position) : List Json → List Decoded
  | [] => []
  | item :: rest => value decoder shape position item :: items decoder shape position rest

/-- The value under a key of an object. -/
def valueOf (decoder : Decoder) (key : String) (shape : Shape) (position : Position) :
    List (String × Json) → Option Decoded
  | [] => none
  | (name, item) :: rest =>
    if name = key then some (value decoder shape position item)
    else valueOf decoder key shape position rest

/-- The edges of a connection that have an object for a node. -/
def edgesOf (decoder : Decoder) (type : TypeDescriptor) (nodes : Part) (info : PageInfo)
    (position : Position) : List (String × Json) → List (Option String × Model)
  | [] => []
  | (name, item) :: rest =>
    if name = "edges" then edgesIn decoder type nodes info position item
    else edgesOf decoder type nodes info position rest

def edgesIn (decoder : Decoder) (type : TypeDescriptor) (nodes : Part) (info : PageInfo)
    (position : Position) : Json → List (Option String × Model)
  | .arr entries => edges decoder type nodes info position entries
  | _ => []

def edges (decoder : Decoder) (type : TypeDescriptor) (nodes : Part) (info : PageInfo)
    (position : Position) : List Json → List (Option String × Model)
  | [] => []
  | item :: rest =>
    edge decoder type nodes info position item ++ edges decoder type nodes info position rest

def edge (decoder : Decoder) (type : TypeDescriptor) (nodes : Part) (info : PageInfo)
    (position : Position) : Json → List (Option String × Model)
  | .obj entries =>
    nodeOf decoder type nodes info position (PageInfo.text? entries "cursor") entries
  | _ => []

def nodeOf (decoder : Decoder) (type : TypeDescriptor) (nodes : Part) (info : PageInfo)
    (position : Position) (cursor : Option String) :
    List (String × Json) → List (Option String × Model)
  | [] => []
  | (name, item) :: rest =>
    if name = "node" then node decoder type nodes info position cursor item
    else nodeOf decoder type nodes info position cursor rest

def node (decoder : Decoder) (type : TypeDescriptor) (nodes : Part) (info : PageInfo)
    (position : Position) (cursor : Option String) : Json → List (Option String × Model)
  | .obj entries =>
    let mark := cursor.map (decoder.markAt position info)
    [(cursor, decoder.model type [nodes] mark position entries fun key shape position =>
      valueOf decoder key shape position entries)]
  | _ => []
end

/-- Decodes the data of a response; data that is no object counts as an empty one. -/
def decode (decoder : Decoder) (data : Json) : Model :=
  let set := decoder.source.operation.set
  let root := (decoder.bundle.get? set.typeName).getD decoder.bundle.queryRoot
  let entries := data.obj?.getD []
  decoder.model root [.ofOperation set] none .root entries fun key shape position =>
    decoder.valueOf key shape position entries

end Decoder

end GraphQLClient
