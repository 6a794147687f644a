import GraphQLClient.Json.Value
import GraphQLClient.Language.Operation
import GraphQLClient.Schema.Bundle

set_option autoImplicit false

/-!
# Decoded models

A response is decoded into models: objects that know their concrete type, the selections they were
decoded with and the operation they came from, so that more can be asked for later. A connection is
decoded into the models of its nodes and a page mark, which holds what a query for the next page
needs.
-/

namespace GraphQLClient

/-- What an object was decoded for. -/
structure Source where
  bundle : Bundle
  operation : Operation
  values : List (String × Json)
deriving Inhabited

/-- A decoded object that a query can start from by its id. -/
structure NodeAnchor where
  id : String
  typeName : String
  /-- The selections the object was decoded with. -/
  set : SelectionSet
  /-- The number of response keys that lead to the object. -/
  depth : Nat
deriving Inhabited

/-- A position in a connection. -/
structure PageMark where
  cursor : String
  hasNext : Bool
  hasPrevious : Bool
  /-- The response keys from the root to the connection; the levels of edges and nodes are left
  out. -/
  path : List String
  /-- The nearest object around the connection that has an id. -/
  anchor : Option NodeAnchor
  source : Source
deriving Inhabited

/-- Cursors that a response does not give are those of the first and the last edge. -/
structure PageInfo where
  hasNext : Bool
  hasPrevious : Bool
  startCursor : Option String
  endCursor : Option String
deriving DecidableEq, Repr, Inhabited

structure ModelHead where
  source : Source
  type : TypeDescriptor
  set : SelectionSet
  /-- Where a node stands in its connection. -/
  mark : Option PageMark
  /-- The application class that the object was made into. -/
  className : Option String
deriving Inhabited

mutual
/-- The value of a field. A scalar, also a list of scalars, is kept as it came. -/
inductive Decoded where
  | null
  | scalar (value : Json)
  | object (model : Model)
  | list (items : List Decoded)
  | connection (nodes : List Model) (info : PageInfo) (mark : Option PageMark)

/-- A decoded object: the values of the selected fields that the response gave. -/
inductive Model where
  | mk (head : ModelHead) (values : List (String × Decoded))
end

instance : Inhabited Decoded := ⟨.null⟩

instance : Inhabited Model := ⟨.mk default []⟩

structure Connection where
  nodes : List Model
  info : PageInfo
  /-- The position of the last edge with a cursor. -/
  mark : Option PageMark
deriving Inhabited

namespace Decoded

def isNull : Decoded → Bool
  | .null => true
  | .scalar .null => true
  | _ => false

def scalar? : Decoded → Option Json
  | .scalar value => some value
  | _ => none

def str? (decoded : Decoded) : Option String := decoded.scalar?.bind Json.str?

def bool? (decoded : Decoded) : Option Bool := decoded.scalar?.bind Json.bool?

def object? : Decoded → Option Model
  | .object model => some model
  | _ => none

def list? : Decoded → Option (List Decoded)
  | .list items => some items
  | _ => none

def connection? : Decoded → Option Connection
  | .connection nodes info mark => some ⟨nodes, info, mark⟩
  | _ => none

end Decoded

namespace Model

def head : Model → ModelHead
  | .mk head _ => head

def values : Model → List (String × Decoded)
  | .mk _ values => values

def type (model : Model) : TypeDescriptor := model.head.type

def source (model : Model) : Source := model.head.source

def get? (model : Model) (key : String) : Option Decoded := Keyed.find? key model.values

/-- The field `id`, if it is a string. -/
def id? (model : Model) : Option String := (model.get? "id").bind Decoded.str?

def hasNextPage (model : Model) : Bool := model.head.mark.any (·.hasNext)

def hasPreviousPage (model : Model) : Bool := model.head.mark.any (·.hasPrevious)

/-- The cursor of the edge that a node came from. -/
def cursor? (model : Model) : Option String := model.head.mark.map (·.cursor)

/-- Follows response keys through nested objects. -/
def drill (model : Model) : List String → Option Decoded
  | [] => none
  | [key] => model.get? key
  | key :: rest =>
    match model.get? key with
    | some (.object inner) => inner.drill rest
    | _ => none

end Model

namespace Connection

def size (connection : Connection) : Nat := connection.nodes.length

def isEmpty (connection : Connection) : Bool := connection.nodes.isEmpty

end Connection

end GraphQLClient
