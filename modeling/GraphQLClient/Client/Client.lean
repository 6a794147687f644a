import GraphQLClient.Building.Document
import GraphQLClient.Decoding.Decoder
import GraphQLClient.Language.Printer
import GraphQLClient.Transport.Failure
import GraphQLClient.Transport.Params
import GraphQLClient.Transport.Response

set_option autoImplicit false

/-!
# The client

A client prints operations, sends them over a transport and decodes the answers. Pages and single
objects are fetched by follow-up queries that go the same way. A transport is a function with a
state of its own; the client never looks at that state.
-/

namespace GraphQLClient

/-- A computation that may send requests. -/
abbrev Sending (σ : Type) := ExceptT Failure (StateM σ)

/-- Sends one request with its headers. -/
abbrev Transport (σ : Type) := RequestParams → List (String × String) → Sending σ Response

/-- A response with its data decoded. -/
structure Reply where
  /-- The root model, if there are data other than `null`. -/
  model : Option Model
  data : Option Json
  errors : List ResponseError
  extensions : Option (List (String × Json))
deriving Inhabited

namespace Reply

def hasErrors (reply : Reply) : Bool := !reply.errors.isEmpty

/-- The root model of a response without errors. -/
def checkedModel (reply : Reply) : Except Failure Model :=
  match reply.errors with
  | first :: _ =>
    .error ((Failure.new .executionError first.message).withExtension "errors"
      (.arr (reply.errors.map ResponseError.json)))
  | [] =>
    match reply.model with
    | some model => .ok model
    | none => .error (.new .noData "Response carried no data")

end Reply

/-- How one operation of a document is to be sent. -/
structure SendOptions where
  operationName : Option String
  values : List (String × Json)
  extra : List (String × Json)
  headers : List (String × String)
deriving Inhabited

structure Client where
  bundle : Bundle
  /-- Sent with every request. -/
  headers : List (String × String)
  /-- Added to the directives of every operation. -/
  context : Option Directive
  registry : Option ClassRegistry
deriving Inhabited

namespace Client

variable {σ : Type}

/-- Sends the parameters made for an operation and decodes the answer. -/
def execute (client : Client) (transport : Transport σ) (operation : Operation)
    (params : RequestParams) (values : List (String × Json))
    (headers : List (String × String)) : Sending σ Reply := do
  let response ← transport params (Keyed.sortByName (Keyed.insertAll client.headers headers))
  let decoder : Decoder := ⟨⟨client.bundle, operation, values⟩, client.registry⟩
  let data := response.data.filter fun data => !data.isNull
  return ⟨data.map decoder.decode, response.data, response.errors.getD [], response.extensions⟩

/-- Sends a single operation. -/
def send (client : Client) (transport : Transport σ) (operation : Operation)
    (values : List (String × Json)) : Sending σ Reply :=
  client.execute transport operation
    (.make (operation.text client.context) values operation.name []) values []

/-- Sends one operation of a document. It is chosen before anything is sent. -/
def sendDocument (client : Client) (transport : Transport σ) (document : Document)
    (options : SendOptions) : Sending σ Reply :=
  match document.operation options.operationName with
  | .error e => throw (.ofChoiceError e)
  | .ok operation =>
    client.execute transport operation
      (.make (document.text client.context) options.values operation.name options.extra)
      options.values options.headers

/-- Sends a follow-up query and gives the root model of its answer. -/
def sendFollowUp (client : Client) (transport : Transport σ) (followUp : FollowUp) :
    Sending σ Model := do
  let reply ← client.send transport followUp.operation followUp.values
  match reply.checkedModel with
  | .ok model => return model
  | .error failure => throw failure

/-- Fetches the page after a connection. -/
def fetchNextPage (client : Client) (transport : Transport σ) (connection : Connection) :
    Sending σ Connection :=
  match connection.nextPage with
  | .error e => throw (.ofModelError e)
  | .ok next => do
    let root ← client.sendFollowUp transport next
    match (root.drill next.path).bind Decoded.connection? with
    | some page => return page
    | none =>
      throw (.invalidResponse
        ("No connection at `" ++ ".".intercalate next.path ++ "` in next page"))

/-- The nodes of the pages after a connection, at most `limit` pages; `none` if there are more. -/
def fetchFurther (client : Client) (transport : Transport σ) :
    Nat → Connection → Sending σ (Option (List Model))
  | limit, current =>
    if current.info.hasNext && !current.isEmpty then
      match limit with
      | 0 => return none
      | limit + 1 => do
        let page ← client.fetchNextPage transport current
        return (← fetchFurther client transport limit page).map (page.nodes ++ ·)
    else return some []

/-- The nodes of a connection and of all pages after it, fetched one page at a time. Servers may go
on for ever, so there is a limit to the number of pages; `none` if it is not enough. -/
def fetchAllPages (client : Client) (transport : Transport σ) (limit : Nat)
    (connection : Connection) : Sending σ (Option (List Model)) := do
  return (← client.fetchFurther transport limit connection).map (connection.nodes ++ ·)

/-- Fetches a model again by its id. -/
def refetch (client : Client) (transport : Transport σ) (model : Model) : Sending σ Model :=
  match model.refetch with
  | .error e => throw (.ofModelError e)
  | .ok again => do
    let root ← client.sendFollowUp transport again
    match root.drill again.path with
    | some (.object found) => return found
    | some .null | none =>
      throw (.notFound (model.type.name ++ " `" ++ model.id?.getD "" ++ "`"))
    | some _ => throw (.invalidResponse "Refetched node is not an object")

end Client

end GraphQLClient
