import GraphQLClient.Http.Message
import GraphQLClient.Text.Utf8
import GraphQLClient.Transport.Params
import GraphQLClient.Transport.Response

set_option autoImplicit false

/-!
# Posting a request

A request goes over a connection in three stages: connect, write, read. Each stage has the same
time, and each can run out of it or fail. `Wire` says what the other side of the connection does;
`Exchange` is what is seen from there.
-/

namespace GraphQLClient

inductive WireStage where
  | connect
  | write
  | read
deriving DecidableEq, Repr

/-- The behaviour of the other side: the bytes it answers, the stage whose time runs out, and the
stage that fails with an error text. -/
structure Wire where
  reply : List UInt8
  timeoutAt : Option WireStage
  failure : Option (WireStage × String)
deriving Inhabited

/-- What reached the other side: the address connected to, the time given to each stage begun, and
the text written. -/
structure Exchange where
  address : Option String
  timeouts : List Nat
  request : Option String
deriving DecidableEq, Repr, Inhabited

namespace Exchange

def none : Exchange := ⟨.none, [], .none⟩

end Exchange

/-- Posts requests to one URL. -/
structure HttpTransport where
  url : String
  /-- Milliseconds for each stage. -/
  timeout : Nat
  /-- Sent with every request. -/
  headers : List (String × String)
deriving DecidableEq, Repr, Inhabited

namespace HttpTransport

def defaultTimeout : Nat := 30000

def ofUrl (url : String) : HttpTransport := ⟨url, defaultTimeout, []⟩

def stageError (wire : Wire) (stage : WireStage) : Option String :=
  match wire.failure with
  | some (failing, text) => if failing = stage then some text else none
  | none => none

/-- The headers of a request; those of the request itself win. -/
def merge (headers added : List (String × String)) : List (String × String) :=
  Keyed.sortByName (Keyed.insertAll headers added)

/-- Writes a request and reads what comes back. -/
def post (transport : HttpTransport) (wire : Wire) (headers : List (String × String))
    (body : String) : Except Failure (List Char) × Exchange :=
  match Endpoint.ofUrl transport.url with
  | .error failure => (.error failure, .none)
  | .ok endpoint =>
    let time := transport.timeout
    if wire.timeoutAt = some .connect then (.error .timedOut, ⟨none, [time], none⟩)
    else
      let connected := some endpoint.address
      match stageError wire .connect with
      | some text =>
        (.error (.ofErrorWith .connectionRefused "Connection failed" text), ⟨connected, [time], none⟩)
      | none =>
        if wire.timeoutAt = some .write then
          (.error .timedOut, ⟨connected, [time, time], none⟩)
        else
          let written := some (Http.requestText endpoint headers body)
          match stageError wire .write with
          | some text =>
            (.error (.ofErrorWith .networkError "Write failed" text),
              ⟨connected, [time, time], written⟩)
          | none =>
            let exchange : Exchange := ⟨connected, [time, time, time], written⟩
            if wire.timeoutAt = some .read then (.error .timedOut, exchange)
            else
              match stageError wire .read with
              | some text => (.error (.ofErrorWith .networkError "Read failed" text), exchange)
              | none => (Http.responseBody (Utf8.decode wire.reply), exchange)

/-- A body that is no response fails with its beginning. -/
def readBody (body : List Char) : Except Failure Response :=
  match Response.ofText? (String.ofList body) with
  | some response => .ok response
  | none =>
    .error (.caused .deserializeError
      ("Failed to parse response body: " ++ String.ofList (body.take 200)))

/-- Sends one request and reads its response. -/
def fetch (transport : HttpTransport) (wire : Wire) (params : RequestParams)
    (headers : List (String × String)) : Except Failure Response × Exchange :=
  let (result, exchange) :=
    transport.post wire (merge transport.headers headers) params.text
  (result.bind readBody, exchange)

end HttpTransport

end GraphQLClient
