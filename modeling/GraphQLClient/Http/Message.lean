import GraphQLClient.Http.Chunked
import GraphQLClient.Http.Endpoint
import GraphQLClient.Keyed

set_option autoImplicit false

/-!
# HTTP messages

The text of a request, and the body of a response. A request closes its connection, so a response
is all that comes back. Its head ends at the first empty line between line ends of one kind, CRLF
before LF.
-/

namespace GraphQLClient.Http

def lineEnd : String := "\r\n"

/-- The lines every request has. -/
def fixedLines (endpoint : Endpoint) (body : String) : List String :=
  ["POST " ++ endpoint.path ++ " HTTP/1.1", "Host: " ++ endpoint.host,
    "Content-Type: application/json", "Accept: application/json",
    "Content-Length: " ++ toString body.utf8ByteSize, "Connection: close"]

def headerLine (header : String × String) : String := header.1 ++ ": " ++ header.2

def requestText (endpoint : Endpoint) (headers : List (String × String)) (body : String) : String :=
  String.join ((fixedLines endpoint body ++ headers.map headerLine).map (· ++ lineEnd)) ++ lineEnd ++
    body

/-- A number of 16 bits in decimal digits, as it stands on a status line. -/
def status? (line : List Char) : Option Nat :=
  ((Text.words line)[1]?).bind Text.decimal16?

def isChunkedHeader (line : List Char) : Bool :=
  match Text.cutAt? ':' line with
  | some (name, value) =>
    Text.sameIgnoringCase (Text.trim name) "transfer-encoding".toList &&
      Text.sameIgnoringCase (Text.trim value) "chunked".toList
  | none => false

/-- Head and body around the first empty line. -/
def cutBody? (text : List Char) : Option (List Char × List Char) :=
  (Text.cutAtText? "\r\n\r\n".toList text).or (Text.cutAtText? "\n\n".toList text)

def bodyOf (text : List Char) : Except Failure (List Char) :=
  match cutBody? text with
  | none => .error (.invalidResponse "Could not find response body")
  | some (head, body) => if (Text.lines head).any isChunkedHeader then Chunked.read body else .ok body

/-- The body of a response with a good status. -/
def responseBody (text : List Char) : Except Failure (List Char) :=
  match (Text.lines text).head? with
  | none | some [] => .error (.invalidResponse "Empty response")
  | some line =>
    match status? line with
    | none => .error (.invalidResponse ("Malformed status line: " ++ String.ofList line))
    | some status =>
      if 200 ≤ status ∧ status < 300 then bodyOf text
      else
        .error ((Failure.new .httpError ("HTTP error: " ++ String.ofList line)).withExtension
          "status" (.int status))

end GraphQLClient.Http
