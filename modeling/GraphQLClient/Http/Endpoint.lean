import GraphQLClient.Text.Numeral
import GraphQLClient.Transport.Failure

set_option autoImplicit false

/-!
# Endpoints

The address of a server, read from a URL: the host and the port to connect to and the path to ask
for. Only plain HTTP is spoken. The scheme may be left out, the port is 80 and the path `/` when
they are not given, and the port is what follows the last colon before the first slash.
-/

namespace GraphQLClient

structure Endpoint where
  host : String
  port : Nat
  path : String
deriving DecidableEq, Repr, Inhabited

namespace Endpoint

/-- The text up to the first slash, and the path from there on. -/
def cutPath (text : List Char) : List Char × List Char :=
  let host := text.takeWhile (· ≠ '/')
  let path := text.dropWhile (· ≠ '/')
  (host, if path.isEmpty then ['/'] else path)

/-- The text before and after the last colon. -/
def cutPort? (text : List Char) : Option (List Char × List Char) :=
  (Text.cutAt? ':' text.reverse).map fun (port, host) => (host.reverse, port.reverse)

def httpsRefusal : Failure :=
  .new .httpsNotSupported
    "HTTPS is not supported by HttpTransport. Use a proxy or implement Transport."

def ofUrl (url : String) : Except Failure Endpoint :=
  let url := Text.trim url.toList
  if (Text.after? "https://".toList url).isSome then .error httpsRefusal
  else
    let (authority, path) := cutPath ((Text.after? "http://".toList url).getD url)
    if authority.isEmpty then
      .error (.new .invalidUrl ("Missing host in `" ++ String.ofList url ++ "`"))
    else
      match cutPort? authority with
      | none => .ok ⟨String.ofList authority, 80, String.ofList path⟩
      | some (host, port) =>
        match Text.decimal16? port with
        | some number => .ok ⟨String.ofList host, number, String.ofList path⟩
        | none => .error (.new .invalidUrl ("Invalid port: " ++ String.ofList port))

/-- Host and port to connect to. -/
def address (endpoint : Endpoint) : String := endpoint.host ++ ":" ++ toString endpoint.port

end Endpoint

end GraphQLClient
