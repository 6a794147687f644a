import GraphQLClient.Building.Tracker
import GraphQLClient.Client.Client
import GraphQLClient.CommandLine.Invocation
import GraphQLClient.CommandLine.Usage
import GraphQLClient.CommandLine.WorkingDirectory
import GraphQLClient.Decoding.Summary
import GraphQLClient.Http.Exchange
import GraphQLClient.Schema.Issue
import GraphQLClient.Schema.Load

set_option autoImplicit false

/-!
# Running commands

A command checks a bundle, lists its types, or makes the query for one object by its id and sends it
if there is an endpoint. Running is a function of the text of the bundle's file and of the other
side of the connection.
-/

namespace GraphQLClient

/-- What a command leaves behind: the lines it prints, those it prints as errors, its exit code or
the message it fails with, and what was sent. -/
structure Outcome where
  output : List String
  errors : List String
  result : Except String Nat
  exchange : Exchange

namespace Outcome

def finished (output errors : List String) (code : Nat) : Outcome :=
  ⟨output, errors, .ok code, .none⟩

def failed (output : List String) (message : String) : Outcome :=
  ⟨output, [], .error message, .none⟩

end Outcome

/-- Every line has its end. -/
def joinLines (lines : List String) : String := String.join (lines.map (· ++ "\n"))

/-- Loads a bundle from the text of its file, or from the reason why there is none. -/
def Bundle.ofFile (path : String) (file : Except String String) : Except BundleError Bundle :=
  match file with
  | .ok text => Bundle.ofText text
  | .error reason => .error (.unreadable path reason)

/-- The query for an object by its id. Without fields it asks for the id. -/
def nodeDraft (typeName id : String) (fields : List String) : OperationDraft :=
  let names := if fields.isEmpty then ["id"] else fields
  .ofProgram .query
    [.object nodeFieldName ⟨none, [("id", .string id)]⟩
      [.fragmentOn typeName (names.map fun name => .field name .none)]]

namespace Command

def runCheck (path : String) (file : Except String String) (verbose : Bool) : Outcome :=
  let begun := if verbose then ["Checking " ++ path] else []
  match Bundle.ofFile path file with
  | .error e => .failed begun e.message
  | .ok bundle =>
    if bundle.issues.isEmpty then
      .finished (begun ++ ["OK " ++ path ++ " (" ++ toString bundle.size ++ " types)"]) [] 0
    else
      .finished begun
        (("Error " ++ path) :: bundle.issues.map fun issue => "  --> " ++ issue.message) 1

/-- Fills a text up with spaces to a number of characters. -/
def padded (width : Nat) (text : String) : String :=
  text ++ String.ofList (List.replicate (width - text.length) ' ')

def typeLine (type : TypeDescriptor) : String :=
  padded 32 type.name ++ " " ++ type.kind.text ++ if type.implementsNode then " node" else ""

/-- The types of a kind in order of their names. -/
def listedTypes (bundle : Bundle) (kind : Option TypeKind) : List TypeDescriptor :=
  (bundle.types.filter fun type => kind.all (· == type.kind)).mergeSort fun a b =>
    decide (a.name ≤ b.name)

def runTypes (path : String) (file : Except String String) (kind : Option TypeKind) : Outcome :=
  match Bundle.ofFile path file with
  | .error e => .failed [] e.message
  | .ok bundle => .finished ((listedTypes bundle kind).map typeLine) [] 0

/-- A transport over one connection, with the exchange on it as its state. -/
def overWire (http : HttpTransport) (wire : Wire) : Transport Exchange :=
  fun params headers _ => http.fetch wire params headers

def valueLine (entry : String × Decoded) : String := entry.1 ++ ": " ++ entry.2.summary

/-- What is printed of the answer to a node query. -/
def replyOutcome (output : List String) (reply : Reply) (exchange : Exchange) : Outcome :=
  let errors := reply.errors.map fun e => "error: " ++ e.message
  match (reply.model.bind (·.get? nodeFieldName)).bind Decoded.object? with
  | some found => ⟨output ++ found.values.map valueLine, errors, .ok 0, exchange⟩
  | none => ⟨output ++ ["node not found"], errors, .ok 1, exchange⟩

def sendNode (bundle : Bundle) (operation : Operation) (output : List String) (url : String)
    (wire : Wire) : Outcome :=
  let client : Client := ⟨bundle, [], none, none⟩
  match (client.send (overWire (.ofUrl url) wire) operation []).run Exchange.none with
  | (.error failure, exchange) => ⟨output, [], .error failure.text, exchange⟩
  | (.ok reply, exchange) => replyOutcome output reply exchange

def trackLine (visits : List String) : String :=
  "types: " ++ ", ".intercalate (Tracker.new.start.recordAll visits).types

def runNode (path typeName id : String) (fields : List String) (track : Bool)
    (url : Option String) (file : Except String String) (wire : Wire) : Outcome :=
  match Bundle.ofFile path file with
  | .error e => .failed [] e.message
  | .ok bundle =>
    match bundle.get? typeName with
    | none => .finished [] ["Error unknown type `" ++ typeName ++ "`"] 1
    | some type =>
      if type.implementsNode then
        let built := (nodeDraft typeName id fields).build bundle
        match built.result with
        | .error e => .failed [] e.message
        | .ok operation =>
          let output := operation.text none :: if track then [trackLine built.visits] else []
          match url with
          | none => .finished output [] 0
          | some url => sendNode bundle operation output url wire
      else .finished [] ["Error `" ++ typeName ++ "` is not a node type"] 1

end Command

/-- Runs a command. `file` is the text of the file it reads, or the reason why there is none. -/
def Invocation.run (invocation : Invocation) (file : Except String String) (wire : Wire) :
    Outcome :=
  match invocation.command with
  | .check path => Command.runCheck path file invocation.verbose
  | .types path kind => Command.runTypes path file kind
  | .node path typeName id fields track url =>
    Command.runNode path typeName id fields track url file wire
  | .version => .finished [versionText] [] 0

end GraphQLClient
