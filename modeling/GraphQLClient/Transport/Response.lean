import GraphQLClient.Json.Record

set_option autoImplicit false

/-!
# Responses

The answer of a server: data, errors and extensions, each of which may be missing. Data that is
`null` counts as missing when a response is read.
-/

namespace GraphQLClient

structure ResponseError where
  message : String
  path : Option (List Json)
  extensions : Option (List (String × Json))
deriving Inhabited

structure Response where
  data : Option Json
  errors : Option (List ResponseError)
  extensions : Option (List (String × Json))
deriving Inhabited

namespace ResponseError

def json (e : ResponseError) : Json :=
  .obj <| [("message", .str e.message)] ++
    (match e.path with
      | some path => [("path", .arr path)]
      | none => []) ++
    (match e.extensions with
      | some extensions => [("extensions", .obj extensions)]
      | none => [])

/-- Reads an error that may hold values of this depth. -/
def ofWritten? (depth : Nat) (written : Written) : Option ResponseError :=
  match written.record? ["message", "path", "extensions"] with
  | some ⟨_, [some message, path, extensions]⟩ => do
    let message ← message.str?
    let path ← Written.orElse none
      (Written.optional? fun path => (path.value? depth).bind Json.arr?) path
    let extensions ← Written.orElse none
      (Written.optional? fun extensions => (extensions.value? depth).bind Json.obj?) extensions
    some ⟨message, path, extensions⟩
  | _ => none

end ResponseError

namespace Response

def empty : Response := ⟨none, none, none⟩

/-- A response with data only; `null` is data here. -/
def ofData (data : Json) : Response := ⟨some data, none, none⟩

def json (response : Response) : Json :=
  .obj <| [("data", response.data.getD .null)] ++
    (match response.errors with
      | some errors => [("errors", .arr (errors.map ResponseError.json))]
      | none => []) ++
    (match response.extensions with
      | some extensions => [("extensions", .obj extensions)]
      | none => [])

/-- Reads a response. The response itself, the list of errors and each error take one level of
nesting each. -/
def ofWritten? (written : Written) : Option Response :=
  match written.record? ["data", "errors", "extensions"] with
  | some ⟨_, [data, errors, extensions]⟩ => do
    let depth := Written.depthLimit - 1
    let data ← Written.orElse none (Written.optional? (Written.value? depth)) data
    let errors ← Written.orElse none
      (Written.optional? (Written.list? (ResponseError.ofWritten? (depth - 2)))) errors
    let extensions ← Written.orElse none
      (Written.optional? fun extensions => (extensions.value? depth).bind Json.obj?) extensions
    some ⟨data, errors, extensions⟩
  | _ => none

def ofText? (text : String) : Option Response := (Written.ofText? text).bind ofWritten?

def ofJson? (json : Json) : Option Response := ofWritten? (Written.ofJson json)

end Response

end GraphQLClient
