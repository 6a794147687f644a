import GraphQLClient.Json.Printer
import GraphQLClient.Json.Record

set_option autoImplicit false

/-!
# Request parameters

What is posted for one request: the query text, its variables and the name of the operation to run,
and further properties beside them. Variables and name are left out when there are none.
-/

namespace GraphQLClient

structure RequestParams where
  query : String
  values : Option (List (String × Json))
  operationName : Option String
  /-- Further properties, written after the standard ones. -/
  extra : List (String × Json)
deriving Inhabited

namespace RequestParams

/-- Empty variables count as none. -/
def make (query : String) (values : List (String × Json)) (operationName : Option String)
    (extra : List (String × Json)) : RequestParams :=
  ⟨query, if values.isEmpty then none else some values, operationName, extra⟩

def entries (params : RequestParams) : List (String × Json) :=
  [("query", .str params.query)] ++
    (match params.values with
      | some values => [("variables", .obj values)]
      | none => []) ++
    (match params.operationName with
      | some name => [("operationName", .str name)]
      | none => []) ++
    params.extra

/-- The body of the request. A further property with a standard name is written beside it. -/
def text (params : RequestParams) : String := (Json.obj params.entries).text

def standardNames : List String := ["query", "variables", "operationName"]

def valuesOf? : Option Json → Option (Option (List (String × Json)))
  | none => some none
  | some .null => some none
  | some (.obj entries) => some (some entries)
  | some _ => none

def nameOf? : Option Json → Option (Option String)
  | none => some none
  | some .null => some none
  | some (.str name) => some (some name)
  | some _ => none

/-- Reads parameters; every property that has no standard name is a further one. -/
def ofJson? : Json → Option RequestParams
  | .obj entries =>
    match Keyed.find? "query" entries, valuesOf? (Keyed.find? "variables" entries),
      nameOf? (Keyed.find? "operationName" entries) with
    | some (.str query), some values, some name =>
      some ⟨query, values, name, entries.filter fun entry => !standardNames.contains entry.1⟩
    | _, _, _ => none
  | _ => none

/-- Reads parameters as they are written. A standard name must not come twice. -/
def ofWritten? (written : Written) : Option RequestParams :=
  match written.obj? with
  | none => none
  | some entries =>
    if standardNames.all fun name => (entries.filter (·.1 == name)).length ≤ 1 then
      (written.value? Written.depthLimit).bind ofJson?
    else none

def ofText? (text : String) : Option RequestParams := (Written.ofText? text).bind ofWritten?

end RequestParams

end GraphQLClient
