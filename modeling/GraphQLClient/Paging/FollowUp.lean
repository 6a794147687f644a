import GraphQLClient.Building.Operation
import GraphQLClient.Decoding.Model
import GraphQLClient.Paging.Prune

set_option autoImplicit false

/-!
# Follow-up queries

From a decoded model or connection a query for the next page, or for the same object again, is made
out of the operation it came from. The query is built like any other one and declares only the
variables that it still uses.
-/

namespace GraphQLClient

/-- Why there is no follow-up query. -/
inductive ModelError where
  | notNodeType (typeName : String)
  | missingNodeId (typeName : String)
  | noNodeField
  | noPagination (typeName : String)
  | emptyConnection
  | pathNotFound (path : List String)
  | build (error : BuildError)
deriving DecidableEq, Repr

def ModelError.message : ModelError → String
  | .notNodeType typeName => s!"`{typeName}` does not implement Node and cannot be refetched"
  | .missingNodeId typeName => s!"`{typeName}` was decoded without an `id`"
  | .noNodeField => "the query root has no `node` field"
  | .noPagination typeName => s!"`{typeName}` was not decoded from a connection"
  | .emptyConnection => "the connection has no edges to paginate from"
  | .pathNotFound path =>
    "the originating operation has no selection at `" ++ ".".intercalate path ++ "`"
  | .build error => error.message

/-- A query, the response keys that lead to its answer, and the variables to send. -/
structure FollowUp where
  operation : Operation
  path : List String
  values : List (String × Json)
deriving Inhabited

namespace FollowUp

/-- An operation that declares the variables of `origin` which the selections or the directives of
`origin` use. -/
def draft (origin : Operation) (kind : OperationKind) (name : Option String) (set : SelectionSet)
    (program : List Step) : OperationDraft :=
  let used := set.references ++ origin.directiveUses
  ⟨kind, name,
    (origin.declarations.filter fun definition => used.contains definition.name).map
      VariableDraft.ofDefinition,
    origin.directives, program⟩

/-- Fetches an object by its id and selects `set` on its type. -/
def nodeProgram (id typeName : String) (set : SelectionSet) : List Step :=
  [.object nodeFieldName ⟨none, [("id", .string id)]⟩ [.fragmentOn typeName [.extend set]]]

/-- The values of the variables that an operation declares. -/
def usedVariables (operation : Operation) (values : List (String × Json)) :
    List (String × Json) :=
  operation.declarations.filterMap fun definition =>
    (Keyed.find? definition.name values).map fun value => (definition.name, value)

def ofDraft (source : Source) (draft : OperationDraft) (path : List String) :
    Except ModelError FollowUp :=
  match (draft.build source.bundle).result with
  | .ok operation => .ok ⟨operation, path, usedVariables operation source.values⟩
  | .error e => .error (.build e)

end FollowUp

namespace PageMark

/-- The anchor to start from: it stands above the connection, and the bundle can fetch objects by
their ids. -/
def usableAnchor? (mark : PageMark) : Option NodeAnchor :=
  mark.anchor.filter fun anchor =>
    anchor.depth < mark.path.length && mark.source.bundle.nodeField?.isSome

/-- The query for the page after the cursor. It starts at the anchor, if there is one to use, and
otherwise at the root. -/
def nextPage (mark : PageMark) : Except ModelError FollowUp :=
  let origin := mark.source.operation
  match mark.usableAnchor? with
  | some anchor =>
    let path := mark.path.drop anchor.depth
    match anchor.set.prune path mark.cursor with
    | none => .error (.pathNotFound mark.path)
    | some pruned =>
      FollowUp.ofDraft mark.source
        (FollowUp.draft origin .query origin.name pruned
          (FollowUp.nodeProgram anchor.id anchor.typeName pruned))
        (nodeFieldName :: path)
  | none =>
    match origin.set.prune mark.path mark.cursor with
    | none => .error (.pathNotFound mark.path)
    | some pruned =>
      FollowUp.ofDraft mark.source
        (FollowUp.draft origin origin.kind origin.name pruned [.extend pruned]) mark.path

end PageMark

/-- The query for the page after the last edge. -/
def Connection.nextPage (connection : Connection) : Except ModelError FollowUp :=
  match connection.mark with
  | some mark => mark.nextPage
  | none => .error .emptyConnection

namespace Model

/-- The query for the page after this node. -/
def nextPage (model : Model) : Except ModelError FollowUp :=
  match model.head.mark with
  | some mark => mark.nextPage
  | none => .error (.noPagination model.type.name)

/-- The query for the same object again, found by its id. -/
def refetch (model : Model) : Except ModelError FollowUp :=
  if model.type.implementsNode then
    match model.id? with
    | none => .error (.missingNodeId model.type.name)
    | some id =>
      if model.source.bundle.nodeField?.isSome then
        let set := model.head.set
        FollowUp.ofDraft model.source
          (FollowUp.draft model.source.operation .query none set
            (FollowUp.nodeProgram id set.typeName set))
          [nodeFieldName]
      else .error .noNodeField
  else .error (.notNodeType model.type.name)

end Model

end GraphQLClient
