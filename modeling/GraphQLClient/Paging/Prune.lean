import GraphQLClient.Language.Selection

set_option autoImplicit false

/-!
# Pruning selections to a path

`SelectionSet.prune` keeps what leads along a path of response keys, and the leaf fields `id` and
`__typename` beside it. The field at the end of the path gets a new `after` argument. Connections on
the way keep their shape around the nodes; spreads on the way become inline fragments.
-/

namespace GraphQLClient

/-- The argument of a connection that names the cursor to go on from. -/
def cursorArgument : String := "after"

def Field.withCursor (field : Field) (cursor : String) : Field :=
  { field with arguments := Keyed.insert cursorArgument (.string cursor) field.arguments }

namespace Selection

/-- A field with another set below it. -/
def withSet (set : SelectionSet) : Selection → Selection
  | .leaf field => .composite field set.typeName set.selections
  | .composite field _ _ => .composite field set.typeName set.selections
  | other => other

/-- Replaces the sets below all fields that answer to `key`. -/
def replaceSet (key : String) (set : SelectionSet) (selections : List Selection) :
    List Selection :=
  selections.map fun selection => if selection.answers key then selection.withSet set else selection

/-- The selections of a connection with another set for its nodes. -/
def replaceNodes (nodes : SelectionSet) (selections : List Selection) : List Selection :=
  match SelectionSet.below? ⟨"", selections⟩ "edges" with
  | some edges =>
    replaceSet "edges" ⟨edges.typeName, replaceSet "node" nodes edges.selections⟩ selections
  | none => selections

/-- A leaf that tells which object it stands in. -/
def isIdentity (field : Field) : Bool := field.name == "id" || field.name == typenameField

/-- Of selections paired with whether they lead along the path, all are kept if one does. -/
def keptIfFound (typeName : String) (kept : List (Selection × Bool)) : Option SelectionSet :=
  if kept.any (·.2) then some ⟨typeName, kept.map (·.1)⟩ else none

mutual
/-- What is kept of a selection for the path `key :: rest`, and whether it leads along the path. -/
def pruneOne (cursor key : String) (rest : List String) : Selection → Option (Selection × Bool)
  | .leaf field =>
    if field.responseKey == key then
      if rest.isEmpty then some (.leaf (field.withCursor cursor), true) else none
    else if isIdentity field then some (.leaf field, false)
    else none
  | .composite field typeName selections =>
    if field.responseKey == key then
      match rest with
      | [] => some (.composite (field.withCursor cursor) typeName selections, true)
      | key :: rest =>
        if field.connection then
          (pruneEdges cursor key rest selections).map fun nodes =>
            (.composite field typeName (replaceNodes nodes selections), true)
        else
          (keptIfFound typeName (pruneEach cursor key rest selections)).map fun set =>
            (.composite field set.typeName set.selections, true)
    else none
  | .inlineFragment condition typeName selections =>
    (keptIfFound typeName (pruneEach cursor key rest selections)).map fun set =>
      (.inlineFragment condition set.typeName set.selections, true)
  | .spread _ _ condition typeName selections =>
    (keptIfFound typeName (pruneEach cursor key rest selections)).map fun set =>
      (.inlineFragment condition set.typeName set.selections, true)

def pruneEach (cursor key : String) (rest : List String) :
    List Selection → List (Selection × Bool)
  | [] => []
  | selection :: others =>
    (pruneOne cursor key rest selection).toList ++ pruneEach cursor key rest others

/-- The pruned nodes of a connection, below its first field `edges`. -/
def pruneEdges (cursor key : String) (rest : List String) : List Selection → Option SelectionSet
  | [] => none
  | selection :: others =>
    if selection.answers "edges" then pruneEdge cursor key rest selection
    else pruneEdges cursor key rest others

def pruneEdge (cursor key : String) (rest : List String) : Selection → Option SelectionSet
  | .composite _ _ selections => pruneNodes cursor key rest selections
  | _ => none

/-- The pruned nodes below the first field `node` of the edges. -/
def pruneNodes (cursor key : String) (rest : List String) : List Selection → Option SelectionSet
  | [] => none
  | selection :: others =>
    if selection.answers "node" then pruneNode cursor key rest selection
    else pruneNodes cursor key rest others

def pruneNode (cursor key : String) (rest : List String) : Selection → Option SelectionSet
  | .composite _ typeName selections =>
    keptIfFound typeName (pruneEach cursor key rest selections)
  | _ => none
end

end Selection

/-- `none` if nothing in the set answers to the path. -/
def SelectionSet.prune (set : SelectionSet) (path : List String) (cursor : String) :
    Option SelectionSet :=
  match path with
  | [] => none
  | key :: rest =>
    Selection.keptIfFound set.typeName (Selection.pruneEach cursor key rest set.selections)

end GraphQLClient
