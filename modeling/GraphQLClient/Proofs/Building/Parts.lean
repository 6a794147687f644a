import GraphQLClient.Building.Scope

set_option autoImplicit false

/-!
# Parts of the steps that select fields

A field that is asked for and a field of a finished selection are put into a set in the same way, and
the sets of a connection are made inside each other. These parts have names here, so that what holds of
one is said once for all the steps that it is a part of. The steps are these parts by definition.
-/

namespace GraphQLClient.Scope

open Building

/-- A leaf field, whether it is asked for or taken over. -/
def resolvedLeaf (scope : Scope) (field : Field) (error : TypeDescriptor → BuildError) :
    Building Unit := do
  match ← scope.resolve field.name field.options with
  | some type => if type.isComposite then throw (error type) else pure ()
  | none => pure ()
  scope.pushField field (.leaf field)

/-- What is left to do for a composite field once its set is made. -/
def pushMade (scope : Scope) (field : Field) (typeName : String) (error : BuildError)
    (inner : List Selection) : Building Unit := do
  if inner.isEmpty then throw error
  scope.pushField field (.composite field typeName inner)

/-- A composite field, whether its set is made by a program or from finished selections. -/
def composed (scope : Scope) (field : Field) (made : TypeDescriptor → Building Unit)
    (error : TypeDescriptor → BuildError) : Building Unit := do
  let type ← scope.compositeType field.name field.options
  let inner ← nested (made type)
  scope.pushMade field type.name (error type) inner

/-- The fields of an edge. -/
def addEdge (scope : Scope) (body : Scope → Building Unit) : Building Unit := do
  scope.addField "cursor" .none
  scope.addObject "node" .none body

/-- The fields of a page info. -/
def addPageInfo (scope : Scope) : Building Unit := do
  scope.addField "hasNextPage" .none
  scope.addField "hasPreviousPage" .none

/-- The fields of a connection. -/
def addConnected (scope : Scope) (body : Scope → Building Unit) : Building Unit := do
  scope.addObject "edges" .none fun edges => edges.addEdge body
  scope.addObject "pageInfo" .none addPageInfo

end GraphQLClient.Scope
