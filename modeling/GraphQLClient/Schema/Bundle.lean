import GraphQLClient.Schema.Descriptor

set_option autoImplicit false

/-!
# Type bundles

A bundle is the schema a client works with: its types, the root type of queries and, if there is
one, the root type of mutations. `BundleDraft` collects types, starting from the built-in scalars;
`BundleDraft.build` fails only for want of a root type.
-/

namespace GraphQLClient

def builtinScalars : List String := ["Int", "Float", "String", "Boolean", "ID"]

/-- The field of the query root that fetches an object by its id. -/
def nodeFieldName : String := "node"

/-- Why there is no bundle. -/
inductive BundleError where
  | unreadable (path reason : String)
  | malformed
  | invalidType (typeName fieldName : String) (source : TypeRefError)
  | missingQueryType
  | unknownRootType (name : String)
deriving DecidableEq, Repr

def BundleError.message : BundleError → String
  | .unreadable path reason => s!"failed to read type bundle `{path}`: {reason}"
  | .malformed => "invalid type bundle JSON"
  | .invalidType typeName fieldName source => s!"`{typeName}.{fieldName}`: {source.message}"
  | .missingQueryType => "the type bundle does not name a query root type"
  | .unknownRootType name => s!"root type `{name}` is not defined in the type bundle"

structure Bundle where
  queryRoot : TypeDescriptor
  mutationRoot : Option TypeDescriptor
  types : List TypeDescriptor
deriving DecidableEq, Repr, Inhabited

namespace Bundle

def get? (bundle : Bundle) (name : String) : Option TypeDescriptor :=
  bundle.types.find? (·.name == name)

def contains (bundle : Bundle) (name : String) : Bool := (bundle.get? name).isSome

def size (bundle : Bundle) : Nat := bundle.types.length

/-- The field that fetches an object by its id, if the query root has one. -/
def nodeField? (bundle : Bundle) : Option FieldDescriptor := bundle.queryRoot.field? nodeFieldName

end Bundle

/-- A bundle being put together. -/
structure BundleDraft where
  queryType : Option String
  mutationType : Option String
  types : List TypeDescriptor
deriving Repr, Inhabited

namespace BundleDraft

def empty : BundleDraft :=
  ⟨none, none, builtinScalars.map fun name => TypeDescriptor.ofKind name .scalar⟩

def addType (draft : BundleDraft) (type : TypeDescriptor) : BundleDraft :=
  { draft with types := Keyed.put TypeDescriptor.name type draft.types }

def root? (draft : BundleDraft) (name : String) : Except BundleError TypeDescriptor :=
  match draft.types.find? (·.name == name) with
  | some type => .ok type
  | none => .error (.unknownRootType name)

def build (draft : BundleDraft) : Except BundleError Bundle :=
  match draft.queryType with
  | none => .error .missingQueryType
  | some query =>
    match draft.root? query with
    | .error e => .error e
    | .ok queryRoot =>
      match draft.mutationType with
      | none => .ok ⟨queryRoot, none, draft.types⟩
      | some mutation => (draft.root? mutation).map fun root => ⟨queryRoot, some root, draft.types⟩

end BundleDraft

end GraphQLClient
