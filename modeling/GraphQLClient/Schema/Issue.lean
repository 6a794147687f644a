import GraphQLClient.Schema.Bundle

set_option autoImplicit false

/-!
# Issues of a bundle

A bundle may name types that it does not hold, so that one generated in part stays usable.
`Bundle.issues` lists such names, type by type in the order of the bundle, each field before its
arguments and all fields before the possible types.
-/

namespace GraphQLClient

inductive BundleIssue where
  | unknownFieldType (typeName fieldName referenced : String)
  | unknownArgumentType (typeName fieldName argument referenced : String)
  | unknownPossibleType (typeName referenced : String)
  | possibleTypeNotObject (typeName referenced : String)
  | noPossibleTypes (typeName : String)
deriving DecidableEq, Repr

def BundleIssue.message : BundleIssue → String
  | .unknownFieldType typeName fieldName referenced =>
    s!"field `{typeName}.{fieldName}` returns unknown type `{referenced}`"
  | .unknownArgumentType typeName fieldName argument referenced =>
    s!"argument `{argument}` of `{typeName}.{fieldName}` has unknown type `{referenced}`"
  | .unknownPossibleType typeName referenced =>
    s!"`{typeName}` lists unknown possible type `{referenced}`"
  | .possibleTypeNotObject typeName referenced =>
    s!"`{typeName}` lists `{referenced}` as a possible type, but it is not an object type"
  | .noPossibleTypes typeName => s!"abstract type `{typeName}` has no possible types"

namespace Bundle

def argumentIssues (bundle : Bundle) (type : TypeDescriptor) (field : FieldDescriptor) :
    List BundleIssue :=
  field.arguments.filterMap fun (argument, argumentType) =>
    if bundle.contains argumentType.namedType then none
    else some (.unknownArgumentType type.name field.name argument argumentType.namedType)

def fieldIssues (bundle : Bundle) (type : TypeDescriptor) (field : FieldDescriptor) :
    List BundleIssue :=
  (if bundle.contains field.typeName then []
    else [.unknownFieldType type.name field.name field.typeName]) ++
    bundle.argumentIssues type field

def possibleTypeIssue? (bundle : Bundle) (type : TypeDescriptor) (name : String) :
    Option BundleIssue :=
  match bundle.get? name with
  | some possible =>
    if possible.kind = .object then none else some (.possibleTypeNotObject type.name name)
  | none => some (.unknownPossibleType type.name name)

def possibleTypeIssues (bundle : Bundle) (type : TypeDescriptor) : List BundleIssue :=
  if type.isAbstract then
    (if type.possibleTypes.isEmpty then [.noPossibleTypes type.name] else []) ++
      type.possibleTypes.filterMap (bundle.possibleTypeIssue? type)
  else []

def issues (bundle : Bundle) : List BundleIssue :=
  bundle.types.flatMap fun type =>
    type.fields.flatMap (bundle.fieldIssues type) ++ bundle.possibleTypeIssues type

end Bundle

end GraphQLClient
