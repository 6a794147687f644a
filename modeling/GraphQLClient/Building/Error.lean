import GraphQLClient.Language.TypeRef

set_option autoImplicit false

/-!
# Build errors

Every error names what is needed to find the selection at fault.
-/

namespace GraphQLClient

inductive BuildError where
  | unknownType (typeName : String)
  | unknownField (typeName fieldName : String)
  | unknownArgument (typeName fieldName argument : String)
  | subselectionRequired (typeName fieldName returnType : String)
  | subselectionForbidden (typeName fieldName returnType : String)
  | notAConnection (typeName fieldName returnType : String)
  | emptySelection (typeName : String)
  | invalidFragmentType (scope condition : String)
  | nonFiniteFloat (typeName fieldName argument : String)
  | undeclaredVariable (name : String)
  | duplicateVariable (name : String)
  | invalidVariableType (name : String) (source : TypeRefError)
  | duplicateField (typeName responseKey : String)
  | noMutationType
  | duplicateOperationName (name : String)
  | anonymousOperationInDocument
  | duplicateFragmentName (name : String)
deriving DecidableEq, Repr

def BuildError.message : BuildError → String
  | .unknownType typeName => s!"unknown type `{typeName}`"
  | .unknownField typeName fieldName => s!"type `{typeName}` has no field `{fieldName}`"
  | .unknownArgument typeName fieldName argument =>
    s!"field `{typeName}.{fieldName}` has no argument `{argument}`"
  | .subselectionRequired typeName fieldName returnType =>
    s!"field `{typeName}.{fieldName}` returns `{returnType}`, which needs a sub-selection"
  | .subselectionForbidden typeName fieldName returnType =>
    s!"field `{typeName}.{fieldName}` returns leaf type `{returnType}` and cannot take a sub-selection"
  | .notAConnection typeName fieldName returnType =>
    s!"field `{typeName}.{fieldName}` returns `{returnType}`, which is not a connection"
  | .emptySelection typeName => s!"selection on `{typeName}` is empty"
  | .invalidFragmentType scope condition =>
    s!"a fragment on `{condition}` can never apply within `{scope}`"
  | .nonFiniteFloat typeName fieldName argument =>
    s!"argument `{argument}` of `{typeName}.{fieldName}` is not a finite number"
  | .undeclaredVariable name => s!"variable `${name}` is used but not declared"
  | .duplicateVariable name => s!"variable `${name}` is declared more than once"
  | .invalidVariableType name source => s!"variable `${name}`: {source.message}"
  | .duplicateField typeName responseKey =>
    s!"`{typeName}` already selects a different field as `{responseKey}`"
  | .noMutationType => "the schema has no mutation root type"
  | .duplicateOperationName name => s!"the document already has an operation named `{name}`"
  | .anonymousOperationInDocument =>
    "an anonymous operation must be the only operation in its document"
  | .duplicateFragmentName name =>
    s!"the document already defines a different fragment named `{name}`"

end GraphQLClient
