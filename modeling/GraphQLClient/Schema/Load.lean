import GraphQLClient.Json.Record
import GraphQLClient.Schema.Bundle

set_option autoImplicit false

/-!
# Loading a bundle

A bundle is written in JSON as its root type names and its types; the name of a type may be given
inside it and is otherwise its key. The JSON must have the right shape before any type reference in
it is read, and the references are read in order, a field's type before its arguments.
-/

namespace GraphQLClient

/-- A field as it is written: its type reference and those of its arguments. -/
structure FieldDeclaration where
  type : String
  arguments : List (String × String)
deriving DecidableEq, Repr

/-- A type as it is written. -/
structure TypeDeclaration where
  name : Option String
  kind : TypeKind
  fields : List (String × FieldDeclaration)
  possibleTypes : List String
  implementsNode : Bool
  enumValues : List String
deriving DecidableEq, Repr

/-- A bundle as it is written. -/
structure BundleDeclaration where
  queryType : Option String
  mutationType : Option String
  types : List (String × TypeDeclaration)
deriving DecidableEq, Repr

namespace FieldDeclaration

def ofWritten? (written : Written) : Option FieldDeclaration :=
  match written.record? ["type", "args"] with
  | some ⟨_, [some type, arguments]⟩ =>
    match type.str?, Written.orElse [] (Written.map? Written.str?) arguments with
    | some type, some arguments => some ⟨type, arguments⟩
    | _, _ => none
  | _ => none

/-- Reads the type references of a field. -/
def describe (declaration : FieldDeclaration) (name : String) :
    Except TypeRefError FieldDescriptor :=
  match TypeRef.parse declaration.type with
  | .error e => .error e
  | .ok type =>
    match declaration.arguments.mapM fun (argument, text) =>
        (TypeRef.parse text).map fun type => (argument, type) with
    | .error e => .error e
    | .ok arguments => .ok ⟨name, type, arguments⟩

end FieldDeclaration

namespace TypeDeclaration

def fieldNames : List String :=
  ["name", "kind", "fields", "possibleTypes", "implementsNode", "enumValues"]

def ofWritten? (written : Written) : Option TypeDeclaration :=
  match written.record? fieldNames with
  | some ⟨_, [name, some kind, fields, possibleTypes, implementsNode, enumValues]⟩ => do
    let name ← Written.orElse none (Written.optional? Written.str?) name
    let kind ← kind.name?.bind TypeKind.ofText?
    let fields ← Written.orElse [] (Written.map? FieldDeclaration.ofWritten?) fields
    let possibleTypes ← Written.orElse [] (Written.list? Written.str?) possibleTypes
    let implementsNode ← Written.orElse false Written.bool? implementsNode
    let enumValues ← Written.orElse [] (Written.list? Written.str?) enumValues
    some ⟨name, kind, fields, possibleTypes, implementsNode, enumValues⟩
  | _ => none

def describeField (typeName : String) (entry : String × FieldDeclaration) :
    Except BundleError FieldDescriptor :=
  (entry.2.describe entry.1).mapError (BundleError.invalidType typeName entry.1)

/-- Reads the type references of all fields in order. -/
def describe (declaration : TypeDeclaration) (key : String) : Except BundleError TypeDescriptor :=
  let name := declaration.name.getD key
  match declaration.fields.mapM (describeField name) with
  | .error e => .error e
  | .ok fields =>
    .ok ⟨name, declaration.kind, fields, declaration.possibleTypes, declaration.implementsNode,
      declaration.enumValues⟩

end TypeDeclaration

namespace BundleDeclaration

/-- Written as an array, a bundle has at least its query type, be it `null`. -/
def ofWritten? (written : Written) : Option BundleDeclaration :=
  match written.record? ["queryType", "mutationType", "types"] with
  | some ⟨positional, [queryType, mutationType, types]⟩ => do
    let queryType ←
      if positional && queryType.isNone then none
      else Written.orElse none (Written.optional? Written.str?) queryType
    let mutationType ← Written.orElse none (Written.optional? Written.str?) mutationType
    let types ← Written.orElse [] (Written.map? TypeDeclaration.ofWritten?) types
    some ⟨queryType, mutationType, types⟩
  | _ => none

def build (declaration : BundleDeclaration) : Except BundleError Bundle :=
  match declaration.types.mapM fun (key, type) => type.describe key with
  | .error e => .error e
  | .ok types =>
    BundleDraft.build
      (types.foldl BundleDraft.addType
        { BundleDraft.empty with
          queryType := declaration.queryType, mutationType := declaration.mutationType })

end BundleDeclaration

namespace Bundle

def ofWritten (written : Written) : Except BundleError Bundle :=
  match BundleDeclaration.ofWritten? written with
  | some declaration => declaration.build
  | none => .error .malformed

def ofJson (json : Json) : Except BundleError Bundle := ofWritten (Written.ofJson json)

def ofText (text : String) : Except BundleError Bundle :=
  match Written.ofText? text with
  | some written => ofWritten written
  | none => .error .malformed

end Bundle

end GraphQLClient
