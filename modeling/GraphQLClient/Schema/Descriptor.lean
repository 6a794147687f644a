import GraphQLClient.Keyed
import GraphQLClient.Language.TypeRef

set_option autoImplicit false

/-!
# Types of a schema

One record describes a type of any kind. Fields and types are known by their names, so a list of
them holds each name once: a later one takes the place of an earlier one (`Keyed.put`).
-/

namespace GraphQLClient

inductive TypeKind where
  | object
  | interface
  | union
  | enum
  | scalar
  | inputObject
deriving DecidableEq, Repr, Inhabited

namespace TypeKind

def all : List TypeKind := [.object, .interface, .union, .enum, .scalar, .inputObject]

def text : TypeKind → String
  | .object => "OBJECT"
  | .interface => "INTERFACE"
  | .union => "UNION"
  | .enum => "ENUM"
  | .scalar => "SCALAR"
  | .inputObject => "INPUT_OBJECT"

def ofText? (text : String) : Option TypeKind := all.find? (·.text == text)

/-- Values of a leaf kind have no selection below them. -/
def isLeaf (kind : TypeKind) : Bool := kind == .scalar || kind == .enum

/-- Values of a composite kind need a selection. -/
def isComposite (kind : TypeKind) : Bool := kind == .object || kind == .interface || kind == .union

/-- Values of an abstract kind are of one of several object types. -/
def isAbstract (kind : TypeKind) : Bool := kind == .interface || kind == .union

end TypeKind

structure FieldDescriptor where
  name : String
  type : TypeRef
  arguments : List (String × TypeRef)
deriving DecidableEq, Repr, Inhabited

/-- The named type that a field returns, without list and non-null marks. -/
def FieldDescriptor.typeName (field : FieldDescriptor) : String := field.type.namedType

structure TypeDescriptor where
  name : String
  kind : TypeKind
  fields : List FieldDescriptor
  /-- The object types that a value of an interface or union may have. -/
  possibleTypes : List String
  /-- Objects of the type can be fetched again by their id. -/
  implementsNode : Bool
  enumValues : List String
deriving DecidableEq, Repr, Inhabited

namespace TypeDescriptor

def ofKind (name : String) (kind : TypeKind) : TypeDescriptor := ⟨name, kind, [], [], false, []⟩

def field? (type : TypeDescriptor) (name : String) : Option FieldDescriptor :=
  type.fields.find? (·.name == name)

def addField (type : TypeDescriptor) (field : FieldDescriptor) : TypeDescriptor :=
  { type with fields := Keyed.put FieldDescriptor.name field type.fields }

def isLeaf (type : TypeDescriptor) : Bool := type.kind.isLeaf

def isComposite (type : TypeDescriptor) : Bool := type.kind.isComposite

def isAbstract (type : TypeDescriptor) : Bool := type.kind.isAbstract

/-- A value of this type may be an object of the type called `name`. -/
def canBe (type : TypeDescriptor) (name : String) : Bool :=
  type.name == name || (type.isAbstract && type.possibleTypes.contains name)

/-- Some object may belong to both types. -/
def overlaps (a b : TypeDescriptor) : Bool :=
  a.canBe b.name || b.canBe a.name ||
    (a.isAbstract && b.isAbstract && a.possibleTypes.any b.possibleTypes.contains)

end TypeDescriptor

end GraphQLClient
