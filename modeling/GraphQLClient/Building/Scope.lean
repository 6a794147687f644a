import GraphQLClient.Building.Draft

set_option autoImplicit false

/-!
# Selecting on a type

A scope is the type that selections are made on, with the bundle and the variables around it. Each
way to select checks names, arguments and sub-selections against the bundle where it is used, so
that an operation built without an error names only what the bundle knows.
-/

namespace GraphQLClient

/-- Alias and arguments of a field. -/
structure FieldOptions where
  aliasName : Option String
  arguments : List (String × Value)
deriving Inhabited

namespace FieldOptions

def none : FieldOptions := ⟨.none, []⟩

end FieldOptions

/-- A field with these options. -/
def Field.ofOptions (name : String) (options : FieldOptions) (connection : Bool) : Field :=
  ⟨name, options.aliasName, options.arguments, connection⟩

def Field.options (field : Field) : FieldOptions := ⟨field.aliasName, field.arguments⟩

structure Scope where
  bundle : Bundle
  /-- The variables that the operation declares. -/
  declarations : List VariableDefinition
  type : TypeDescriptor

namespace Scope

open Building

def within (scope : Scope) (type : TypeDescriptor) : Scope := { scope with type := type }

def declares (scope : Scope) (name : String) : Bool := scope.declarations.any (·.name == name)

/-- The first variable of the value that is not declared. -/
def undeclared? (scope : Scope) (value : Value) : Option String :=
  value.references.find? fun name => !scope.declares name

def subselectionRequired (scope : Scope) (fieldName : String) (type : TypeDescriptor) :
    BuildError :=
  .subselectionRequired scope.type.name fieldName type.name

/-- `none` is the type of the type name field, a string. -/
def subselectionForbidden (scope : Scope) (fieldName : String) (type : Option TypeDescriptor) :
    BuildError :=
  .subselectionForbidden scope.type.name fieldName
    (match type with
      | some type => type.name
      | none => "String")

def lookup (scope : Scope) (typeName : String) : Except BuildError TypeDescriptor :=
  match scope.bundle.get? typeName with
  | some type => .ok type
  | none => .error (.unknownType typeName)

/-- Argument values must be finite and use declared variables only. -/
def argumentError? (scope : Scope) (fieldName : String) (argument : String × Value) :
    Option BuildError :=
  if argument.2.isFinite then (scope.undeclared? argument.2).map .undeclaredVariable
  else some (.nonFiniteFloat scope.type.name fieldName argument.1)

/-- Checks the name and the arguments of a field and gives its return type; `none` for the type
name field. -/
def check (scope : Scope) (name : String) (options : FieldOptions) :
    Except BuildError (Option TypeDescriptor) :=
  if name = typenameField then
    match options.arguments with
    | (argument, _) :: _ => .error (.unknownArgument scope.type.name name argument)
    | [] => .ok none
  else
    match scope.type.field? name with
    | none => .error (.unknownField scope.type.name name)
    | some field =>
      match options.arguments.find? fun argument => !Keyed.contains argument.1 field.arguments with
      | some argument => .error (.unknownArgument scope.type.name name argument.1)
      | none =>
        match options.arguments.findSome? (scope.argumentError? name) with
        | some e => .error e
        | none => (scope.lookup field.typeName).map some

/-- Checks a field and visits its return type. -/
def resolve (scope : Scope) (name : String) (options : FieldOptions) :
    Building (Option TypeDescriptor) := do
  let type ← checked (scope.check name options)
  visit (match type with
    | some type => type.name
    | none => "String")
  return type

/-- The return type of a field that takes a sub-selection. -/
def compositeType (scope : Scope) (name : String) (options : FieldOptions) :
    Building TypeDescriptor := do
  match ← scope.resolve name options with
  | some type =>
    if type.isComposite then return type
    else throw (scope.subselectionForbidden name (some type))
  | none => throw (scope.subselectionForbidden name none)

/-- Adds a field. One that is already selected under the same response key must be the same and is
not added again. -/
def pushField (scope : Scope) (field : Field) (selection : Selection) : Building Unit := do
  match (← selections).find? (Selection.answers field.responseKey) with
  | some found =>
    if found.same selection then pure ()
    else throw (.duplicateField scope.type.name field.responseKey)
  | none => push selection

def pushInlineFragment (target : TypeDescriptor) (selections : List Selection) : Building Unit :=
  if selections.isEmpty then throw (.emptySelection target.name)
  else push (.inlineFragment target.name target.name selections)

/-- The type of a fragment that may apply in this scope. -/
def fragmentTarget (scope : Scope) (condition : String) : Building TypeDescriptor := do
  let target ← checked (scope.lookup condition)
  if target.isComposite && scope.type.overlaps target then return target
  else throw (.invalidFragmentType scope.type.name condition)

/-- Selects a leaf field. -/
def addField (scope : Scope) (name : String) (options : FieldOptions) : Building Unit := do
  match ← scope.resolve name options with
  | some type =>
    if type.isComposite then throw (scope.subselectionRequired name type)
    else pure ()
  | none => pure ()
  let field := Field.ofOptions name options false
  scope.pushField field (.leaf field)

/-- What a new set starts with, for the decoder's sake: `id` on types that can be fetched again and
the type name on abstract types. -/
def start (scope : Scope) : Building Unit := do
  visit scope.type.name
  if scope.type.implementsNode && (scope.type.field? "id").isSome then
    scope.addField "id" .none
  if scope.type.isAbstract then
    scope.addField typenameField .none

/-- Selects a composite field; `body` makes its selections. -/
def addObject (scope : Scope) (name : String) (options : FieldOptions)
    (body : Scope → Building Unit) : Building Unit := do
  let type ← scope.compositeType name options
  let child := scope.within type
  let selections ← nested (do child.start; body child)
  if selections.isEmpty then throw (scope.subselectionRequired name type)
  let field := Field.ofOptions name options false
  scope.pushField field (.composite field type.name selections)

/-- Selects a connection; `body` makes the selections on its nodes. -/
def addConnection (scope : Scope) (name : String) (options : FieldOptions)
    (body : Scope → Building Unit) : Building Unit := do
  let type ← scope.compositeType name options
  if (type.field? "edges").isNone || (type.field? "pageInfo").isNone then
    throw (.notAConnection scope.type.name name type.name)
  let child := scope.within type
  let selections ← nested do
    child.start
    child.addObject "edges" .none fun edges => do
      edges.addField "cursor" .none
      edges.addObject "node" .none body
    child.addObject "pageInfo" .none fun info => do
      info.addField "hasNextPage" .none
      info.addField "hasPreviousPage" .none
  let field := Field.ofOptions name options true
  scope.pushField field (.composite field type.name selections)

/-- Makes selections that apply to objects of one type. -/
def addFragmentOn (scope : Scope) (typeName : String) (body : Scope → Building Unit) :
    Building Unit := do
  let target ← scope.fragmentTarget typeName
  let child := scope.within target
  let selections ← nested (do visit target.name; body child)
  pushInlineFragment target selections

def spreads (name : String) : Selection → Bool
  | .spread _ found _ _ _ => found == name
  | _ => false

/-- Spreads a fragment, unless one of its name is spread already. -/
def addSpread (scope : Scope) (fragment : Fragment) : Building Unit := do
  let target ← scope.fragmentTarget fragment.condition
  visit target.name
  if (← selections).any (spreads fragment.name) then pure ()
  else push (Selection.ofFragment fragment)

mutual
/-- Adds a finished selection after checking it anew, part by part. The body of a spread fragment is
taken as it is. -/
def addSelection (scope : Scope) : Selection → Building Unit
  | .leaf field => do
    match ← scope.resolve field.name field.options with
    | some type =>
      if type.isComposite then throw (scope.subselectionRequired field.name type)
      else pure ()
    | none => pure ()
    scope.pushField field (.leaf field)
  | .composite field _ selections => do
    let type ← scope.compositeType field.name field.options
    let child := scope.within type
    let rebuilt ← nested (do visit type.name; addSelections child selections)
    if rebuilt.isEmpty then throw (scope.subselectionRequired field.name type)
    scope.pushField field (.composite field type.name rebuilt)
  | .inlineFragment condition _ selections => do
    let target ← scope.fragmentTarget condition
    let child := scope.within target
    let rebuilt ← nested (do visit target.name; addSelections child selections)
    pushInlineFragment target rebuilt
  | .spread serial name condition typeName selections =>
    scope.addSpread ⟨serial, name, condition, ⟨typeName, selections⟩⟩

def addSelections (scope : Scope) : List Selection → Building Unit
  | [] => pure ()
  | selection :: rest => do
    addSelection scope selection
    addSelections scope rest
end

end Scope

end GraphQLClient
