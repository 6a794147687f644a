import GraphQLClient.Language.Selection
import GraphQLClient.Language.TypeRef

set_option autoImplicit false

/-!
# Operations and documents

An operation is a query or a mutation with its variables, directives and root selection set. A
document holds operations and the fragments they share; `Document.operation` chooses the one to send.
-/

namespace GraphQLClient

inductive OperationKind where
  | query
  | mutation
deriving DecidableEq, Repr, Inhabited

def OperationKind.keyword : OperationKind → String
  | .query => "query"
  | .mutation => "mutation"

structure VariableDefinition where
  name : String
  type : TypeRef
  defaultValue : Option Value
deriving Inhabited

structure Directive where
  name : String
  arguments : List (String × Value)
deriving Inhabited

structure Operation where
  kind : OperationKind
  name : Option String
  declarations : List VariableDefinition
  directives : List Directive
  set : SelectionSet
deriving Inhabited

namespace Operation

/-- The declared variable of this name. -/
def declared? (operation : Operation) (name : String) : Option VariableDefinition :=
  operation.declarations.find? (·.name == name)

/-- The fragments that the operation spreads, also inside other fragments, in the order of first
use. -/
def fragments (operation : Operation) : List Fragment := operation.set.fragments

def directiveUses (operation : Operation) : List String :=
  operation.directives.flatMap fun directive => Value.usesInFields directive.arguments

/-- The variables used in directives and selections, in the order of first use. -/
def references (operation : Operation) : List String :=
  (operation.directiveUses ++ Selection.usesInAll operation.set.selections).eraseDups

end Operation

structure Document where
  operations : List Operation
  fragments : List Fragment
deriving Inhabited

/-- Why a document has no single operation to send. -/
inductive OperationChoiceError where
  | empty
  | ambiguous (count : Nat)
  | unknown (name : String)
deriving DecidableEq, Repr

def OperationChoiceError.message : OperationChoiceError → String
  | .empty => "the document contains no operations"
  | .ambiguous count =>
    s!"the document contains {count} operations; an operation name is required to choose one"
  | .unknown name => s!"the document has no operation named `{name}`"

namespace Document

/-- The operation of this name; without a name, the only operation. -/
def operation (document : Document) (name : Option String) :
    Except OperationChoiceError Operation :=
  match name with
  | some name =>
    match document.operations.find? (·.name == some name) with
    | some operation => .ok operation
    | none => .error (.unknown name)
  | none =>
    match document.operations with
    | [] => .error .empty
    | [only] => .ok only
    | several => .error (.ambiguous several.length)

def fragment? (document : Document) (name : String) : Option Fragment :=
  document.fragments.find? (·.name == name)

end Document

end GraphQLClient
