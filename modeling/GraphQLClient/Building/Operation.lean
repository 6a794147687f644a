import GraphQLClient.Building.Program

set_option autoImplicit false

/-!
# Building operations

An operation draft names everything an operation is made from. Building it resolves the root type
and the declared variables, checks the variables of directives, and then runs the program on the
root.
-/

namespace GraphQLClient

/-- A variable to be declared; its type may have been given as a text that cannot be read. -/
structure VariableDraft where
  name : String
  type : Except TypeRefError TypeRef
  defaultValue : Option Value

namespace VariableDraft

def ofText (name text : String) (defaultValue : Option Value) : VariableDraft :=
  ⟨name, TypeRef.parse text, defaultValue⟩

def ofDefinition (definition : VariableDefinition) : VariableDraft :=
  ⟨definition.name, .ok definition.type, definition.defaultValue⟩

/-- Adds a definition to those resolved before. -/
def resolve (bundle : Bundle) (resolved : List VariableDefinition) (draft : VariableDraft) :
    Except BuildError (List VariableDefinition) :=
  if resolved.any (·.name == draft.name) then .error (.duplicateVariable draft.name)
  else
    match draft.type with
    | .error e => .error (.invalidVariableType draft.name e)
    | .ok type =>
      if bundle.contains type.namedType then
        .ok (resolved ++ [⟨draft.name, type, draft.defaultValue⟩])
      else .error (.unknownType type.namedType)

def resolveAll (bundle : Bundle) (drafts : List VariableDraft) :
    Except BuildError (List VariableDefinition) :=
  drafts.foldlM (resolve bundle) []

end VariableDraft

/-- How a build ended, with the types it visited and its journal. -/
structure BuildOutcome (α : Type) where
  result : Except BuildError α
  visits : List String
  journal : List JournalEntry

structure OperationDraft where
  kind : OperationKind
  name : Option String
  declarations : List VariableDraft
  directives : List Directive
  program : List Step

namespace OperationDraft

/-- An anonymous operation without variables. -/
def ofProgram (kind : OperationKind) (program : List Step) : OperationDraft :=
  ⟨kind, none, [], [], program⟩

def root? (bundle : Bundle) : OperationKind → Except BuildError TypeDescriptor
  | .query => .ok bundle.queryRoot
  | .mutation =>
    match bundle.mutationRoot with
    | some root => .ok root
    | none => .error .noMutationType

/-- The first variable that a directive uses and the operation does not declare. -/
def undeclaredInDirectives? (directives : List Directive) (declarations : List VariableDefinition) :
    Option String :=
  (directives.flatMap fun directive => Value.usesInFields directive.arguments).find? fun name =>
    !declarations.any (·.name == name)

/-- The scope of the root, once everything but the program is checked. -/
def scope (draft : OperationDraft) (bundle : Bundle) : Except BuildError Scope :=
  match root? bundle draft.kind with
  | .error e => .error e
  | .ok root =>
    match VariableDraft.resolveAll bundle draft.declarations with
    | .error e => .error e
    | .ok declarations =>
      match undeclaredInDirectives? draft.directives declarations with
      | some name => .error (.undeclaredVariable name)
      | none => .ok ⟨bundle, declarations, root⟩

/-- Runs a program on a new set and returns the set, which must not be empty. -/
def buildSet (scope : Scope) (program : List Step) : BuildOutcome SelectionSet :=
  let (result, draft) := (show Building Unit from do
    scope.start
    Step.runAll scope program).run Draft.empty
  let result :=
    match result with
    | .error e => .error e
    | .ok () =>
      if draft.selections.isEmpty then .error (.emptySelection scope.type.name)
      else .ok ⟨scope.type.name, draft.selections⟩
  ⟨result, draft.visits, draft.journal⟩

def build (draft : OperationDraft) (bundle : Bundle) : BuildOutcome Operation :=
  match draft.scope bundle with
  | .error e => ⟨.error e, [], []⟩
  | .ok scope =>
    let outcome := buildSet scope draft.program
    { outcome with
      result := outcome.result.map fun set =>
        ⟨draft.kind, draft.name, scope.declarations, draft.directives, set⟩ }

end OperationDraft

end GraphQLClient
