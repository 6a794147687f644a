import GraphQLClient.Building.Operation

set_option autoImplicit false

/-!
# Building documents

A document draft collects operations and the fragments they share. Fragments are defined with a
program of their own and without variables; an operation that is added brings along every fragment
it spreads.
-/

namespace GraphQLClient

/-- A fragment to be defined. -/
structure FragmentDraft where
  name : String
  typeName : String
  program : List Step

structure DocumentDraft where
  bundle : Bundle
  operations : List Operation
  fragments : List Fragment

namespace DocumentDraft

def empty (bundle : Bundle) : DocumentDraft := ⟨bundle, [], []⟩

def fragment? (draft : DocumentDraft) (name : String) : Option Fragment :=
  draft.fragments.find? (·.name == name)

/-- The scope of a fragment, if its name is free and its type is composite. -/
def fragmentScope (draft : DocumentDraft) (fragment : FragmentDraft) : Except BuildError Scope :=
  if (draft.fragment? fragment.name).isSome then .error (.duplicateFragmentName fragment.name)
  else
    match draft.bundle.get? fragment.typeName with
    | none => .error (.unknownType fragment.typeName)
    | some target =>
      if target.isComposite then .ok ⟨draft.bundle, [], target⟩
      else .error (.invalidFragmentType fragment.typeName fragment.typeName)

/-- Builds a fragment under a serial number that no other fragment has. -/
def buildFragment (draft : DocumentDraft) (serial : Nat) (fragment : FragmentDraft) :
    BuildOutcome Fragment :=
  match draft.fragmentScope fragment with
  | .error e => ⟨.error e, [], []⟩
  | .ok scope =>
    let outcome := OperationDraft.buildSet scope fragment.program
    { outcome with
      result := outcome.result.map fun set => ⟨serial, fragment.name, scope.type.name, set⟩ }

/-- Defines a fragment; on an error the document stays as it is. -/
def defineFragment (draft : DocumentDraft) (serial : Nat) (fragment : FragmentDraft) :
    BuildOutcome Fragment × DocumentDraft :=
  let outcome := draft.buildFragment serial fragment
  match outcome.result with
  | .error _ => (outcome, draft)
  | .ok defined => (outcome, { draft with fragments := draft.fragments ++ [defined] })

/-- Names in a document are distinct, and an anonymous operation is alone in it. -/
def nameError? (draft : DocumentDraft) (name : Option String) : Option BuildError :=
  match name with
  | none => if draft.operations.isEmpty then none else some .anonymousOperationInDocument
  | some name =>
    if draft.operations.any (·.name.isNone) then some .anonymousOperationInDocument
    else if draft.operations.any (·.name == some name) then some (.duplicateOperationName name)
    else none

/-- Takes over fragments one after the other. One that is there already must be the same; at a
different one of its name the fragments taken over so far stay. -/
def addFragments (draft : DocumentDraft) : List Fragment → Except BuildError Unit × DocumentDraft
  | [] => (.ok (), draft)
  | fragment :: rest =>
    match draft.fragment? fragment.name with
    | some found =>
      if found.same fragment then addFragments draft rest
      else (.error (.duplicateFragmentName fragment.name), draft)
    | none => addFragments { draft with fragments := draft.fragments ++ [fragment] } rest

def addOperation (draft : DocumentDraft) (operation : Operation) :
    Except BuildError Unit × DocumentDraft :=
  match draft.nameError? operation.name with
  | some e => (.error e, draft)
  | none =>
    match draft.addFragments operation.fragments with
    | (.error e, draft) => (.error e, draft)
    | (.ok (), draft) => (.ok (), { draft with operations := draft.operations ++ [operation] })

def document (draft : DocumentDraft) : Document := ⟨draft.operations, draft.fragments⟩

end DocumentDraft

end GraphQLClient
