import GraphQLClient.Building.Error
import GraphQLClient.Language.Operation
import GraphQLClient.Schema.Bundle

set_option autoImplicit false

/-!
# Drafts of selection sets

A draft holds the selections made so far. Beside them it keeps what the caller may want to know
afterwards: the types that were visited, in order, and a journal of the steps. Both only grow, also
through steps that fail, and no step looks at them.
-/

namespace GraphQLClient

/-- The kinds of builder steps. -/
inductive StepKind where
  | field
  | object
  | connection
  | fragmentOn
  | spread
  | selection
  | extend
  | attempt
deriving DecidableEq, Repr

/-- What the journal says of a step: its kind, the type it selected on, how many selections stood
there afterwards, and its error. A snapshot keeps the selections themselves. -/
inductive JournalEntry where
  | step (kind : StepKind) (typeName : String) (count : Nat) (error : Option BuildError)
  | snapshot (type : TypeDescriptor) (selections : List Selection)

structure Draft where
  selections : List Selection
  visits : List String
  journal : List JournalEntry

namespace Draft

def empty : Draft := ⟨[], [], []⟩

end Draft

/-- A computation on a draft. An error leaves the draft as it stands at that moment. -/
abbrev Building := ExceptT BuildError (StateM Draft)

namespace Building

variable {α : Type}

/-- The value of a check, or its error. -/
def checked (result : Except BuildError α) : Building α := fun draft => (result, draft)

def visit (typeName : String) : Building Unit :=
  modify fun draft => { draft with visits := draft.visits ++ [typeName] }

def note (entry : JournalEntry) : Building Unit :=
  modify fun draft => { draft with journal := draft.journal ++ [entry] }

def selections : Building (List Selection) := do return (← get).selections

def push (selection : Selection) : Building Unit :=
  modify fun draft => { draft with selections := draft.selections ++ [selection] }

/-- Runs `body` on a fresh set of selections and returns that set; the selections of the draft stay
as they are. -/
def nested (body : Building Unit) : Building (List Selection) := fun draft =>
  let (result, inner) := body.run { draft with selections := [] }
  (result.map fun _ => inner.selections, { inner with selections := draft.selections })

/-- Runs `body` and keeps its error as a value. -/
def caught (body : Building Unit) : Building (Option BuildError) := fun draft =>
  match body.run draft with
  | (.ok (), draft) => (.ok none, draft)
  | (.error e, draft) => (.ok (some e), draft)

/-- Writes a step into the journal when it is over, and passes its error on. -/
def journaled (kind : StepKind) (typeName : String) (body : Building Unit) : Building Unit := do
  let error ← caught body
  note (.step kind typeName (← selections).length error)
  match error with
  | none => pure ()
  | some e => throw e

end Building

end GraphQLClient
