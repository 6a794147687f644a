import GraphQLClient.Building.Scope

set_option autoImplicit false

/-!
# Builder programs

A program is a list of steps on one scope; composite steps carry the programs of the sets below
them. Steps run in order and the first error ends a program, unless the step is only attempted.
-/

namespace GraphQLClient

inductive Step where
  | field (name : String) (options : FieldOptions)
  | object (name : String) (options : FieldOptions) (body : List Step)
  | connection (name : String) (options : FieldOptions) (body : List Step)
  | fragmentOn (typeName : String) (body : List Step)
  | spread (fragment : Fragment)
  | selection (made : Selection)
  | extend (set : SelectionSet)
  /-- Runs a step and goes on after its error. -/
  | attempt (step : Step)
  /-- Only writes the selections made so far into the journal. -/
  | snapshot
deriving Inhabited

namespace Step

open Building

mutual
def run (scope : Scope) : Step → Building Unit
  | .field name options => journaled .field scope.type.name (scope.addField name options)
  | .object name options body =>
    journaled .object scope.type.name (scope.addObject name options fun child => runAll child body)
  | .connection name options body =>
    journaled .connection scope.type.name
      (scope.addConnection name options fun child => runAll child body)
  | .fragmentOn typeName body =>
    journaled .fragmentOn scope.type.name
      (scope.addFragmentOn typeName fun child => runAll child body)
  | .spread fragment => journaled .spread scope.type.name (scope.addSpread fragment)
  | .selection made => journaled .selection scope.type.name (scope.addSelection made)
  | .extend set => journaled .extend scope.type.name (scope.addSelections set.selections)
  | .attempt step =>
    journaled .attempt scope.type.name (do let _ ← caught (run scope step))
  | .snapshot => do note (.snapshot scope.type (← selections))

def runAll (scope : Scope) : List Step → Building Unit
  | [] => pure ()
  | step :: rest => do
    run scope step
    runAll scope rest
end

end Step

end GraphQLClient
