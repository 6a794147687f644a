import GraphQLClient.Keyed

set_option autoImplicit false

/-!
# Argument values

Values of arguments, defaults and directives. Two values are the same (`Value.same`) when they agree
part by part, floats by their numbers and object fields in any order; a value with a NaN in it is
not even the same as itself.
-/

namespace GraphQLClient

inductive Value where
  | null
  | boolean (value : Bool)
  | int (value : Int)
  | float (value : Float)
  | string (value : String)
  | enum (name : String)
  | list (items : List Value)
  | object (fields : List (String × Value))
  | var (name : String)
deriving Inhabited

namespace Value

mutual
/-- Every use of a variable, in order. -/
def variableUses : Value → List String
  | .var name => [name]
  | .list items => usesInItems items
  | .object fields => usesInFields fields
  | _ => []

def usesInItems : List Value → List String
  | [] => []
  | item :: rest => variableUses item ++ usesInItems rest

def usesInFields : List (String × Value) → List String
  | [] => []
  | (_, value) :: rest => variableUses value ++ usesInFields rest
end

/-- The variables of a value in the order of first use. -/
def references (value : Value) : List String := value.variableUses.eraseDups

mutual
/-- No NaN and no infinity anywhere in the value: those cannot be written in a query. -/
def isFinite : Value → Bool
  | .float x => x.isFinite
  | .list items => finiteItems items
  | .object fields => finiteFields fields
  | _ => true

def finiteItems : List Value → Bool
  | [] => true
  | item :: rest => isFinite item && finiteItems rest

def finiteFields : List (String × Value) → Bool
  | [] => true
  | (_, value) :: rest => isFinite value && finiteFields rest
end

mutual
def same : Value → Value → Bool
  | .null, .null => true
  | .boolean a, .boolean b => a == b
  | .int a, .int b => a == b
  | .float a, .float b => a == b
  | .string a, .string b => a == b
  | .enum a, .enum b => a == b
  | .list a, .list b => sameItems a b
  | .object a, .object b => a.length == b.length && sameFields a b
  | .var a, .var b => a == b
  | _, _ => false

def sameItems : List Value → List Value → Bool
  | [], [] => true
  | a :: rest, b :: others => same a b && sameItems rest others
  | _, _ => false

/-- Each entry has an equal one of the same name among `others`. -/
def sameFields : List (String × Value) → List (String × Value) → Bool
  | [], _ => true
  | (name, a) :: rest, others =>
    (match Keyed.find? name others with
      | some b => same a b
      | none => false) && sameFields rest others
end

/-- The same arguments, in any order. -/
def sameArguments (a b : List (String × Value)) : Bool :=
  a.length == b.length && sameFields a b

end Value

end GraphQLClient
