import GraphQLClient.Language.Value

set_option autoImplicit false

/-!
# Selections

A selection set names the type it selects on and lists its selections: leaf fields, composite fields
with a set of their own, inline fragments, and spreads of named fragments. A spread holds the whole
definition of its fragment.

Every fragment definition has a serial number of its own. Two spreads with one serial share a single
definition, which is more than having equal ones; nothing but the decoding of merged fields looks at
serials, and `Selection.same` does not.
-/

namespace GraphQLClient

structure Field where
  name : String
  aliasName : Option String
  arguments : List (String × Value)
  /-- The field was selected as a connection, with its `edges` and `pageInfo`. -/
  connection : Bool
deriving Inhabited

namespace Field

/-- The key under which a response answers the field. -/
def responseKey (field : Field) : String := field.aliasName.getD field.name

def same (a b : Field) : Bool :=
  a.name == b.name && a.aliasName == b.aliasName && Value.sameArguments a.arguments b.arguments &&
    a.connection == b.connection

end Field

/-- The field that every composite type answers with its name. -/
def typenameField : String := "__typename"

inductive Selection where
  | leaf (field : Field)
  | composite (field : Field) (typeName : String) (selections : List Selection)
  | inlineFragment (condition : String) (typeName : String) (selections : List Selection)
  | spread (serial : Nat) (name : String) (condition : String) (typeName : String)
      (selections : List Selection)
deriving Inhabited

structure SelectionSet where
  typeName : String
  selections : List Selection
deriving Inhabited

/-- A named fragment, shared by the operations of a document. -/
structure Fragment where
  serial : Nat
  name : String
  condition : String
  set : SelectionSet
deriving Inhabited

namespace Selection

def field? : Selection → Option Field
  | .leaf field => some field
  | .composite field _ _ => some field
  | _ => none

/-- The set below a composite field. -/
def fieldSet? : Selection → Option SelectionSet
  | .composite _ typeName selections => some ⟨typeName, selections⟩
  | _ => none

def ofFragment (fragment : Fragment) : Selection :=
  .spread fragment.serial fragment.name fragment.condition fragment.set.typeName
    fragment.set.selections

/-- A field with a set below it, or without one. -/
def ofField (field : Field) : Option SelectionSet → Selection
  | none => .leaf field
  | some set => .composite field set.typeName set.selections

def answers (key : String) (selection : Selection) : Bool :=
  match selection.field? with
  | some field => field.responseKey == key
  | none => false

mutual
def same : Selection → Selection → Bool
  | .leaf a, .leaf b => a.same b
  | .composite a type selections, .composite b type' selections' =>
    a.same b && type == type' && sameAll selections selections'
  | .inlineFragment condition type selections, .inlineFragment condition' type' selections' =>
    condition == condition' && type == type' && sameAll selections selections'
  | .spread _ name condition type selections, .spread _ name' condition' type' selections' =>
    name == name' && condition == condition' && type == type' && sameAll selections selections'
  | _, _ => false

def sameAll : List Selection → List Selection → Bool
  | [], [] => true
  | a :: rest, b :: others => same a b && sameAll rest others
  | _, _ => false
end

mutual
/-- Every use of a variable in arguments, in order, the bodies of spread fragments included. -/
def variableUses : Selection → List String
  | .leaf field => Value.usesInFields field.arguments
  | .composite field _ selections => Value.usesInFields field.arguments ++ usesInAll selections
  | .inlineFragment _ _ selections => usesInAll selections
  | .spread _ _ _ _ selections => usesInAll selections

def usesInAll : List Selection → List String
  | [] => []
  | selection :: rest => variableUses selection ++ usesInAll rest
end

mutual
/-- Adds the fragments spread in a selection to those found before. The body of a fragment is looked
at where its name is met for the first time. -/
def addFragments (found : List Fragment) : Selection → List Fragment
  | .leaf _ => found
  | .composite _ _ selections => addFragmentsOfAll found selections
  | .inlineFragment _ _ selections => addFragmentsOfAll found selections
  | .spread serial name condition typeName selections =>
    if found.any (·.name == name) then found
    else addFragmentsOfAll (found ++ [⟨serial, name, condition, ⟨typeName, selections⟩⟩]) selections

def addFragmentsOfAll (found : List Fragment) : List Selection → List Fragment
  | [] => found
  | selection :: rest => addFragmentsOfAll (addFragments found selection) rest
end

end Selection

namespace SelectionSet

def isEmpty (set : SelectionSet) : Bool := set.selections.isEmpty

/-- The first field selected directly that answers to `key`. -/
def find? (set : SelectionSet) (key : String) : Option Selection :=
  set.selections.find? (Selection.answers key)

/-- The set below the first field that answers to `key`. -/
def below? (set : SelectionSet) (key : String) : Option SelectionSet :=
  (set.find? key).bind Selection.fieldSet?

/-- The set of the nodes in the set of a connection. -/
def nodeSet? (set : SelectionSet) : Option SelectionSet :=
  (set.below? "edges").bind (·.below? "node")

def references (set : SelectionSet) : List String :=
  (Selection.usesInAll set.selections).eraseDups

/-- The fragments spread anywhere below, in the order of first use. -/
def fragments (set : SelectionSet) : List Fragment :=
  Selection.addFragmentsOfAll [] set.selections

end SelectionSet

namespace Selection

/-- The set of the nodes of a field that was selected as a connection. -/
def connectionNodeSet? (selection : Selection) : Option SelectionSet :=
  match selection with
  | .composite field typeName selections =>
    if field.connection then SelectionSet.nodeSet? ⟨typeName, selections⟩ else none
  | _ => none

end Selection

/-- The same name, condition and body, wherever the fragments were defined. -/
def Fragment.same (a b : Fragment) : Bool :=
  (Selection.ofFragment a).same (Selection.ofFragment b)

end GraphQLClient
