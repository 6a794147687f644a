import GraphQLClient.Language.Selection
import GraphQLClient.Schema.Bundle

set_option autoImplicit false

/-!
# Fields of an object

The selections on an object are flattened to the fields that apply to its concrete type, one group
per response key in the order of first occurrence. Fields of one response key are merged: the first
one gives name and arguments, and their sets are put one after the other.

A set that is met a second time under the same key is not put after itself. To tell a set from an
equal one, each set is known by its origin: the fragment definition it stands in, or the operation,
and the positions that lead to it there.
-/

namespace GraphQLClient

/-- Where a selection set stands. -/
structure Origin where
  /-- The serial number of the fragment; `none` is the operation. -/
  fragment : Option Nat
  path : List Nat
deriving DecidableEq, Repr, Inhabited

def Origin.child (origin : Origin) (index : Nat) : Origin :=
  { origin with path := origin.path ++ [index] }

/-- A selection set with its origin. -/
structure Part where
  origin : Origin
  set : SelectionSet
deriving Inhabited

namespace Part

def ofOperation (set : SelectionSet) : Part := ⟨⟨none, []⟩, set⟩

/-- Several sets as one; the first gives the type. -/
def merged (parts : List Part) : SelectionSet :=
  ⟨(parts.head?.map (·.set.typeName)).getD "", parts.flatMap (·.set.selections)⟩

/-- The first field that answers to `key`, with the origin of the set it may have. -/
def findIn? (key : String) (origin : Origin) (index : Nat) :
    List Selection → Option (Origin × Selection)
  | [] => none
  | selection :: rest =>
    if selection.answers key then some (origin.child index, selection)
    else findIn? key origin (index + 1) rest

/-- The set below the first field that answers to `key` in any of the parts. -/
def below? (parts : List Part) (key : String) : Option Part :=
  match parts.findSome? fun part => findIn? key part.origin 0 part.set.selections with
  | some (origin, selection) => selection.fieldSet?.map fun set => ⟨origin, set⟩
  | none => none

/-- The set of the nodes in the parts of a connection. -/
def nodes? (parts : List Part) : Option Part :=
  (below? parts "edges").bind fun edges => below? [edges] "node"

end Part

/-- The fields that answer to one response key; a leaf has no parts. -/
structure Collected where
  field : Field
  parts : List Part
deriving Inhabited

namespace Collected

def key (collected : Collected) : String := collected.field.responseKey

/-- Adds the set of a further field to a field found before. -/
def extend (found : Collected) (added : List Part) : Collected :=
  match found.parts, added with
  | [], _ => found
  | _, [] => found
  | [part], new =>
    if new.map (·.origin) = [part.origin] then found else { found with parts := part :: new }
  | parts, new => { found with parts := parts ++ new }

/-- Puts a field into the group of its response key. -/
def merge (field : Field) (added : List Part) : List Collected → List Collected
  | [] => [⟨field, added⟩]
  | first :: rest =>
    if first.key = field.responseKey then first.extend added :: rest
    else first :: merge field added rest

/-- A fragment applies to objects of the type it is on, and of those that this type can be. -/
def applies (bundle : Bundle) (condition : String) (type : TypeDescriptor) : Bool :=
  condition == type.name || (bundle.get? condition).any (·.canBe type.name)

mutual
/-- Adds the fields of a selection that stands at `origin`. -/
def add (bundle : Bundle) (type : TypeDescriptor) (origin : Origin) (found : List Collected) :
    Selection → List Collected
  | .leaf field => merge field [] found
  | .composite field typeName selections => merge field [⟨origin, ⟨typeName, selections⟩⟩] found
  | .inlineFragment condition _ selections =>
    if applies bundle condition type then addAll bundle type origin 0 found selections else found
  | .spread serial _ condition _ selections =>
    if applies bundle condition type then addAll bundle type ⟨some serial, []⟩ 0 found selections
    else found

def addAll (bundle : Bundle) (type : TypeDescriptor) (origin : Origin) (index : Nat)
    (found : List Collected) : List Selection → List Collected
  | [] => found
  | selection :: rest =>
    addAll bundle type origin (index + 1) (add bundle type (origin.child index) found selection) rest
end

/-- The fields that the parts select on an object of a concrete type. -/
def ofParts (bundle : Bundle) (type : TypeDescriptor) (parts : List Part) : List Collected :=
  parts.foldl (fun found part => addAll bundle type part.origin 0 found part.set.selections) []

end Collected

end GraphQLClient
