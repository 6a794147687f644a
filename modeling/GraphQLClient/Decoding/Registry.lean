import GraphQLClient.Decoding.Model
import GraphQLClient.Text.Hidden

set_option autoImplicit false

/-!
# Classes for models

An application may register a class for a type; the models of exactly that concrete type are then
made into that class. A type has one class, the one registered last.
-/

namespace GraphQLClient

structure ClassRegistry where
  classes : List (String × String)
deriving DecidableEq, Repr, Inhabited

namespace ClassRegistry

def empty : ClassRegistry := ⟨[]⟩

def register (registry : ClassRegistry) (typeName className : String) : ClassRegistry :=
  ⟨Keyed.insert typeName className registry.classes⟩

def lookup? (registry : ClassRegistry) (typeName : String) : Option String :=
  Keyed.find? typeName registry.classes

def contains (registry : ClassRegistry) (typeName : String) : Bool :=
  (registry.lookup? typeName).isSome

def size (registry : ClassRegistry) : Nat := registry.classes.length

def isEmpty (registry : ClassRegistry) : Bool := registry.classes.isEmpty

/-- A hidden character is shown by its code. -/
def shownChar (c : Char) : List Char :=
  match c with
  | '"' => ['\\', '"']
  | '\\' => ['\\', '\\']
  | '\n' => ['\\', 'n']
  | '\r' => ['\\', 'r']
  | '\t' => ['\\', 't']
  | '\x00' => ['\\', '0']
  | c => if Text.isHidden c then ['\\', 'u', '{'] ++ Nat.toDigits 16 c.toNat ++ ['}'] else [c]

def shownName (name : String) : String :=
  String.ofList ('"' :: name.toList.flatMap shownChar ++ ['"'])

/-- The registered types in order of their names. -/
def text (registry : ClassRegistry) : String :=
  let names := (Keyed.names (Keyed.sortByName registry.classes)).map shownName
  "ClassRegistry \x7b types: [" ++ ", ".intercalate names ++ "] \x7d"

end ClassRegistry

end GraphQLClient
