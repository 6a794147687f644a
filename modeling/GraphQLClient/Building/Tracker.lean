set_option autoImplicit false

/-!
# Tracking the types in use

A tracker collects the names of visited types while it is active, so that a bundle can be cut down
to what an application asks for. The names are sorted and each is there once.
-/

namespace GraphQLClient

structure Tracker where
  active : Bool
  types : List String
deriving DecidableEq, Repr, Inhabited

namespace Tracker

def new : Tracker := ⟨false, []⟩

/-- Puts a name in its place among sorted names. -/
def insertSorted (name : String) : List String → List String
  | [] => [name]
  | first :: rest =>
    if name = first then first :: rest
    else if name < first then name :: first :: rest
    else first :: insertSorted name rest

def start (tracker : Tracker) : Tracker := { tracker with active := true }

/-- Stops collecting and keeps what was collected. -/
def pause (tracker : Tracker) : Tracker := { tracker with active := false }

/-- Forgets everything and stops collecting. -/
def reset (_ : Tracker) : Tracker := new

def record (tracker : Tracker) (name : String) : Tracker :=
  if tracker.active then { tracker with types := insertSorted name tracker.types } else tracker

def recordAll (tracker : Tracker) (names : List String) : Tracker := names.foldl record tracker

def line (tracker : Tracker) : String := ",".intercalate tracker.types

end Tracker

end GraphQLClient
