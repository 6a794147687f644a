import GraphQLClient.Json.Reader

set_option autoImplicit false

/-!
# Reading records from JSON

A record has known fields in a fixed order. It is written as an object, where unknown keys are
ignored and a known key must not come twice, or as an array of its fields in order, which may stop
early but not go on. A map has keys of its own; a key that comes again keeps its place and takes the
last value.
-/

namespace GraphQLClient

/-- The parts of a record in the order of its fields, `none` where one is missing. -/
structure Record where
  /-- The record was written as an array. -/
  positional : Bool
  parts : List (Option Written)

namespace Written

def str? : Written → Option String
  | .str value => value
  | _ => none

def bool? : Written → Option Bool
  | .bool value => some value
  | _ => none

def arr? : Written → Option (List Written)
  | .arr items => some items
  | _ => none

/-- The entries of an object whose keys all have values. -/
def obj? : Written → Option (List (String × Written))
  | .obj entries => entries.mapM fun (key, item) => key.map fun key => (key, item)
  | _ => none

def record? (names : List String) : Written → Option Record
  | .arr items =>
    if items.length ≤ names.length then some ⟨true, (List.range names.length).map (items[·]?)⟩
    else none
  | .obj entries =>
    match obj? (.obj entries) with
    | none => none
    | some entries =>
      if names.all fun name => (entries.filter (·.1 == name)).length ≤ 1 then
        some ⟨false, names.map (Keyed.find? · entries)⟩
      else none
  | _ => none

variable {α : Type}

def list? (read : Written → Option α) (written : Written) : Option (List α) :=
  written.arr?.bind (·.mapM read)

def namedValues? (read : Written → Option α) (entries : List (String × Written)) :
    Option (List (String × α)) :=
  entries.mapM fun entry => (read entry.2).map fun value => (entry.1, value)

def map? (read : Written → Option α) (written : Written) : Option (List (String × α)) :=
  (written.obj?.bind (namedValues? read)).map Keyed.ofList

/-- `null` stands for no value. -/
def optional? (read : Written → Option α) : Written → Option (Option α)
  | .null => some none
  | written => (read written).map some

/-- One of several names: a text, or an object with that key alone and `null` for it. -/
def name? : Written → Option String
  | .str value => value
  | .obj [(key, .null)] => key
  | _ => none

/-- A missing part stands for `fallback`. -/
def orElse (fallback : α) (read : Written → Option α) : Option Written → Option α
  | none => some fallback
  | some written => read written

end Written

end GraphQLClient
