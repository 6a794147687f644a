import GraphQLClient.Json.Number

set_option autoImplicit false

/-!
# JSON as it is written

A text is first read into a tree that keeps what a value forgets: repeated keys, numbers beyond all
floats, escapes of half a surrogate pair, nesting of any depth. A reader of known structure looks
only at the parts it knows and skips the others unseen; `Written.value?` takes a whole tree to a
value and refuses a number or text without a value and nesting beyond a limit.
-/

namespace GraphQLClient

inductive Written where
  | null
  | bool (value : Bool)
  /-- `none` is a number that has no value. -/
  | number (value : Option Json)
  /-- `none` is a text that has no value. -/
  | str (value : Option String)
  | arr (items : List Written)
  | obj (entries : List (Option String × Written))
deriving Inhabited

namespace Written

/-- Arrays and objects may stand in each other this deep. -/
def depthLimit : Nat := 127

mutual
/-- The value of a tree that may nest `depth` arrays and objects. A repeated key keeps its place
and takes its last value. -/
def value? (depth : Nat) : Written → Option Json
  | .null => some .null
  | .bool b => some (.bool b)
  | .number n => n
  | .str s => s.map .str
  | .arr items =>
    match depth with
    | 0 => none
    | depth + 1 => (values? depth items).map .arr
  | .obj entries =>
    match depth with
    | 0 => none
    | depth + 1 => (entries? depth entries).map fun found => .obj (Keyed.ofList found)

def values? (depth : Nat) : List Written → Option (List Json)
  | [] => some []
  | item :: rest =>
    match value? depth item, values? depth rest with
    | some value, some others => some (value :: others)
    | _, _ => none

def entries? (depth : Nat) : List (Option String × Written) → Option (List (String × Json))
  | [] => some []
  | (key, item) :: rest =>
    match key, value? depth item, entries? depth rest with
    | some key, some value, some others => some ((key, value) :: others)
    | _, _, _ => none
end

mutual
/-- The tree of a value. -/
def ofJson : Json → Written
  | .null => .null
  | .bool b => .bool b
  | .int n => .number (some (.int n))
  | .float x => .number (some (.float x))
  | .str s => .str (some s)
  | .arr items => .arr (ofItems items)
  | .obj entries => .obj (ofEntries entries)

def ofItems : List Json → List Written
  | [] => []
  | item :: rest => ofJson item :: ofItems rest

def ofEntries : List (String × Json) → List (Option String × Written)
  | [] => []
  | (key, value) :: rest => (some key, ofJson value) :: ofEntries rest
end

end Written

end GraphQLClient
