import GraphQLClient.Keyed

set_option autoImplicit false

/-!
# JSON values

Numbers keep the two readings that matter to a server apart: an integer of 64 bits is exact, every
other number is a 64-bit float. Objects are entries in order.
-/

namespace GraphQLClient

inductive Json where
  | null
  | bool (value : Bool)
  | int (value : Int)
  | float (value : Float)
  | str (value : String)
  | arr (items : List Json)
  | obj (entries : List (String × Json))
deriving Inhabited

namespace Json

def bool? : Json → Option Bool
  | .bool value => some value
  | _ => none

def str? : Json → Option String
  | .str value => some value
  | _ => none

def arr? : Json → Option (List Json)
  | .arr items => some items
  | _ => none

def obj? : Json → Option (List (String × Json))
  | .obj entries => some entries
  | _ => none

def isNull : Json → Bool
  | .null => true
  | _ => false

end Json

end GraphQLClient
