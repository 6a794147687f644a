import GraphQLClient.Decoding.Model
import GraphQLClient.Json.Printer

set_option autoImplicit false

/-!
# Decoded values in one line
-/

namespace GraphQLClient

def Model.summary (model : Model) : String :=
  match model.id? with
  | some id => model.type.name ++ " " ++ id
  | none => model.type.name

namespace Decoded

mutual
def summary : Decoded → String
  | .null => "null"
  | .scalar value => value.text
  | .object model => model.summary
  | .list items => "[" ++ summaries items ++ "]"
  | .connection nodes info _ =>
    toString nodes.length ++ " nodes" ++ if info.hasNext then ", more" else ""

def summaries : List Decoded → String
  | [] => ""
  | [item] => summary item
  | item :: rest => summary item ++ ", " ++ summaries rest
end

end Decoded

end GraphQLClient
