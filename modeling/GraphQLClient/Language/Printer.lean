import GraphQLClient.Language.Operation
import GraphQLClient.Json.Printer

set_option autoImplicit false

/-!
# The text of operations

One line per definition, single spaces between selections, texts and floats as in JSON. An operation
is followed by the fragments it spreads, so that it can be sent on its own; a document writes its
operations and then its fragments. A context directive comes after the operation's own directives.
-/

namespace GraphQLClient

namespace Value

mutual
def text : Value → String
  | .null => "null"
  | .boolean true => "true"
  | .boolean false => "false"
  | .int n => toString n
  | .float x => Json.floatText x
  | .string s => Json.quoted s
  | .enum name => name
  | .list items => "[" ++ itemsText items ++ "]"
  | .object fields => "\x7b" ++ fieldsText fields ++ "\x7d"
  | .var name => "$" ++ name

def itemsText : List Value → String
  | [] => ""
  | [item] => text item
  | item :: rest => text item ++ ", " ++ itemsText rest

def fieldsText : List (String × Value) → String
  | [] => ""
  | [(name, value)] => name ++ ": " ++ text value
  | (name, value) :: rest => name ++ ": " ++ text value ++ ", " ++ fieldsText rest
end

/-- Arguments in parentheses; none at all leave nothing. -/
def argumentsText (arguments : List (String × Value)) : String :=
  if arguments.isEmpty then "" else "(" ++ fieldsText arguments ++ ")"

end Value

namespace Field

def text (field : Field) : String :=
  (match field.aliasName with
    | some label => label ++ ": "
    | none => "") ++ field.name ++ Value.argumentsText field.arguments

end Field

namespace Selection

mutual
def text : Selection → String
  | .leaf field => field.text
  | .composite field _ selections => field.text ++ " " ++ setText selections
  | .inlineFragment condition _ selections => "... on " ++ condition ++ " " ++ setText selections
  | .spread _ name _ _ _ => "..." ++ name

/-- Selections in braces. -/
def setText (selections : List Selection) : String :=
  "\x7b" ++ listText selections ++ " \x7d"

def listText : List Selection → String
  | [] => ""
  | selection :: rest => " " ++ text selection ++ listText rest
end

end Selection

def SelectionSet.text (set : SelectionSet) : String := Selection.setText set.selections

namespace VariableDefinition

def text (definition : VariableDefinition) : String :=
  "$" ++ definition.name ++ ": " ++ definition.type.text ++
    match definition.defaultValue with
    | some value => " = " ++ value.text
    | none => ""

def listText : List VariableDefinition → String
  | [] => ""
  | [one] => one.text
  | one :: rest => one.text ++ ", " ++ listText rest

end VariableDefinition

def Directive.text (directive : Directive) : String :=
  "@" ++ directive.name ++ Value.argumentsText directive.arguments

def Fragment.text (fragment : Fragment) : String :=
  "fragment " ++ fragment.name ++ " on " ++ fragment.condition ++ " " ++ fragment.set.text

namespace Operation

/-- Keyword, name and variables. -/
def headText (operation : Operation) : String :=
  operation.kind.keyword ++
    (match operation.name with
      | some name => " " ++ name
      | none => if operation.declarations.isEmpty then "" else " ") ++
    if operation.declarations.isEmpty then ""
    else "(" ++ VariableDefinition.listText operation.declarations ++ ")"

def directivesText : List Directive → String
  | [] => ""
  | directive :: rest => " " ++ directive.text ++ directivesText rest

/-- The definition of the operation, without the fragments. -/
def definitionText (operation : Operation) (context : Option Directive) : String :=
  operation.headText ++ directivesText (operation.directives ++ context.toList) ++ " " ++
    operation.set.text

/-- The operation with all fragments it spreads. -/
def text (operation : Operation) (context : Option Directive) : String :=
  "\n".intercalate (operation.definitionText context :: operation.fragments.map Fragment.text)

end Operation

def Document.text (document : Document) (context : Option Directive) : String :=
  "\n".intercalate
    (document.operations.map (·.definitionText context) ++ document.fragments.map Fragment.text)

end GraphQLClient
