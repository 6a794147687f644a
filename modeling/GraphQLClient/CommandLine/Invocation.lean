import GraphQLClient.CommandLine.Arguments
import GraphQLClient.Schema.Descriptor

set_option autoImplicit false

/-!
# Command lines

A command line is a command with its own arguments behind it. Whether to be verbose may be said
before the command and among its arguments, at most once at each place.
-/

namespace GraphQLClient

/-- What to do with the bundle in a file. -/
inductive Command where
  | check (path : String)
  | types (path : String) (kind : Option TypeKind)
  | node (path typeName id : String) (fields : List String) (track : Bool) (url : Option String)
  | version
deriving DecidableEq, Repr, Inhabited

/-- The file that a command reads. -/
def Command.path? : Command → Option String
  | .check path => some path
  | .types path _ => some path
  | .node path _ _ _ _ _ => some path
  | .version => none

/-- The names of the kinds of types in arguments. -/
def kindNames : List (String × TypeKind) :=
  [("object", .object), ("interface", .interface), ("union", .union), ("enum", .enum),
    ("scalar", .scalar), ("input", .inputObject)]

inductive CommandName where
  | check
  | types
  | node
  | version
deriving DecidableEq, Repr

namespace CommandName

def all : List CommandName := [.check, .types, .node, .version]

def text : CommandName → String
  | .check => "check"
  | .types => "types"
  | .node => "node"
  | .version => "version"

def ofText? (text : String) : Option CommandName := all.find? (·.text == text)

def verboseOption : OptionSpec := ⟨some 'v', "verbose", .switch "verbose"⟩

def helpOption : OptionSpec := ⟨some 'h', "help", .help⟩

def options : CommandName → List OptionSpec
  | .check => []
  | .types => [⟨some 'k', "kind", .value (.oneOf "kind" (Keyed.names kindNames))⟩]
  | .node =>
    [⟨some 'f', "field", .value (.many "field")⟩, ⟨none, "track", .switch "track"⟩,
      ⟨none, "url", .value (.any "url")⟩]
  | .version => []

def places : CommandName → List ArgumentSpec
  | .check | .types => [.nonEmpty "bundle"]
  | .node => [.nonEmpty "bundle", .any "type", .any "id"]
  | .version => []

def spec (name : CommandName) : ArgumentsSpec :=
  ⟨name.options ++ [verboseOption, helpOption], name.places⟩

/-- The command that its arguments make. -/
def command (name : CommandName) (arguments : Reading) : Command :=
  let text (argument : String) : String := (arguments.value? argument).getD ""
  match name with
  | .check => .check (text "bundle")
  | .types =>
    .types (text "bundle") ((arguments.value? "kind").bind fun kind => Keyed.find? kind kindNames)
  | .node =>
    .node (text "bundle") (text "type") (text "id") (arguments.values "field")
      (arguments.has "track") (arguments.value? "url")
  | .version => .version

end CommandName

structure Invocation where
  verbose : Bool
  command : Command
deriving DecidableEq, Repr, Inhabited

namespace Invocation

/-- What may stand before the command. -/
def leadingSpec : ArgumentsSpec :=
  ⟨[CommandName.verboseOption, CommandName.helpOption, ⟨some 'V', "version", .version⟩], []⟩

def helpWord : String := "help"

def isCommandWord (word : String) : Bool := word == helpWord || (CommandName.ofText? word).isSome

/-- Help may be asked for one command. -/
def helpFor : List String → UsageError
  | [] => .help
  | [word] => if isCommandWord word then .help else .unknownCommand
  | _ => .unknownCommand

def withoutCommand (leading : Reading) : UsageError :=
  if leading.given.isEmpty then .nothingGiven else .missingCommand

/-- After `--` there is no command any more. -/
def behindDashes (leading : Reading) : List String → UsageError
  | [] => withoutCommand leading
  | word :: _ => if isCommandWord word then .unknownArgument else .unknownCommand

def ofCommand (leading : Reading) (name : CommandName) (words : List String) :
    Except UsageError Invocation :=
  (Reading.ofWords name.spec words).map fun arguments =>
    ⟨leading.has "verbose" || arguments.has "verbose", name.command arguments⟩

def readFrom (leading : Reading) : List String → Except UsageError Invocation
  | [] => .error (withoutCommand leading)
  | word :: rest =>
    match CommandName.ofText? word with
    | some name => ofCommand leading name rest
    | none =>
      if word = helpWord then .error (helpFor rest)
      else
        match WordForm.ofWord word with
        | .plain => .error .unknownCommand
        | .dashes => .error (behindDashes leading rest)
        | .long name attached => (leading.takeLong leadingSpec name attached).bind (readFrom · rest)
        | .letters text => (leading.takeLetters leadingSpec text).bind (readFrom · rest)

/-- Reads the words behind the name of the program. -/
def ofWords (words : List String) : Except UsageError Invocation :=
  readFrom (.start leadingSpec) words

end Invocation

end GraphQLClient
