import GraphQLClient.CommandLine.Arguments

set_option autoImplicit false

/-!
# Usage and version

What is printed when the arguments name no command. `help` and `version` are answers; all other
texts are errors.
-/

namespace GraphQLClient

def versionText : String := "gqlc 0.1.0"

def usageLines : List String :=
  ["Usage: gqlc [-v|--verbose] <command>", "",
    "  check <bundle>                    look for names of types that the bundle does not hold",
    "  types <bundle> [-k|--kind <kind>] list the types of a bundle",
    "  node <bundle> <type> <id> [-f|--field <field>]... [--track] [--url <url>]",
    "                                    make the query for an object by its id",
    "  version                           print the version"]

namespace UsageError

def message : UsageError → String
  | .help | .nothingGiven => "\n".intercalate usageLines
  | .version => versionText
  | .missingCommand => "error: a command is missing"
  | .unknownCommand => "error: there is no such command"
  | .unknownArgument => "error: unexpected argument"
  | .missingArgument => "error: an argument is missing"
  | .repeatedArgument => "error: an argument is given more than once"
  | .invalidValue => "error: an option has no value, or one that is not allowed"
  | .unexpectedValue => "error: an option takes no value"

/-- What was asked for is no error. -/
def isAnswer (e : UsageError) : Bool := e == .help || e == .version

/-- The exit code. -/
def code (e : UsageError) : Nat := if e.isAnswer then 0 else 2

end UsageError

end GraphQLClient
