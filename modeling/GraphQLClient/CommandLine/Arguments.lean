import GraphQLClient.Keyed

set_option autoImplicit false

/-!
# Reading arguments

A command takes words in fixed places and options. A long option is `--name`, `--name value` or
`--name=value`; short ones are letters that may stand together behind one dash, where the first that
takes a value takes the rest of the word. After `--` all words stand in places. A word that begins
with a dash is never the value of the option before it.

A value is looked at when the next argument is understood or when all words are read. So a word that
is not understood is refused first, whatever stands before it.
-/

namespace GraphQLClient

/-- Why words name nothing to run. The first two are no mistakes. -/
inductive UsageError where
  | help
  | version
  | nothingGiven
  | missingCommand
  | unknownCommand
  | unknownArgument
  | missingArgument
  /-- An argument that may be given once is given again. -/
  | repeatedArgument
  /-- A value is missing, or it is none of those allowed. -/
  | invalidValue
  /-- A value is attached to an option that takes none. -/
  | unexpectedValue
deriving DecidableEq, Repr

/-- An argument with a value. -/
structure ArgumentSpec where
  name : String
  accepts : String → Bool
  repeatable : Bool

namespace ArgumentSpec

/-- Any text, at most once. -/
def any (name : String) : ArgumentSpec := ⟨name, fun _ => true, false⟩

def nonEmpty (name : String) : ArgumentSpec := ⟨name, fun text => !text.isEmpty, false⟩

def oneOf (name : String) (values : List String) : ArgumentSpec := ⟨name, values.contains, false⟩

/-- Any text, any number of times. -/
def many (name : String) : ArgumentSpec := ⟨name, fun _ => true, true⟩

end ArgumentSpec

inductive OptionAction where
  | help
  | version
  | switch (name : String)
  | value (argument : ArgumentSpec)

structure OptionSpec where
  short : Option Char
  long : String
  action : OptionAction

/-- What a command understands. -/
structure ArgumentsSpec where
  options : List OptionSpec
  places : List ArgumentSpec

namespace ArgumentsSpec

def short? (spec : ArgumentsSpec) (letter : Char) : Option OptionAction :=
  (spec.options.find? (·.short == some letter)).map (·.action)

def long? (spec : ArgumentsSpec) (name : String) : Option OptionAction :=
  (spec.options.find? (·.long == name)).map (·.action)

end ArgumentsSpec

/-- What was understood last, as long as its value is not looked at. -/
inductive Pending where
  | nothing
  | awaiting (argument : ArgumentSpec)
  | given (argument : ArgumentSpec) (text : String)

/-- The state of reading: the arguments understood so far with their values, and the places still
free. A switch has an empty value. -/
structure Reading where
  given : List (String × String)
  pending : Pending
  places : List ArgumentSpec

namespace Reading

def start (spec : ArgumentsSpec) : Reading := ⟨[], .nothing, spec.places⟩

def has (reading : Reading) (name : String) : Bool := Keyed.contains name reading.given

def value? (reading : Reading) (name : String) : Option String := Keyed.find? name reading.given

/-- All values of a repeatable argument. -/
def values (reading : Reading) (name : String) : List String :=
  (reading.given.filter (·.1 == name)).map Prod.snd

def accept (reading : Reading) (argument : ArgumentSpec) (text : String) :
    Except UsageError Reading :=
  if reading.has argument.name && !argument.repeatable then .error .repeatedArgument
  else if argument.accepts text then
    .ok { reading with given := reading.given ++ [(argument.name, text)], pending := .nothing }
  else .error .invalidValue

/-- Looks at the pending value. -/
def settle (reading : Reading) : Except UsageError Reading :=
  match reading.pending with
  | .nothing => .ok reading
  | .awaiting _ => .error .invalidValue
  | .given argument text => reading.accept argument text

def setSwitch (reading : Reading) (name : String) : Except UsageError Reading :=
  match reading.settle with
  | .error e => .error e
  | .ok reading =>
    if reading.has name then .error .repeatedArgument
    else .ok { reading with given := reading.given ++ [(name, "")] }

/-- Takes an option with the value attached to it, or one whose value is the next word. -/
def takeOption (reading : Reading) (argument : ArgumentSpec) (attached : Option String) :
    Except UsageError Reading :=
  match reading.settle with
  | .error e => .error e
  | .ok reading =>
    match attached with
    | some text => reading.accept argument text
    | none => .ok { reading with pending := .awaiting argument }

/-- Nothing behind an option that asks for help or for the version is read. -/
def stop (reading : Reading) (reason : UsageError) : Except UsageError Reading :=
  match reading.settle with
  | .error e => .error e
  | .ok _ => .error reason

/-- Puts a word in the next free place. -/
def takePlace (reading : Reading) (word : String) : Except UsageError Reading :=
  match reading.places with
  | [] => .error .unknownArgument
  | place :: rest =>
    match reading.settle with
    | .error e => .error e
    | .ok reading => .ok { reading with pending := .given place word, places := rest }

/-- A word that is no option is the value awaited, or stands in a place. -/
def takeWord (reading : Reading) (word : String) : Except UsageError Reading :=
  match reading.pending with
  | .awaiting argument => .ok { reading with pending := .given argument word }
  | _ => reading.takePlace word

def takeLong (spec : ArgumentsSpec) (reading : Reading) (name : String)
    (attached : Option String) : Except UsageError Reading :=
  match spec.long? name, attached with
  | none, _ => .error .unknownArgument
  | some (.value argument), _ => reading.takeOption argument attached
  | some _, some _ => .error .unexpectedValue
  | some .help, none => reading.stop .help
  | some .version, none => reading.stop .version
  | some (.switch name), none => reading.setSwitch name

/-- The value behind the letter of an option; an equals sign may stand between them. -/
def attached? : List Char → Option String
  | [] => none
  | '=' :: text => some (String.ofList text)
  | text => some (String.ofList text)

def takeLetters (spec : ArgumentsSpec) (reading : Reading) :
    List Char → Except UsageError Reading
  | [] => .ok reading
  | letter :: rest =>
    match spec.short? letter with
    | none => .error .unknownArgument
    | some (.value argument) => reading.takeOption argument (attached? rest)
    | some .help => reading.stop .help
    | some .version => reading.stop .version
    | some (.switch name) =>
      match reading.setSwitch name with
      | .error e => .error e
      | .ok reading => takeLetters spec reading rest

end Reading

/-- The form of a word. -/
inductive WordForm where
  | plain
  | dashes
  | long (name : String) (attached : Option String)
  | letters (letters : List Char)
deriving DecidableEq, Repr

namespace WordForm

def ofLong (text : List Char) : WordForm :=
  match text.dropWhile (· ≠ '=') with
  | _ :: attached =>
    .long (String.ofList (text.takeWhile (· ≠ '='))) (some (String.ofList attached))
  | [] => .long (String.ofList text) none

/-- A lone dash is a plain word. -/
def ofChars : List Char → WordForm
  | ['-', '-'] => .dashes
  | '-' :: '-' :: text => ofLong text
  | ['-'] => .plain
  | '-' :: text => .letters text
  | _ => .plain

def ofWord (word : String) : WordForm := ofChars word.toList

end WordForm

namespace Reading

def takeWords (spec : ArgumentsSpec) (reading : Reading) :
    List String → Except UsageError Reading
  | [] => .ok reading
  | word :: rest =>
    match WordForm.ofWord word with
    | .dashes => rest.foldlM takePlace reading
    | .plain => (reading.takeWord word).bind (takeWords spec · rest)
    | .long name attached => (reading.takeLong spec name attached).bind (takeWords spec · rest)
    | .letters text => (reading.takeLetters spec text).bind (takeWords spec · rest)

/-- All words of a command are read and every place is taken. -/
def ofWords (spec : ArgumentsSpec) (words : List String) : Except UsageError Reading :=
  match (takeWords spec (start spec) words).bind settle with
  | .error e => .error e
  | .ok reading => if reading.places.isEmpty then .ok reading else .error .missingArgument

end Reading

end GraphQLClient
