set_option autoImplicit false

/-!
# The working directory

A command reads a file by a path, one name after the other from the working directory or, for a path
that begins with a slash, from outside of it. A name must be looked up in a directory, so a file
ends a path, and a slash after a file is a name too many. Of what lies outside the working directory
only this is known: the directories above it exist, and the null device is an empty file.
-/

namespace GraphQLClient

/-- Why a path leads to no text. -/
inductive PathError where
  | notFound
  | notDirectory
  | isDirectory
  | nameTooLong
  | zeroCharacter
deriving DecidableEq, Repr

def PathError.message : PathError → String
  | .notFound => "No such file or directory (os error 2)"
  | .notDirectory => "Not a directory (os error 20)"
  | .isDirectory => "Is a directory (os error 21)"
  | .nameTooLong => "File name too long (os error 36)"
  | .zeroCharacter => "file name contained an unexpected NUL byte"

/-- The error with this number. -/
def PathError.ofCode? : Nat → Option PathError
  | 2 => some .notFound
  | 20 => some .notDirectory
  | 21 => some .isDirectory
  | 36 => some .nameTooLong
  | _ => none

/-- What a path has led to so far. -/
inductive Place where
  | file (text : String)
  | inside (names : List String)
  | outside
deriving DecidableEq, Repr

/-- The files of a directory and those below it, each with the names that lead to it. -/
structure WorkingDirectory where
  files : List (List String × String)
deriving DecidableEq, Repr, Inhabited

namespace WorkingDirectory

/-- The limit on a name, in bytes. -/
def nameLimit : Nat := 255

/-- The limit on a whole path, in bytes. -/
def pathLimit : Nat := 4095

def nullDevice : String := "/dev/null"

/-- An empty name, as between two slashes, and a dot lead to where they stand. -/
def staysAt (name : String) : Bool := name == "" || name == "."

def ofFiles (files : List (String × String)) : WorkingDirectory :=
  ⟨files.map fun (path, text) => ((path.splitOn "/").filter fun name => !staysAt name, text)⟩

/-- What `names` lead to from the working directory. -/
def lookup (directory : WorkingDirectory) (names : List String) : Except PathError Place :=
  match directory.files.lookup names with
  | some text => .ok (.file text)
  | none =>
    if directory.files.any fun file => names.isPrefixOf file.1 then .ok (.inside names)
    else .error .notFound

/-- Follows one name. -/
def follow (directory : WorkingDirectory) (place : Place) (name : String) :
    Except PathError Place :=
  match place with
  | .file _ => .error .notDirectory
  | place =>
    if staysAt name then .ok place
    else if nameLimit < name.utf8ByteSize then .error .nameTooLong
    else
      match place with
      | .inside names =>
        if name = ".." then .ok (if names.isEmpty then .outside else .inside names.dropLast)
        else directory.lookup (names ++ [name])
      | _ => if name = ".." then .ok .outside else .error .notFound

/-- The place that the names of a path lead to. -/
def walk (directory : WorkingDirectory) (path : String) : Except PathError Place :=
  (path.splitOn "/").foldlM directory.follow
    (if path.startsWith "/" then .outside else .inside [])

/-- The text of the file at a path. -/
def read (directory : WorkingDirectory) (path : String) : Except PathError String :=
  if path.contains '\x00' then .error .zeroCharacter
  else if path.isEmpty then .error .notFound
  else if pathLimit < path.utf8ByteSize then .error .nameTooLong
  else if path = nullDevice then .ok ""
  else
    match directory.walk path with
    | .ok (.file text) => .ok text
    | .ok _ => .error .isDirectory
    | .error e => .error e

/-- The text of the file at a path, or the message of the error. -/
def readText (directory : WorkingDirectory) (path : String) : Except String String :=
  (directory.read path).mapError PathError.message

end WorkingDirectory

end GraphQLClient
