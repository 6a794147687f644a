import GraphQLClient.CommandLine.Run

set_option autoImplicit false

/-!
# The program

Reads the file that a command names, runs the command and prints what it leaves behind. There are no
sockets here, so an endpoint cannot be reached.
-/

open GraphQLClient

/-- Nobody answers. -/
def unreachableWire : Wire := ⟨[], none, some (.connect, "no network")⟩

/-- System errors are numbered upwards or downwards from zero. -/
def systemCode (code : UInt32) : Nat := min code.toNat (UInt32.size - code.toNat)

def pathError? : IO.Error → Option PathError
  | .noFileOrDirectory _ code _ | .inappropriateType _ code _ | .invalidArgument _ code _ =>
    PathError.ofCode? (systemCode code)
  | _ => none

def readReason (e : IO.Error) : String :=
  match pathError? e with
  | some known => known.message
  | none => toString e

def readBundleFile (path : Option String) : IO (Except String String) := do
  match path with
  | none => return .error ""
  | some path =>
    try
      return .ok (← IO.FS.readFile path)
    catch e =>
      return .error (readReason e)

def main (arguments : List String) : IO UInt32 := do
  match Invocation.ofWords arguments with
  | .error e =>
    if e.isAnswer then IO.println e.message else IO.eprintln e.message
    return e.code.toUInt32
  | .ok invocation =>
    let file ← readBundleFile invocation.command.path?
    let outcome := invocation.run file unreachableWire
    IO.print (joinLines outcome.output)
    IO.eprint (joinLines outcome.errors)
    match outcome.result with
    | .ok code => return code.toUInt32
    | .error message =>
      IO.eprintln ("Error: " ++ message)
      return 1
