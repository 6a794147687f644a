import GraphQLClient.Text.Numeral
import GraphQLClient.Transport.Failure

set_option autoImplicit false

/-!
# Chunked bodies

A chunked body is a row of chunks, each with its size in hexadecimal bytes on a line of its own and
a line end after its text; a chunk of size zero ends it. What follows a semicolon on a size line is
skipped. A body that is cut off ends where the text ends.
-/

namespace GraphQLClient.Chunked

/-- The size on a size line, without extensions. -/
def sizeText (line : List Char) : List Char := (Text.trim line).takeWhile (· ≠ ';')

/-- A line end right at the front is passed over. -/
def skipLineEnd : List Char → List Char
  | '\r' :: '\n' :: rest => rest
  | '\n' :: rest => rest
  | text => text

/-- The text of the chunks. Each chunk takes at least a line, so the length of the text bounds their
number. -/
def readFrom : Nat → List Char → Except Failure (List Char)
  | 0, _ => .ok []
  | fuel + 1, text =>
    match Text.cutAt? '\n' text with
    | none => .ok []
    | some (line, rest) =>
      let size := sizeText line
      match Text.hexadecimal64? (Text.trim size) with
      | none => .error (.invalidResponse ("Invalid chunk size: " ++ String.ofList size))
      | some 0 => .ok []
      | some count =>
        match Text.splitBytes? count rest with
        | none => .ok rest
        | some (chunk, rest) => (readFrom fuel (skipLineEnd rest)).map (chunk ++ ·)

def read (body : List Char) : Except Failure (List Char) := readFrom (body.length + 1) body

end GraphQLClient.Chunked
