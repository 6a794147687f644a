import GraphQLClient.Text.Blank

set_option autoImplicit false

/-!
# Type references

`Int`, `[Int!]` and the like: a named type under list and non-null marks, their text, and the reader
of that text. The reader drops Unicode white space around the whole text and ASCII white space
between its tokens.
-/

namespace GraphQLClient

inductive TypeRef where
  | named (name : String)
  | list (item : TypeRef)
  | nonNull (base : TypeRef)
deriving DecidableEq, Repr, Inhabited

namespace TypeRef

/-- The named type inside all marks. -/
def namedType : TypeRef → String
  | .named name => name
  | .list item => item.namedType
  | .nonNull base => base.namedType

/-- The outermost mark apart from non-null is a list. -/
def isList : TypeRef → Bool
  | .named _ => false
  | .list _ => true
  | .nonNull base => base.isList

def isNonNull : TypeRef → Bool
  | .nonNull _ => true
  | _ => false

/-- The type of a list's items. -/
def item? : TypeRef → Option TypeRef
  | .named _ => none
  | .list item => some item
  | .nonNull base => base.item?

def text : TypeRef → String
  | .named name => name
  | .list item => "[" ++ item.text ++ "]"
  | .nonNull base => base.text ++ "!"

end TypeRef

/-- Why a text is not a type reference. -/
inductive TypeRefFault where
  | unclosedList
  | expectedName
  | empty
  | trailing
deriving DecidableEq, Repr

def TypeRefFault.reason : TypeRefFault → String
  | .unclosedList => "unclosed list type"
  | .expectedName => "expected a type name or `[`"
  | .empty => "empty type"
  | .trailing => "unexpected trailing characters"

structure TypeRefError where
  input : String
  fault : TypeRefFault
deriving DecidableEq, Repr

def TypeRefError.message (e : TypeRefError) : String :=
  s!"invalid type annotation `{e.input}`: {e.fault.reason}"

namespace TypeRef

/-- White space between tokens. -/
def isGap (c : Char) : Bool :=
  c = ' ' || c = '\t' || c = '\n' || c = '\x0c' || c = '\r'

def isNameStart (c : Char) : Bool := c.isAlpha || c = '_'

def isNamePart (c : Char) : Bool := c.isAlphanum || c = '_'

def skipGap (text : List Char) : List Char := text.dropWhile isGap

/-- One exclamation mark makes the type non-null. -/
def marked (base : TypeRef) (text : List Char) : TypeRef × List Char :=
  match skipGap text with
  | '!' :: rest => (.nonNull base, rest)
  | rest => (base, rest)

/-- Reads one type off the front. Each bracket takes a character, so the length of the text bounds
the nesting. -/
def readType : Nat → List Char → Except TypeRefFault (TypeRef × List Char)
  | 0, _ => .error .empty
  | fuel + 1, text =>
    match skipGap text with
    | [] => .error .empty
    | '[' :: rest =>
      match readType fuel rest with
      | .error fault => .error fault
      | .ok (item, rest) =>
        match skipGap rest with
        | ']' :: rest => .ok (marked (.list item) rest)
        | _ => .error .unclosedList
    | c :: rest =>
      if isNameStart c then
        let name := String.ofList (c :: rest.takeWhile isNamePart)
        .ok (marked (.named name) (rest.dropWhile isNamePart))
      else .error .expectedName

/-- Reads a whole text. -/
def parse (input : String) : Except TypeRefError TypeRef :=
  let text := Text.trim input.toList
  match readType (text.length + 1) text with
  | .error fault => .error ⟨input, fault⟩
  | .ok (type, []) => .ok type
  | .ok (_, _ :: _) => .error ⟨input, .trailing⟩

end TypeRef

end GraphQLClient
