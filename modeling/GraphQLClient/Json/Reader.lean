import GraphQLClient.Json.Written

set_option autoImplicit false

/-!
# Reading JSON

`Written.ofText?` reads a text of one value with blanks around it. Each reader takes the characters
it reads off the front and returns the others; the number of steps a text can need is bounded by its
length, so the bound never cuts a text off.
-/

namespace GraphQLClient.Reader

def skipBlank : List Char → List Char
  | [] => []
  | c :: rest => if c = ' ' || c = '\t' || c = '\n' || c = '\r' then skipBlank rest else c :: rest

/-- Four hexadecimal digits. -/
def unit? : List Char → Option (Nat × List Char)
  | a :: b :: c :: d :: rest =>
    match Text.hexValue? a, Text.hexValue? b, Text.hexValue? c, Text.hexValue? d with
    | some a, some b, some c, some d => some (((a * 16 + b) * 16 + c) * 16 + d, rest)
    | _, _, _, _ => none
  | _ => none

def isHighSurrogate (unit : Nat) : Bool := 0xD800 ≤ unit && unit < 0xDC00

def isLowSurrogate (unit : Nat) : Bool := 0xDC00 ≤ unit && unit < 0xE000

/-- The second half of a surrogate pair, if it comes next. -/
def lowHalf? : List Char → Option (Nat × List Char)
  | '\\' :: 'u' :: rest => (unit? rest).filter fun found => isLowSurrogate found.1
  | _ => none

def shortEscape? : Char → Option Char
  | '"' => some '"'
  | '\\' => some '\\'
  | '/' => some '/'
  | 'b' => some '\x08'
  | 'f' => some '\x0c'
  | 'n' => some '\n'
  | 'r' => some '\r'
  | 't' => some '\t'
  | _ => none

/-- The rest of a text after its opening quote. `done` holds the characters so far, last one first;
`whole` tells that no half of a surrogate pair was left alone among them. -/
def text? : Nat → List Char → Bool → List Char → Option (Option String × List Char)
  | 0, _, _, _ => none
  | fuel + 1, done, whole, text =>
    match text with
    | [] => none
    | '"' :: rest => some (if whole then some (String.ofList done.reverse) else none, rest)
    | '\\' :: 'u' :: rest =>
      match unit? rest with
      | none => none
      | some (unit, rest) =>
        if isHighSurrogate unit then
          match lowHalf? rest with
          | some (low, rest) =>
            let code := 0x10000 + (unit - 0xD800) * 0x400 + (low - 0xDC00)
            text? fuel (Char.ofNat code :: done) whole rest
          | none => text? fuel done false rest
        else if isLowSurrogate unit then text? fuel done false rest
        else text? fuel (Char.ofNat unit :: done) whole rest
    | '\\' :: c :: rest =>
      match shortEscape? c with
      | some c => text? fuel (c :: done) whole rest
      | none => none
    | c :: rest => if c.toNat < 0x20 || c = '\\' then none else text? fuel (c :: done) whole rest

/-- Digits off the front. -/
def digits (text : List Char) : List Char × List Char :=
  (text.takeWhile Text.isDigit, text.dropWhile Text.isDigit)

/-- Whole digits: a single zero or no zero in front. -/
def whole? (text : List Char) : Option (List Char × List Char) :=
  match digits text with
  | ([], _) => none
  | ('0' :: _ :: _, _) => none
  | found => some found

def fraction? : List Char → Option (List Char × List Char)
  | '.' :: rest =>
    match digits rest with
    | ([], _) => none
    | found => some found
  | text => some ([], text)

def exponentDigits? (minus : Bool) (text : List Char) :
    Option (Option (Bool × List Char) × List Char) :=
  match digits text with
  | ([], _) => none
  | (found, rest) => some (some (minus, found), rest)

def exponent? : List Char → Option (Option (Bool × List Char) × List Char)
  | [] => some (none, [])
  | c :: rest =>
    if c = 'e' || c = 'E' then
      match rest with
      | '+' :: rest => exponentDigits? false rest
      | '-' :: rest => exponentDigits? true rest
      | rest => exponentDigits? false rest
    else some (none, c :: rest)

def unsigned? (negative : Bool) (text : List Char) : Option (NumberText × List Char) :=
  match whole? text with
  | none => none
  | some (whole, rest) =>
    match fraction? rest with
    | none => none
    | some (fraction, rest) =>
      match exponent? rest with
      | none => none
      | some (exponent, rest) => some (⟨negative, whole, fraction, exponent⟩, rest)

def number? : List Char → Option (NumberText × List Char)
  | '-' :: rest => unsigned? true rest
  | text => unsigned? false text

mutual
def value? : Nat → List Char → Option (Written × List Char)
  | 0, _ => none
  | fuel + 1, text =>
    match skipBlank text with
    | 'n' :: 'u' :: 'l' :: 'l' :: rest => some (.null, rest)
    | 't' :: 'r' :: 'u' :: 'e' :: rest => some (.bool true, rest)
    | 'f' :: 'a' :: 'l' :: 's' :: 'e' :: rest => some (.bool false, rest)
    | '"' :: rest =>
      (text? (rest.length + 1) [] true rest).map fun (found, rest) => (.str found, rest)
    | '[' :: rest =>
      match skipBlank rest with
      | ']' :: rest => some (.arr [], rest)
      | rest => (items? fuel rest).map fun (found, rest) => (.arr found, rest)
    | '{' :: rest =>
      match skipBlank rest with
      | '}' :: rest => some (.obj [], rest)
      | rest => (entries? fuel rest).map fun (found, rest) => (.obj found, rest)
    | rest => (number? rest).map fun (found, rest) => (.number found.value?, rest)

/-- Items up to the closing bracket; there is at least one. -/
def items? : Nat → List Char → Option (List Written × List Char)
  | 0, _ => none
  | fuel + 1, text =>
    match value? fuel text with
    | none => none
    | some (item, rest) =>
      match skipBlank rest with
      | ',' :: rest => (items? fuel rest).map fun (found, rest) => (item :: found, rest)
      | ']' :: rest => some ([item], rest)
      | _ => none

/-- Entries up to the closing brace; there is at least one. -/
def entries? : Nat → List Char → Option (List (Option String × Written) × List Char)
  | 0, _ => none
  | fuel + 1, text =>
    match skipBlank text with
    | '"' :: rest =>
      match text? (rest.length + 1) [] true rest with
      | none => none
      | some (key, rest) =>
        match skipBlank rest with
        | ':' :: rest =>
          match value? fuel rest with
          | none => none
          | some (item, rest) =>
            match skipBlank rest with
            | ',' :: rest =>
              (entries? fuel rest).map fun (found, rest) => ((key, item) :: found, rest)
            | '}' :: rest => some ([(key, item)], rest)
            | _ => none
        | _ => none
    | _ => none
end

end GraphQLClient.Reader

namespace GraphQLClient

/-- The one value of a text. -/
def Written.ofText? (text : String) : Option Written :=
  let text := text.toList
  match Reader.value? (2 * text.length + 2) text with
  | some (found, rest) => if (Reader.skipBlank rest).isEmpty then some found else none
  | none => none

/-- Reads a text whose every part must have a value. -/
def Json.ofText? (text : String) : Option Json :=
  (Written.ofText? text).bind (Written.value? Written.depthLimit)

end GraphQLClient
