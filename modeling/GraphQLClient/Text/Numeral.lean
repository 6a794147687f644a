import GraphQLClient.Text.Blank

set_option autoImplicit false

/-!
# Numerals

Decimal and hexadecimal digits of ASCII, and numbers of limited size written in them. A plus sign
may stand in front of a number of limited size.
-/

namespace GraphQLClient.Text

def isDigit (c : Char) : Bool := '0' ≤ c && c ≤ '9'

def digitValue (c : Char) : Nat := c.toNat - '0'.toNat

/-- The number that decimal digits stand for. -/
def decimal (digits : List Char) : Nat := digits.foldl (fun n c => n * 10 + digitValue c) 0

def hexValue? (c : Char) : Option Nat :=
  if '0' ≤ c ∧ c ≤ '9' then some (c.toNat - '0'.toNat)
  else if 'a' ≤ c ∧ c ≤ 'f' then some (c.toNat - 'a'.toNat + 10)
  else if 'A' ≤ c ∧ c ≤ 'F' then some (c.toNat - 'A'.toNat + 10)
  else none

/-- The text after a plus sign, or the whole text. -/
def skipPlus (text : List Char) : List Char := (after? ['+'] text).getD text

/-- A number of 16 bits in decimal digits. -/
def decimal16? (text : List Char) : Option Nat :=
  let digits := skipPlus text
  if !digits.isEmpty && digits.all isDigit && decimal digits < UInt16.size then some (decimal digits)
  else none

/-- A number of 64 bits in hexadecimal digits. -/
def hexadecimal64? (text : List Char) : Option Nat :=
  match (skipPlus text).mapM hexValue? with
  | none | some [] => none
  | some (first :: rest) =>
    let number := rest.foldl (fun n v => n * 16 + v) first
    if number < UInt64.size then some number else none

end GraphQLClient.Text
