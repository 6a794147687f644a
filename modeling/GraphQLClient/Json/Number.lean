import GraphQLClient.Json.Value
import GraphQLClient.Text.Numeral

set_option autoImplicit false

/-!
# The value of a number

A number without fraction and exponent that fits 64 bits, signed or unsigned, is an integer; `-0`
and every other number is a float.

A float is read in machine steps and need not be the nearest one. Digits go into a 64-bit
significand as long as it holds them: the whole digits after that only count as powers of ten, the
fraction digits after that are dropped. The significand is then rounded to a float and multiplied
or divided by one power of ten. A number that leaves the range of floats has no value.
-/

namespace GraphQLClient

/-- The parts of a number as they stand in a text. -/
structure NumberText where
  negative : Bool
  whole : List Char
  fraction : List Char
  /-- Sign and digits of the exponent; `true` is minus. -/
  exponent : Option (Bool × List Char)
deriving DecidableEq, Repr

namespace NumberText

/-- The significand of the whole digits that fit, and how many digits did not. -/
def takeWhole (significand : Nat) : List Char → Nat × Nat
  | [] => (significand, 0)
  | c :: rest =>
    let next := significand * 10 + Text.digitValue c
    if next < UInt64.size then takeWhole next rest else (significand, rest.length + 1)

/-- The significand with the fraction digits that fit, and how many of them did. -/
def takeFraction (significand : Nat) : List Char → Nat × Nat
  | [] => (significand, 0)
  | c :: rest =>
    let next := significand * 10 + Text.digitValue c
    if next < UInt64.size then
      let (all, taken) := takeFraction next rest
      (all, taken + 1)
    else (significand, 0)

def powerOfTen (exponent : Nat) : Float := Float.ofScientific 1 false exponent

/-- Scales by `10 ^ exponent`. Powers of ten end at `10 ^ 308`; a smaller exponent is taken in
steps until nothing is left, which two steps reach. -/
def scale : Nat → Float → Int → Option Float
  | 0, x, _ => some x
  | fuel + 1, x, exponent =>
    if exponent.natAbs ≤ 308 then
      if 0 ≤ exponent then
        let scaled := x * powerOfTen exponent.natAbs
        if scaled.isInf then none else some scaled
      else some (x / powerOfTen exponent.natAbs)
    else if x == 0 then some x
    else if 0 ≤ exponent then none
    else scale fuel (x / powerOfTen 308) (exponent + 308)

def float? (n : NumberText) : Option Float :=
  let (whole, left) := takeWhole 0 n.whole
  let (significand, taken) := takeFraction whole n.fraction
  let written : Int :=
    match n.exponent with
    | none => 0
    | some (minus, digits) => if minus then -(Text.decimal digits : Int) else Text.decimal digits
  let scaled := scale 4 significand.toUInt64.toFloat ((left : Int) - taken + written)
  scaled.map fun x => if n.negative then -x else x

def value? (n : NumberText) : Option Json :=
  let whole := Text.decimal n.whole
  if n.fraction.isEmpty && n.exponent.isNone then
    if n.negative then
      if 0 < whole && 2 * whole ≤ UInt64.size then some (.int (-whole)) else n.float?.map .float
    else if whole < UInt64.size then some (.int whole) else n.float?.map .float
  else n.float?.map .float

end NumberText

end GraphQLClient
