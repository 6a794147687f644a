set_option autoImplicit false

/-!
# The shortest decimal of a float

A finite float is `mantissa * 2 ^ exponent`. The decimal written for it has the fewest digits that
read back as the same float; of two such decimals with as many digits the nearer one is taken, and
of two equally near ones the one with the even last digit. The search is exact: it compares whole
numbers only.

Where the decimal point stands, and where an exponent is written instead, is decided by
`Decimal.render`: first digits from `10 ^ -5` to `10 ^ 15` are written in full and always with a
point, all others with a signed exponent.
-/

namespace GraphQLClient

/-- The size of a finite float, `mantissa * 2 ^ exponent`. -/
structure Binary where
  mantissa : Nat
  exponent : Int
  /-- The next smaller float is half as far away as the next larger one. -/
  narrowBelow : Bool
deriving DecidableEq, Repr

namespace Binary

/-- The leading bit of a mantissa of 53 bits, which is not stored. -/
def implicitBit : Nat := 4503599627370496

/-- The bits of a float: its sign, 11 bits of exponent, 52 bits of fraction. -/
def ofFloat (x : Float) : Binary :=
  let bits := x.toBits.toNat
  let field : Nat := bits / implicitBit % 2048
  let fraction : Nat := bits % implicitBit
  if field = 0 then ⟨fraction, -1074, false⟩
  else ⟨fraction + implicitBit, (field : Int) - 1075, fraction = 0 && 1 < field⟩

/-- A decimal `digits * 10 ^ exponent` lies among the reals that read back as the float. Bounds and
value are taken in quarters of the last binary digit; `up` and `down` carry both powers to whole
numbers. An end of the range counts exactly when the mantissa is even. -/
def covers (b : Binary) (digits up down : Nat) : Bool :=
  let low := (4 * b.mantissa - if b.narrowBelow then 1 else 2) * up
  let high := (4 * b.mantissa + 2) * up
  let point := digits * down
  if b.mantissa % 2 = 0 then low ≤ point && point ≤ high else low < point && point < high

/-- The multiple of `10 ^ k` that is written for the float, if one of its two neighbours among them
reads back. -/
def onGrid? (b : Binary) (k : Int) : Option Nat :=
  let up := Nat.pow 2 (b.exponent - 2).toNat * Nat.pow 10 (-k).toNat
  let down := Nat.pow 2 (2 - b.exponent).toNat * Nat.pow 10 k.toNat
  let value := 4 * b.mantissa * up
  let below := value / down
  let above := below + 1
  let takesBelow := 0 < below && b.covers below up down
  let takesAbove := b.covers above up down
  let toBelow := value - below * down
  let toAbove := above * down - value
  if takesBelow && takesAbove then
    if toBelow < toAbove then some below
    else if toAbove < toBelow then some above
    else if below % 2 = 0 then some below else some above
  else if takesBelow then some below
  else if takesAbove then some above
  else none

/-- Tries the grids `10 ^ k`, `10 ^ (k - 1)`, ... -/
def firstGrid (b : Binary) : Nat → Int → Nat × Int
  | 0, k => (0, k)
  | fuel + 1, k =>
    match b.onGrid? k with
    | some digits => (digits, k)
    | none => firstGrid b fuel (k - 1)

/-- The shortest decimal, as digits and a power of ten. No float needs more than 17 digits, and
none lies above `10` to the power tried first. -/
def shortest (b : Binary) : Nat × Int :=
  let twos : Int := b.exponent + b.mantissa.log2 + 2
  b.firstGrid 40 ((twos * 30103).fdiv 100000 + 2)

end Binary

namespace Decimal

/-- Digits of a number, without zeros at the end, and how many of those there were. -/
def significant (digits : List Char) : List Char :=
  (digits.reverse.dropWhile (· == '0')).reverse

/-- Digits and the exponent of the first one to text. -/
def render (digits : List Char) (exponent : Int) : List Char :=
  let zeros (count : Int) : List Char := List.replicate count.toNat '0'
  if -5 ≤ exponent ∧ exponent ≤ 15 then
    if exponent < 0 then
      '0' :: '.' :: zeros (-exponent - 1) ++ digits
    else
      let whole := digits.take (exponent.toNat + 1)
      let part := digits.drop (exponent.toNat + 1)
      whole ++ zeros (exponent + 1 - digits.length) ++ '.' :: (if part.isEmpty then ['0'] else part)
  else
    let power := (if exponent < 0 then '-' else '+') :: Nat.toDigits 10 exponent.natAbs
    match digits with
    | [] => []
    | [digit] => digit :: 'e' :: power
    | digit :: part => digit :: '.' :: part ++ 'e' :: power

end Decimal

/-- The text of a finite float as JSON writes it. -/
def Decimal.textOf (x : Float) : String :=
  let negative := UInt64.size ≤ 2 * x.toBits.toNat
  let size := Binary.ofFloat x
  let text :=
    if size.mantissa = 0 then ['0', '.', '0']
    else
      let (digits, k) := size.shortest
      let digits := Nat.toDigits 10 digits
      Decimal.render (Decimal.significant digits) (k + digits.length - 1)
  String.ofList (if negative then '-' :: text else text)

end GraphQLClient
