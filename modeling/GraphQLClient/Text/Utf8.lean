set_option autoImplicit false

/-!
# Reading UTF-8 that may be damaged

`decode` turns every byte sequence into a text. A sequence that cannot be continued to a character
is replaced by U+FFFD, one for each longest part that begins a character; reading goes on with the
byte that did not fit.
-/

namespace GraphQLClient.Utf8

/-- A character of which the first bytes are read: their value, the number of bytes still to come
and the range of the next one. -/
structure Pending where
  code : Nat
  left : Nat
  low : Nat
  high : Nat
deriving DecidableEq, Repr

def replacement : Char := Char.ofNat 0xFFFD

/-- What a byte between characters means: a character, the begin of one, or nothing. -/
def first (byte : Nat) : Option (Char ⊕ Pending) :=
  if byte < 0x80 then some (.inl (Char.ofNat byte))
  else if 0xC2 ≤ byte ∧ byte ≤ 0xDF then some (.inr ⟨byte - 0xC0, 1, 0x80, 0xBF⟩)
  else if byte = 0xE0 then some (.inr ⟨0, 2, 0xA0, 0xBF⟩)
  else if byte = 0xED then some (.inr ⟨0xD, 2, 0x80, 0x9F⟩)
  else if 0xE1 ≤ byte ∧ byte ≤ 0xEF then some (.inr ⟨byte - 0xE0, 2, 0x80, 0xBF⟩)
  else if byte = 0xF0 then some (.inr ⟨0, 3, 0x90, 0xBF⟩)
  else if 0xF1 ≤ byte ∧ byte ≤ 0xF3 then some (.inr ⟨byte - 0xF0, 3, 0x80, 0xBF⟩)
  else if byte = 0xF4 then some (.inr ⟨4, 3, 0x80, 0x8F⟩)
  else none

def start (byte : Nat) : List Char × Option Pending :=
  match first byte with
  | some (.inl c) => ([c], none)
  | some (.inr pending) => ([], some pending)
  | none => ([replacement], none)

/-- The characters that a byte completes, and what is pending after it. -/
def step (pending : Option Pending) (byte : Nat) : List Char × Option Pending :=
  match pending with
  | none => start byte
  | some p =>
    if p.low ≤ byte ∧ byte ≤ p.high then
      let code := p.code * 64 + (byte - 0x80)
      if p.left ≤ 1 then ([Char.ofNat code], none)
      else ([], some ⟨code, p.left - 1, 0x80, 0xBF⟩)
    else
      let (found, next) := start byte
      (replacement :: found, next)

def decodeFrom : Option Pending → List UInt8 → List Char
  | none, [] => []
  | some _, [] => [replacement]
  | pending, byte :: rest =>
    let (found, next) := step pending byte.toNat
    found ++ decodeFrom next rest

def decode (bytes : List UInt8) : List Char := decodeFrom none bytes

end GraphQLClient.Utf8
