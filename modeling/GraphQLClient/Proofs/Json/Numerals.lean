import GraphQLClient.Json.Reader
import GraphQLClient.Proofs.Json.DecimalText
import GraphQLClient.Proofs.Text.Cuts

set_option autoImplicit false

/-!
# Numbers are read as they were written

`NumberText.chars` writes the parts of a number behind one another, and the reader takes the same parts
off again. Whole numbers and floats are both written as such parts. A whole number of 64 bits has its
value back from them; for a float `Decimal.readBack` is what the reader makes of them.
-/

namespace GraphQLClient

open Decimal (Digits)

theorem digitChar_ne_zero {n : ℕ} (h : 0 < n) (hn : n < 10) : Nat.digitChar n ≠ '0' := by
  have hall : ∀ n < 10, 0 < n → Nat.digitChar n ≠ '0' := by decide
  exact hall n hn h

/-- A number above zero is written without a zero in front. -/
theorem exists_toDigits_eq_cons {n : ℕ} (h : 0 < n) :
    ∃ first rest, Nat.toDigits 10 n = first :: rest ∧ first ≠ '0' := by
  induction n using Nat.strong_induction_on with
  | _ n ih =>
    by_cases hn : n < 10
    · exact ⟨_, _, Nat.toDigits_of_lt_base hn, digitChar_ne_zero h hn⟩
    · obtain ⟨first, rest, heq, hfirst⟩ := ih (n / 10) (by omega) (by omega)
      refine ⟨first, rest ++ [Nat.digitChar (n % 10)], ?_, hfirst⟩
      rw [Nat.toDigits_of_base_le (by norm_num) (by omega), heq, List.cons_append]

namespace NumberText

def exponentChars : Option (Bool × List Char) → List Char
  | none => []
  | some (minus, digits) => 'e' :: (if minus then '-' else '+') :: digits

def fractionChars (fraction : List Char) : List Char :=
  if fraction.isEmpty then [] else '.' :: fraction

theorem fractionChars_of_ne_nil {fraction : List Char} (h : fraction ≠ []) :
    fractionChars fraction = '.' :: fraction := by
  rw [fractionChars, if_neg fun hempty => h (List.isEmpty_iff.1 hempty)]

/-- The parts behind one another; an exponent has its sign always. -/
def chars (n : NumberText) : List Char :=
  (if n.negative then ['-'] else []) ++
    (n.whole ++ (fractionChars n.fraction ++ exponentChars n.exponent))

def Leads (whole : List Char) : Prop :=
  whole = ['0'] ∨ ∃ first rest, whole = first :: rest ∧ first ≠ '0'

theorem Leads.exists_eq_cons {whole : List Char} (h : Leads whole) :
    ∃ first rest, whole = first :: rest := by
  rcases h with rfl | ⟨first, rest, rfl, -⟩ <;> exact ⟨_, _, rfl⟩

/-- What may stand in a JSON text: no zero in front of other digits, and an exponent has digits. -/
structure Proper (n : NumberText) : Prop where
  whole : Digits n.whole
  lead : Leads n.whole
  fraction : Digits n.fraction
  exponent : ∀ minus digits, n.exponent = some (minus, digits) → Digits digits ∧ digits ≠ []

theorem leads_toDigits (n : ℕ) : Leads (Nat.toDigits 10 n) := by
  rcases Nat.eq_zero_or_pos n with rfl | h
  · exact .inl rfl
  · exact .inr (exists_toDigits_eq_cons h)

end NumberText

namespace Reader

open NumberText

/-- What follows a value inside another one, or nothing. -/
def Closes (rest : List Char) : Prop := ∀ c ∈ rest.head?, c ∈ [',', ']', '}']

def NoDigit (rest : List Char) : Prop := ∀ c ∈ rest.head?, c.isDigit = false

theorem Closes.noDigit {rest : List Char} (h : Closes rest) : NoDigit rest := by
  intro c hc
  have hmem := h c hc
  simp only [List.mem_cons, List.not_mem_nil, or_false] at hmem
  rcases hmem with rfl | rfl | rfl <;> rfl

theorem digits_append {found rest : List Char} (hf : Digits found) (hr : NoDigit rest) :
    digits (found ++ rest) = (found, rest) := by
  have hall : ∀ c ∈ found, Text.isDigit c = true := fun c hc => (Text.isDigit_eq c).trans (hf c hc)
  have hstop : rest.takeWhile Text.isDigit = [] ∧ rest.dropWhile Text.isDigit = rest := by
    cases rest with
    | nil => exact ⟨rfl, rfl⟩
    | cons c rest => simp [Text.isDigit_eq, hr c rfl]
  rw [digits, List.takeWhile_append_of_pos hall, List.dropWhile_append_of_pos hall, hstop.1, hstop.2,
    List.append_nil]

theorem whole?_append {whole rest : List Char} (hw : Digits whole) (hl : Leads whole)
    (hr : NoDigit rest) : whole? (whole ++ rest) = some (whole, rest) := by
  rw [whole?, digits_append hw hr]
  rcases hl with rfl | ⟨first, others, rfl, hfirst⟩
  · rfl
  · split
    · rename_i heq
      cases (Prod.mk.inj heq).1
    · rename_i heq
      exact absurd (List.cons.inj (Prod.mk.inj heq).1).1 hfirst
    · rfl

theorem fraction?_append {fraction rest : List Char} (hf : Digits fraction) (hr : NoDigit rest)
    (hdot : '.' ∉ rest.head?) :
    fraction? (fractionChars fraction ++ rest) = some (fraction, rest) := by
  cases fraction with
  | nil =>
    change fraction? rest = some ([], rest)
    unfold fraction?
    split
    · exact absurd rfl hdot
    · rfl
  | cons first others =>
    change fraction? ('.' :: (first :: others ++ rest)) = _
    rw [fraction?, digits_append hf hr]

theorem exponentDigits?_append {found rest : List Char} (hf : Digits found) (hne : found ≠ [])
    (hr : NoDigit rest) (minus : Bool) :
    exponentDigits? minus (found ++ rest) = some (some (minus, found), rest) := by
  rw [exponentDigits?, digits_append hf hr]
  split
  · rename_i heq
    exact absurd (Prod.mk.inj heq).1 hne
  · rename_i heq
    obtain ⟨rfl, rfl⟩ := Prod.mk.inj heq
    rfl

theorem exponent?_of_closes {rest : List Char} (h : Closes rest) :
    exponent? rest = some (none, rest) := by
  cases rest with
  | nil => rfl
  | cons c rest =>
    have hmem := h c rfl
    simp only [List.mem_cons, List.not_mem_nil, or_false] at hmem
    rcases hmem with rfl | rfl | rfl <;> rfl

theorem exponent?_append {exponent : Option (Bool × List Char)} {rest : List Char}
    (he : ∀ minus digits, exponent = some (minus, digits) → Digits digits ∧ digits ≠ [])
    (hr : Closes rest) : exponent? (exponentChars exponent ++ rest) = some (exponent, rest) := by
  match exponent, he with
  | none, _ => exact exponent?_of_closes hr
  | some (minus, found), he =>
    obtain ⟨hf, hne⟩ := he minus found rfl
    cases minus with
    | true => exact exponentDigits?_append hf hne hr.noDigit true
    | false => exact exponentDigits?_append hf hne hr.noDigit false

/-- An exponent does not go on with the digits in front of it. -/
theorem head_exponent (exponent : Option (Bool × List Char)) {rest : List Char} (hr : Closes rest) :
    NoDigit (exponentChars exponent ++ rest) ∧ '.' ∉ (exponentChars exponent ++ rest).head? := by
  match exponent with
  | none =>
    refine ⟨hr.noDigit, fun hdot => ?_⟩
    exact absurd (hr '.' hdot) (by decide)
  | some (minus, found) =>
    refine ⟨?_, fun hdot => ?_⟩
    · intro c hc
      obtain rfl := Option.some.inj hc
      rfl
    · cases hdot

theorem noDigit_fraction {fraction rest : List Char} (hr : NoDigit rest) :
    NoDigit (fractionChars fraction ++ rest) := by
  cases fraction with
  | nil => exact hr
  | cons first others =>
    intro c hc
    obtain rfl := Option.some.inj hc
    rfl

theorem unsigned?_append {n : NumberText} (hn : n.Proper) {rest : List Char} (hr : Closes rest) :
    unsigned? n.negative (n.whole ++ (fractionChars n.fraction ++ exponentChars n.exponent) ++ rest) =
      some (n, rest) := by
  obtain ⟨hdigit, hdot⟩ := head_exponent n.exponent hr
  rw [unsigned?, List.append_assoc, List.append_assoc,
    whole?_append hn.whole hn.lead (noDigit_fraction hdigit)]
  simp only
  rw [fraction?_append hn.fraction hdigit hdot]
  simp only
  rw [exponent?_append hn.exponent hr]

theorem whole_ne_minus {whole rest : List Char} (hw : Digits whole) (hl : Leads whole)
    (others : List Char) : whole ++ rest ≠ '-' :: others := by
  intro heq
  obtain ⟨first, tail, rfl⟩ := hl.exists_eq_cons
  have hdigit := hw first List.mem_cons_self
  rw [(List.cons.inj heq).1] at hdigit
  cases hdigit

/-- The reader takes the parts of a number off the text that was written for them. -/
theorem number?_chars {n : NumberText} (hn : n.Proper) {rest : List Char} (hr : Closes rest) :
    number? (n.chars ++ rest) = some (n, rest) := by
  have hunsigned := unsigned?_append hn hr
  unfold chars
  cases hneg : n.negative with
  | true =>
    rw [hneg] at hunsigned
    exact hunsigned
  | false =>
    rw [hneg] at hunsigned
    change number? (n.whole ++ _ ++ rest) = _
    unfold number?
    split
    · rename_i heq
      rw [List.append_assoc] at heq
      exact absurd heq (whole_ne_minus hn.whole hn.lead _)
    · exact hunsigned

end Reader

namespace NumberText

/-- The parts of a whole number. -/
def ofInt (n : ℤ) : NumberText := ⟨n < 0, Nat.toDigits 10 n.natAbs, [], none⟩

theorem proper_ofInt (n : ℤ) : (ofInt n).Proper where
  whole := Decimal.digits_toDigits _
  lead := leads_toDigits _
  fraction := fun _ hc => absurd hc List.not_mem_nil
  exponent := fun _ _ h => absurd h (Option.some_ne_none _).symm

theorem chars_ofInt (n : ℤ) : (ofInt n).chars = (toString n).toList := by
  rw [Int.toString_eq_repr, Int.repr_eq_if]
  split
  · rename_i h
    have hneg : ¬ n < 0 := by omega
    have habs : n.natAbs = n.toNat := by omega
    simp [chars, ofInt, fractionChars, exponentChars, hneg, habs, Nat.repr_eq_ofList_toDigits]
  · rename_i h
    have hneg : n < 0 := by omega
    have habs : n.natAbs = (-n).toNat := by omega
    simp [chars, ofInt, fractionChars, exponentChars, hneg, habs, Nat.repr_eq_ofList_toDigits]

/-- A whole number has its value back exactly if 64 bits hold it, with or without a sign. -/
theorem value?_ofInt_iff (n : ℤ) :
    (ofInt n).value? = some (.int n) ↔ -2 ^ 63 ≤ n ∧ n < 2 ^ 64 := by
  have hfloat : (ofInt n).float?.map Json.float ≠ some (.int n) := by
    intro h
    obtain ⟨x, -, hx⟩ := Option.map_eq_some_iff.1 h
    cases hx
  have hwhole : Text.decimal (ofInt n).whole = n.natAbs := Text.decimal_toDigits _
  have hplain : ((ofInt n).fraction.isEmpty && (ofInt n).exponent.isNone) = true := rfl
  have hnegative : (ofInt n).negative = decide (n < 0) := rfl
  rw [value?, hwhole]
  simp only [hplain, hnegative, if_true]
  by_cases hneg : n < 0
  · simp only [hneg, decide_true, if_true]
    split
    · rename_i h
      simp only [Bool.and_eq_true, decide_eq_true_eq, UInt64.size] at h
      have hvalue : -(n.natAbs : ℤ) = n := by omega
      rw [hvalue]
      exact iff_of_true rfl (by omega)
    · rename_i h
      simp only [Bool.and_eq_true, decide_eq_true_eq, UInt64.size] at h
      exact iff_of_false hfloat (by omega)
  · simp only [hneg, decide_false, Bool.false_eq_true, if_false]
    split
    · rename_i h
      simp only [UInt64.size] at h
      have hvalue : (n.natAbs : ℤ) = n := by omega
      rw [hvalue]
      exact iff_of_true rfl (by omega)
    · rename_i h
      simp only [UInt64.size] at h
      exact iff_of_false hfloat (by omega)

end NumberText

namespace Decimal

variable {digits : List Char}

theorem digits_part (hd : Digits digits) (n : ℕ) :
    Digits (if (digits.drop n).isEmpty then ['0'] else digits.drop n) ∧
      (if (digits.drop n).isEmpty then ['0'] else digits.drop n) ≠ [] := by
  split
  · exact ⟨digits_zero, List.cons_ne_nil _ _⟩
  · rename_i h
    exact ⟨fun c hc => hd c (List.mem_of_mem_drop hc), fun heq => h (List.isEmpty_iff.2 heq)⟩

/-- The notation of digits that do not start with a zero is made of the parts of a number. -/
theorem exists_chars_eq_render (hd : Digits digits)
    (hl : ∃ first rest, digits = first :: rest ∧ first ≠ '0') (exponent : ℤ) :
    ∃ n : NumberText, n.Proper ∧ n.negative = false ∧ n.chars = render digits exponent := by
  obtain ⟨first, rest, rfl, hfirst⟩ := hl
  unfold render
  simp only
  split
  · split
    · -- zeros behind the point
      refine ⟨⟨false, ['0'], List.replicate (-exponent - 1).toNat '0' ++ first :: rest, none⟩,
        ⟨digits_zero, .inl rfl, (digits_replicate _).append hd, ?_⟩, rfl, ?_⟩
      · exact fun _ _ h => absurd h (Option.some_ne_none _).symm
      · simp [NumberText.chars, NumberText.fractionChars, NumberText.exponentChars]
    · -- zeros in front of the point, or the point among the digits
      obtain ⟨hpart, hne⟩ := digits_part hd (exponent.toNat + 1)
      generalize (if ((first :: rest).drop (exponent.toNat + 1)).isEmpty then ['0']
        else (first :: rest).drop (exponent.toNat + 1)) = part at hpart hne ⊢
      refine ⟨⟨false, (first :: rest).take (exponent.toNat + 1) ++
        List.replicate (exponent + 1 - (first :: rest).length).toNat '0', part, none⟩,
        ⟨?_, .inr ⟨first, _, rfl, hfirst⟩, hpart, ?_⟩, rfl, ?_⟩
      · exact Digits.append (fun c hc => hd c (List.mem_of_mem_take hc)) (digits_replicate _)
      · exact fun _ _ h => absurd h (Option.some_ne_none _).symm
      · simp only [NumberText.chars, NumberText.fractionChars_of_ne_nil hne, NumberText.exponentChars]
        simp
  · have hpower : ∀ minus power,
        some (decide (exponent < 0), Nat.toDigits 10 exponent.natAbs) = some (minus, power) →
          Digits power ∧ power ≠ [] := by
      intro minus power h
      obtain ⟨-, rfl⟩ := Prod.mk.inj (Option.some.inj h)
      exact ⟨digits_toDigits _, Nat.toDigits_ne_nil⟩
    refine ⟨⟨false, [first], rest, some (decide (exponent < 0), Nat.toDigits 10 exponent.natAbs)⟩,
      ⟨fun c hc => hd c ?_, .inr ⟨first, [], rfl, hfirst⟩,
        fun c hc => hd c (List.mem_cons_of_mem _ hc), hpower⟩, rfl, ?_⟩
    · rw [List.mem_singleton.1 hc]
      exact List.mem_cons_self
    · cases rest <;>
        simp [NumberText.chars, NumberText.fractionChars, NumberText.exponentChars]

theorem exists_significant_eq_cons {n : ℕ} (h : 0 < n) :
    ∃ first rest, significant (Nat.toDigits 10 n) = first :: rest ∧ first ≠ '0' := by
  obtain ⟨first, rest, heq, hfirst⟩ := exists_toDigits_eq_cons h
  obtain ⟨z, hz⟩ := significant_append (Nat.toDigits 10 n)
  obtain ⟨lead, others, hlead⟩ := List.exists_cons_of_ne_nil (significant_ne_nil h)
  rw [hlead, heq, List.cons_append] at hz
  exact ⟨lead, others, hlead, (List.cons.inj hz).1 ▸ hfirst⟩

/-- A float is written as a number. -/
theorem exists_chars_eq_textOf (x : Float) :
    ∃ n : NumberText, n.Proper ∧ n.chars = (textOf x).toList := by
  have hsize : ∃ n : NumberText, n.Proper ∧ n.negative = false ∧
      n.chars = sizeText (Binary.ofFloat x) := by
    unfold sizeText
    split
    · exact ⟨⟨false, ['0'], ['0'], none⟩,
        ⟨digits_zero, .inl rfl, digits_zero, fun _ _ h => absurd h (Option.some_ne_none _).symm⟩,
        rfl, rfl⟩
    · rename_i hm
      have hpos := (Binary.shortest_covers (Binary.canonical_ofFloat x) (Nat.pos_of_ne_zero hm)).1
      exact exists_chars_eq_render (digits_significant _) (exists_significant_eq_cons hpos) _
  obtain ⟨n, hn, hnegative, hchars⟩ := hsize
  rw [textOf_eq, String.toList_ofList]
  split
  · refine ⟨{ n with negative := true }, ⟨hn.whole, hn.lead, hn.fraction, hn.exponent⟩, ?_⟩
    rw [← hchars, NumberText.chars, NumberText.chars, hnegative]
    rfl
  · exact ⟨n, hn, hchars⟩

/-- What the reader makes of the text of a float. -/
def readBack (x : Float) : Option Json :=
  (Reader.number? (textOf x).toList).bind fun found => found.1.value?

theorem exists_readBack (x : Float) :
    ∃ n : NumberText, n.Proper ∧ n.chars = (textOf x).toList ∧ n.value? = readBack x := by
  obtain ⟨n, hn, hchars⟩ := exists_chars_eq_textOf x
  have hnumber := @Reader.number?_chars n hn [] (fun _ h => absurd h (Option.not_mem_none _))
  rw [List.append_nil] at hnumber
  refine ⟨n, hn, hchars, ?_⟩
  rw [readBack, ← hchars, hnumber]
  rfl

end Decimal

end GraphQLClient
