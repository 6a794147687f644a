import GraphQLClient.Json.Printer
import GraphQLClient.Proofs.Json.Rounding

set_option autoImplicit false

/-!
# The text of a float determines it

`Decimal.read` gives the number that a decimal notation stands for. The notation that is written for
a float stands for a number that reads back as the float, so different floats have different texts.
-/

namespace GraphQLClient.Decimal

def naturalOf (digits : List Char) : ℕ := Nat.ofDigitChars 10 digits 0

def integerOf : List Char → ℤ
  | '-' :: digits => -(naturalOf digits : ℤ)
  | '+' :: digits => naturalOf digits
  | digits => naturalOf digits

/-- The number that digits with a point and an exponent stand for. -/
def read (text : List Char) : ℚ :=
  let mantissa := text.takeWhile (· != 'e')
  let whole := mantissa.takeWhile (· != '.')
  let part := (mantissa.dropWhile (· != '.')).tail
  naturalOf (whole ++ part) * 10 ^ (integerOf (text.dropWhile (· != 'e')).tail - part.length)

def Digits (text : List Char) : Prop := ∀ c ∈ text, c.isDigit = true

theorem ne_of_isDigit {c d : Char} (hc : c.isDigit = true) (hd : d.isDigit = false) :
    (c != d) = true := by
  rw [bne_iff_ne]
  rintro rfl
  rw [hc] at hd
  cases hd

theorem Digits.append {a b : List Char} (ha : Digits a) (hb : Digits b) : Digits (a ++ b) := by
  intro c hc
  exact (List.mem_append.1 hc).elim (ha c) (hb c)

theorem digits_replicate (n : ℕ) : Digits (List.replicate n '0') := by
  intro c hc
  rw [List.eq_of_mem_replicate hc]
  rfl

theorem digits_toDigits (n : ℕ) : Digits (Nat.toDigits 10 n) := fun _ hc =>
  Nat.isDigit_of_mem_toDigits (by norm_num) (by norm_num) hc

theorem naturalOf_append_zeros (digits : List Char) (n : ℕ) :
    naturalOf (digits ++ List.replicate n '0') = 10 ^ n * naturalOf digits := by
  rw [naturalOf, Nat.ofDigitChars_append, Nat.ofDigitChars_replicate_zero, naturalOf]

theorem naturalOf_zeros_append (digits : List Char) (n : ℕ) :
    naturalOf (List.replicate n '0' ++ digits) = naturalOf digits := by
  rw [naturalOf, Nat.ofDigitChars_append, Nat.ofDigitChars_replicate_zero, Nat.mul_zero, naturalOf]

/-- A notation with a point and without exponent. -/
theorem read_point {whole part : List Char} (hw : Digits whole) (hp : Digits part) :
    read (whole ++ '.' :: part) = naturalOf (whole ++ part) * 10 ^ (-(part.length : ℤ)) := by
  have hall : ∀ c ∈ whole ++ '.' :: part, (c != 'e') = true := by
    intro c hc
    rcases List.mem_append.1 hc with hc | hc
    · exact ne_of_isDigit (hw c hc) rfl
    · rcases List.mem_cons.1 hc with rfl | hc
      · rfl
      · exact ne_of_isDigit (hp c hc) rfl
  have hdot : ∀ c ∈ whole, (c != '.') = true := fun c hc => ne_of_isDigit (hw c hc) rfl
  have hmantissa : (whole ++ '.' :: part).takeWhile (· != 'e') = whole ++ '.' :: part :=
    List.takeWhile_eq_self_iff.2 hall
  have hrest : (whole ++ '.' :: part).dropWhile (· != 'e') = [] := List.dropWhile_eq_nil_iff.2 hall
  rw [read]
  simp only [hmantissa, hrest]
  rw [List.takeWhile_append_of_pos hdot, List.dropWhile_append_of_pos hdot]
  simp [integerOf, naturalOf]

/-- A notation with an exponent. -/
theorem read_power {mantissa power : List Char} (hm : ∀ c ∈ mantissa, (c != 'e') = true) :
    read (mantissa ++ 'e' :: power) = read mantissa * 10 ^ integerOf power := by
  have hmantissa : mantissa.takeWhile (· != 'e') = mantissa := List.takeWhile_eq_self_iff.2 hm
  have hrest : mantissa.dropWhile (· != 'e') = [] := List.dropWhile_eq_nil_iff.2 hm
  rw [read, read, List.takeWhile_append_of_pos hm, List.dropWhile_append_of_pos hm]
  simp only [hmantissa, hrest]
  simp only [List.takeWhile_cons, List.dropWhile_cons, bne_self_eq_false, Bool.false_eq_true, if_false,
    List.append_nil, List.tail_cons, List.tail_nil]
  have hzero : integerOf [] = 0 := rfl
  rw [hzero, zero_sub, mul_assoc, ← zpow_add₀ (by norm_num)]
  congr 2
  ring

/-- Digits alone stand for a whole number. -/
theorem read_digits {digits : List Char} (hd : Digits digits) : read digits = naturalOf digits := by
  have hall : ∀ c ∈ digits, (c != 'e') = true := fun c hc => ne_of_isDigit (hd c hc) rfl
  have hdot : ∀ c ∈ digits, (c != '.') = true := fun c hc => ne_of_isDigit (hd c hc) rfl
  rw [read, List.takeWhile_eq_self_iff.2 hall, List.dropWhile_eq_nil_iff.2 hall, List.takeWhile_eq_self_iff.2 hdot, List.dropWhile_eq_nil_iff.2 hdot]
  simp [integerOf, naturalOf]

theorem integerOf_signed (e : ℤ) :
    integerOf ((if e < 0 then '-' else '+') :: Nat.toDigits 10 e.natAbs) = e := by
  split
  · rw [integerOf, naturalOf, Nat.ofDigitChars_ten_toDigits]
    omega
  · rw [integerOf, naturalOf, Nat.ofDigitChars_ten_toDigits]
    omega

theorem digits_zero : Digits ['0'] := digits_replicate 1

section Render

variable {digits : List Char}

/-- Zeros behind the point put the first digit in its place. -/
theorem read_zeros (hd : Digits digits) (n : ℕ) :
    read ('0' :: '.' :: List.replicate n '0' ++ digits) =
      naturalOf digits * 10 ^ (-((n + digits.length : ℕ) : ℤ)) := by
  change read (['0'] ++ '.' :: (List.replicate n '0' ++ digits)) = _
  rw [read_point digits_zero ((digits_replicate n).append hd), ← List.append_assoc,
    List.singleton_append, ← List.replicate_succ, naturalOf_zeros_append, List.length_append,
    List.length_replicate]

/-- Zeros in front of the point do as well. -/
theorem read_filled (hd : Digits digits) (n : ℕ) :
    read (digits ++ List.replicate n '0' ++ '.' :: ['0']) = naturalOf digits * 10 ^ (n : ℤ) := by
  have happend : digits ++ List.replicate n '0' ++ ['0'] = digits ++ List.replicate (n + 1) '0' := by
    rw [List.append_assoc, List.replicate_succ']
  rw [read_point (hd.append (digits_replicate n)) digits_zero, happend, naturalOf_append_zeros,
    List.length_singleton, pow_succ]
  push_cast
  rw [zpow_natCast, zpow_neg_one]
  ring

/-- A point among the digits. -/
theorem read_split (hd : Digits digits) {n : ℕ} (hn : n ≤ digits.length) :
    read (digits.take n ++ '.' :: digits.drop n) =
      naturalOf digits * 10 ^ ((n : ℤ) - digits.length) := by
  rw [read_point (fun c hc => hd c (List.mem_of_mem_take hc))
    (fun c hc => hd c (List.mem_of_mem_drop hc)), List.take_append_drop, List.length_drop]
  congr 2
  omega

/-- Where the notation is written in full, it stands for its digits with the first of them at
`10 ^ exponent`. -/
theorem read_full (hd : Digits digits) {exponent : ℤ} (h : 0 ≤ exponent) :
    read (digits.take (exponent.toNat + 1) ++
      List.replicate (exponent + 1 - digits.length).toNat '0' ++
      '.' :: (if (digits.drop (exponent.toNat + 1)).isEmpty then ['0']
        else digits.drop (exponent.toNat + 1))) =
      naturalOf digits * 10 ^ (exponent + 1 - digits.length) := by
  by_cases hlen : digits.length ≤ exponent.toNat + 1
  · rw [List.drop_of_length_le hlen, List.take_of_length_le hlen, List.isEmpty_nil, if_pos rfl,
      read_filled hd, Int.toNat_of_nonneg (by omega)]
  · have hne : ¬ (digits.drop (exponent.toNat + 1)).isEmpty = true := by
      rw [List.isEmpty_iff, List.drop_eq_nil_iff]
      exact hlen
    have hzero : (exponent + 1 - digits.length).toNat = 0 := by omega
    rw [if_neg hne, hzero, List.replicate_zero, List.append_nil, read_split hd (by omega)]
    congr 2
    omega

/-- The notation stands for its digits behind one another, the first of them at `10 ^ exponent`. -/
theorem read_render (hd : Digits digits) (exponent : ℤ) :
    read (render digits exponent) = naturalOf digits * 10 ^ (exponent + 1 - digits.length) := by
  unfold render
  simp only
  split
  next hrange =>
    split
    next hneg =>
      rw [read_zeros hd]
      congr 2
      push_cast
      omega
    next hnonneg => exact read_full hd (by omega)
  next hrange =>
    split
    next => simp [read, naturalOf]
    next digit =>
      have hall : ∀ c ∈ [digit], (c != 'e') = true := fun c hc => ne_of_isDigit (hd c hc) rfl
      rw [← List.singleton_append, read_power hall, integerOf_signed, read_digits hd]
      simp
    next digit part hpart =>
      have hpoint : ∀ c ∈ digit :: '.' :: part, (c != 'e') = true := by
        intro c hc
        rcases List.mem_cons.1 hc with rfl | hc
        · exact ne_of_isDigit (hd c List.mem_cons_self) rfl
        · rcases List.mem_cons.1 hc with rfl | hc
          · rfl
          · exact ne_of_isDigit (hd c (List.mem_cons_of_mem _ hc)) rfl
      have hsplit := read_split hd (show 1 ≤ (digit :: part).length by simp)
      rw [read_power hpoint, integerOf_signed]
      change read (digit :: '.' :: part) = _ at hsplit
      rw [hsplit, mul_assoc, ← zpow_add₀ (by norm_num)]
      congr 2
      push_cast
      ring

/-- A digit comes first, a point or an exponent follows, and all else are digits and signs. -/
structure IsNotation (text : List Char) : Prop where
  head : ∃ c rest, text = c :: rest ∧ c.isDigit = true
  chars : ∀ c ∈ text, c.isDigit = true ∨ c ∈ ['.', 'e', '-', '+']
  mark : ∃ c ∈ text, c ∈ ['.', 'e']

theorem isNotation_cons {digit : Char} (hd : digit.isDigit = true) {rest : List Char}
    (hc : ∀ c ∈ rest, c.isDigit = true ∨ c ∈ ['.', 'e', '-', '+'])
    (hm : ∃ c ∈ rest, c ∈ ['.', 'e']) : IsNotation (digit :: rest) := by
  obtain ⟨c, hmem, hmark⟩ := hm
  exact ⟨⟨digit, rest, rfl, hd⟩, List.forall_mem_cons.2 ⟨.inl hd, hc⟩,
    ⟨c, List.mem_cons_of_mem _ hmem, hmark⟩⟩

theorem isNotation_render (hd : Digits digits) (hne : digits ≠ []) (exponent : ℤ) :
    IsNotation (render digits exponent) := by
  obtain ⟨digit, part, rfl⟩ := List.exists_cons_of_ne_nil hne
  have hdigit := hd digit List.mem_cons_self
  have hpart : ∀ c ∈ part, c.isDigit = true := fun c hc => hd c (List.mem_cons_of_mem _ hc)
  have hpower : ∀ c ∈ (if exponent < 0 then '-' else '+') :: Nat.toDigits 10 exponent.natAbs,
      c.isDigit = true ∨ c ∈ ['.', 'e', '-', '+'] := by
    rw [List.forall_mem_cons]
    exact ⟨.inr (by split <;> simp),
      fun c hc => .inl (Nat.isDigit_of_mem_toDigits (by norm_num) (by norm_num) hc)⟩
  unfold render
  simp only
  split
  · split
    · apply isNotation_cons rfl
      · change ∀ c ∈ '.' :: (List.replicate (-exponent - 1).toNat '0' ++ digit :: part), _
        rw [List.forall_mem_cons, List.forall_mem_append]
        exact ⟨.inr (by simp), fun c hc => .inl (digits_replicate _ c hc), fun c hc => .inl (hd c hc)⟩
      · exact ⟨'.', by simp, by simp⟩
    · rw [List.take_succ_cons, List.cons_append, List.cons_append]
      apply isNotation_cons hdigit
      · simp only [List.forall_mem_append, List.forall_mem_cons]
        refine ⟨⟨fun c hc => .inl (hpart c (List.mem_of_mem_take hc)),
          fun c hc => .inl (digits_replicate _ c hc)⟩, .inr (by simp), fun c hc => .inl ?_⟩
        split at hc
        · exact digits_zero c hc
        · exact hd c (List.mem_of_mem_drop hc)
      · exact ⟨'.', by simp, by simp⟩
  · cases part with
    | nil =>
      apply isNotation_cons hdigit
      · exact List.forall_mem_cons.2 ⟨.inr (by simp), hpower⟩
      · exact ⟨'e', by simp, by simp⟩
    | cons second part =>
      apply isNotation_cons hdigit
      · change ∀ c ∈ '.' :: (second :: part ++ 'e' :: _), _
        rw [List.forall_mem_cons, List.forall_mem_append]
        exact ⟨.inr (by simp), fun c hc => .inl (hpart c hc),
          List.forall_mem_cons.2 ⟨.inr (by simp), hpower⟩⟩
      · exact ⟨'.', by simp, by simp⟩

end Render

/-- Zeros at the end are all that is left out. -/
theorem significant_append (digits : List Char) :
    ∃ n, digits = significant digits ++ List.replicate n '0' := by
  have hsplit := List.takeWhile_append_dropWhile (p := (· == '0')) (l := digits.reverse)
  have hzeros : digits.reverse.takeWhile (· == '0') =
      List.replicate (digits.reverse.takeWhile (· == '0')).length '0' := by
    rw [List.eq_replicate_iff]
    exact ⟨rfl, fun c hc => by simpa using List.mem_takeWhile_imp hc⟩
  refine ⟨(digits.reverse.takeWhile (· == '0')).length, ?_⟩
  have hreverse := congrArg List.reverse hsplit
  rw [List.reverse_append, List.reverse_reverse, hzeros, List.reverse_replicate] at hreverse
  exact hreverse.symm

theorem digits_significant (n : ℕ) : Digits (significant (Nat.toDigits 10 n)) := by
  intro c hc
  obtain ⟨z, hz⟩ := significant_append (Nat.toDigits 10 n)
  refine digits_toDigits n c ?_
  rw [hz]
  exact List.mem_append_left _ hc

/-- What is written for `n * 10 ^ k` stands for it. -/
theorem read_significant (n : ℕ) (k : ℤ) :
    read (render (significant (Nat.toDigits 10 n)) (k + (Nat.toDigits 10 n).length - 1)) =
      n * 10 ^ k := by
  obtain ⟨z, hz⟩ := significant_append (Nat.toDigits 10 n)
  have hn : naturalOf (Nat.toDigits 10 n) = n := Nat.ofDigitChars_ten_toDigits
  have hlength := congrArg List.length hz
  rw [List.length_append, List.length_replicate] at hlength
  rw [hz, naturalOf_append_zeros] at hn
  have hexponent : k + ((Nat.toDigits 10 n).length : ℤ) - 1 + 1 -
      ((significant (Nat.toDigits 10 n)).length : ℤ) = z + k := by omega
  have hn' : (10 : ℚ) ^ z * naturalOf (significant (Nat.toDigits 10 n)) = n := by exact_mod_cast hn
  rw [read_render (digits_significant n), hexponent, zpow_add₀ (by norm_num), zpow_natCast, ← hn']
  ring

theorem significant_ne_nil {n : ℕ} (hn : 0 < n) : significant (Nat.toDigits 10 n) ≠ [] := by
  intro hnil
  obtain ⟨z, hz⟩ := significant_append (Nat.toDigits 10 n)
  have hvalue : naturalOf (Nat.toDigits 10 n) = n := Nat.ofDigitChars_ten_toDigits
  rw [hz, naturalOf_append_zeros, hnil] at hvalue
  simp [naturalOf] at hvalue
  omega

/-- The text of the size of a float. -/
def sizeText (b : Binary) : List Char :=
  if b.mantissa = 0 then ['0', '.', '0']
  else
    render (significant (Nat.toDigits 10 b.shortest.1))
      (b.shortest.2 + (Nat.toDigits 10 b.shortest.1).length - 1)

theorem textOf_eq (x : Float) : textOf x =
    String.ofList (if UInt64.size ≤ 2 * x.toBits.toNat then '-' :: sizeText (Binary.ofFloat x)
      else sizeText (Binary.ofFloat x)) := rfl

theorem isNotation_sizeText {b : Binary} (hb : b.Canonical) : IsNotation (sizeText b) := by
  unfold sizeText
  split
  · exact isNotation_cons rfl (by simp) ⟨'.', by simp, by simp⟩
  next hm =>
    have hpos := (Binary.shortest_covers hb (Nat.pos_of_ne_zero hm)).1
    exact isNotation_render (digits_significant _) (significant_ne_nil hpos) _

/-- The text of a size stands for a number that reads back as it. -/
theorem read_sizeText {b : Binary} (hb : b.Canonical) :
    if b.mantissa = 0 then read (sizeText b) = 0
    else 0 < read (sizeText b) ∧ b.Covers (read (sizeText b)) := by
  unfold sizeText
  split
  · have hzero := read_filled digits_zero 0
    change read ['0', '.', '0'] = _ at hzero
    rw [hzero]
    simp [naturalOf, Nat.ofDigitChars]
  next hm =>
    obtain ⟨hpos, hcovers⟩ := Binary.shortest_covers hb (Nat.pos_of_ne_zero hm)
    rw [read_significant]
    have hpos' : (0 : ℚ) < b.shortest.1 := by exact_mod_cast hpos
    exact ⟨mul_pos hpos' (zpow_pos (by norm_num) _), hcovers⟩

theorem sizeText_inj {a b : Binary} (ha : a.Canonical) (hb : b.Canonical)
    (h : sizeText a = sizeText b) : a.mantissa = b.mantissa ∧ (a.mantissa ≠ 0 → a = b) := by
  have hra := read_sizeText ha
  have hrb := read_sizeText hb
  rw [h] at hra
  split at hra
  next hma =>
    split at hrb
    next hmb => exact ⟨hma.trans hmb.symm, fun hne => absurd hma hne⟩
    next => exact absurd hra hrb.1.ne'
  next hma =>
    split at hrb
    next => exact absurd hrb hra.1.ne'
    next hmb =>
      have heq := hra.2.unique ha hb hrb.2
      exact ⟨congrArg Binary.mantissa heq, fun _ => heq⟩

end GraphQLClient.Decimal

namespace GraphQLClient

namespace Binary

theorem mantissa_ofFloat (x : Float) : (ofFloat x).mantissa = x.toBits.toNat % implicitBit +
    if x.toBits.toNat / implicitBit % 2048 = 0 then 0 else implicitBit := by
  unfold ofFloat
  simp only
  split <;> simp

theorem exponent_ofFloat (x : Float) : (ofFloat x).exponent =
    if x.toBits.toNat / implicitBit % 2048 = 0 then -1074
      else ((x.toBits.toNat / implicitBit % 2048 : ℕ) : ℤ) - 1075 := by
  unfold ofFloat
  simp only
  split <;> rfl

/-- Sign and size determine a float. -/
theorem ofFloat_inj {x y : Float}
    (hs : UInt64.size ≤ 2 * x.toBits.toNat ↔ UInt64.size ≤ 2 * y.toBits.toNat)
    (hm : (ofFloat x).mantissa = (ofFloat y).mantissa)
    (h : (ofFloat x).mantissa ≠ 0 → ofFloat x = ofFloat y) : x = y := by
  have hx := x.toBits.toNat_lt
  have hy := y.toBits.toNat_lt
  have hexponent : (ofFloat x).mantissa ≠ 0 → (ofFloat x).exponent = (ofFloat y).exponent :=
    fun hne => congrArg exponent (h hne)
  rw [mantissa_ofFloat, mantissa_ofFloat] at hm
  rw [mantissa_ofFloat, exponent_ofFloat, exponent_ofFloat] at hexponent
  simp only [implicitBit, UInt64.size] at hs hm hexponent
  have hbits : x.toBits.toNat = y.toBits.toNat := by
    by_cases hfx : x.toBits.toNat / 4503599627370496 % 2048 = 0 <;>
      by_cases hfy : y.toBits.toNat / 4503599627370496 % 2048 = 0 <;>
      simp only [hfx, hfy, if_true, if_false] at hm hexponent <;> omega
  exact Float.toBits_inj.1 (UInt64.toNat_inj.1 hbits)

end Binary

namespace Decimal

theorem sizeText_ne_minus {b : Binary} (hb : b.Canonical) (rest : List Char) :
    sizeText b ≠ '-' :: rest := by
  intro heq
  obtain ⟨c, rest', hc, hd⟩ := (isNotation_sizeText hb).head
  rw [hc] at heq
  rw [(List.cons.inj heq).1] at hd
  cases hd

/-- Different floats have different texts. -/
theorem textOf_inj {x y : Float} (h : textOf x = textOf y) : x = y := by
  have hx := Binary.canonical_ofFloat x
  have hy := Binary.canonical_ofFloat y
  rw [textOf_eq, textOf_eq, String.ofList_inj] at h
  have hsize : (UInt64.size ≤ 2 * x.toBits.toNat ↔ UInt64.size ≤ 2 * y.toBits.toNat) ∧
      sizeText (Binary.ofFloat x) = sizeText (Binary.ofFloat y) := by
    split at h <;> split at h
    next hnx hny => exact ⟨iff_of_true hnx hny, (List.cons.inj h).2⟩
    next => exact absurd h.symm (sizeText_ne_minus hy _)
    next => exact absurd h (sizeText_ne_minus hx _)
    next hnx hny => exact ⟨iff_of_false hnx hny, h⟩
  obtain ⟨hmantissa, heq⟩ := sizeText_inj hx hy hsize.2
  exact Binary.ofFloat_inj hsize.1 hmantissa heq

/-- A float is written as a notation, perhaps after a minus. -/
theorem isNotation_textOf (x : Float) :
    ∃ text, IsNotation text ∧ ((textOf x).toList = text ∨ (textOf x).toList = '-' :: text) := by
  refine ⟨_, isNotation_sizeText (Binary.canonical_ofFloat x), ?_⟩
  rw [textOf_eq, String.toList_ofList]
  split
  · exact .inr rfl
  · exact .inl rfl

end Decimal

end GraphQLClient
