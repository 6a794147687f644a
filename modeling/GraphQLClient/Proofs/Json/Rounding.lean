import Mathlib
import GraphQLClient.Json.Decimal

set_option autoImplicit false

/-!
# Decimals that read back as a float

Every float is the nearest one to all reals of an interval, and the intervals of different floats have
no real in common. The decimal that is written for a float lies in its interval: the grids that are
tried become finer than the interval long before the fuel ends.
-/

namespace GraphQLClient.Binary

/-- What the sizes of floats are like: subnormal ones have the least exponent, all others the leading
bit. -/
structure Canonical (b : Binary) : Prop where
  least : -1074 ≤ b.exponent
  greatest : b.exponent ≤ 972
  bounded : b.mantissa < 2 * implicitBit
  leading : b.exponent = -1074 ∨ implicitBit ≤ b.mantissa
  narrow_iff : b.narrowBelow = true ↔ b.mantissa = implicitBit ∧ -1074 < b.exponent

theorem canonical_ofFloat (x : Float) : (ofFloat x).Canonical := by
  have hfield : x.toBits.toNat / implicitBit % 2048 < 2048 := Nat.mod_lt _ (by decide)
  have hfraction : x.toBits.toNat % implicitBit < implicitBit := Nat.mod_lt _ (by decide)
  unfold ofFloat
  simp only
  split
  next hz => exact ⟨by simp, by simp, by simp only; omega, .inl rfl, by simp⟩
  next hz =>
    constructor
    · simp only; omega
    · simp only; omega
    · simp only; omega
    · exact .inr (Nat.le_add_left _ _)
    · simp only [Bool.and_eq_true, decide_eq_true_eq, Nat.add_eq_right]
      omega

/-- The quarter of the last binary digit. -/
def quarter (b : Binary) : ℚ := 2 ^ (b.exponent - 2)

/-- Where the interval begins, in quarters. -/
def lowest (b : Binary) : ℕ := 4 * b.mantissa - if b.narrowBelow then 1 else 2

/-- Where the interval ends, in quarters. -/
def highest (b : Binary) : ℕ := 4 * b.mantissa + 2

/-- The real reads back as the float. -/
def Covers (b : Binary) (v : ℚ) : Prop :=
  if b.mantissa % 2 = 0 then b.lowest * b.quarter ≤ v ∧ v ≤ b.highest * b.quarter
  else b.lowest * b.quarter < v ∧ v < b.highest * b.quarter

variable {a b : Binary} {v : ℚ}

theorem quarter_pos (b : Binary) : 0 < b.quarter := zpow_pos (by norm_num) _

theorem Covers.le (h : b.Covers v) : b.lowest * b.quarter ≤ v ∧ v ≤ b.highest * b.quarter := by
  unfold Covers at h
  split at h
  · exact h
  · exact ⟨h.1.le, h.2.le⟩

theorem Covers.lt (h : b.Covers v) (hodd : b.mantissa % 2 = 1) :
    b.lowest * b.quarter < v ∧ v < b.highest * b.quarter := by
  unfold Covers at h
  rwa [if_neg (by omega)] at h

/-! ## Intervals of different floats -/

/-- The interval of `a` ends where that of `b` begins, or before. -/
def Below (a b : Binary) : Prop :=
  a.highest * a.quarter ≤ b.lowest * b.quarter ∧
    (a.mantissa % 2 = 0 → b.mantissa % 2 = 0 → a.highest * a.quarter < b.lowest * b.quarter)

theorem Below.not_covers (h : Below a b) (ha : a.Covers v) (hb : b.Covers v) : False := by
  rcases Nat.mod_two_eq_zero_or_one a.mantissa with hea | hoa
  · rcases Nat.mod_two_eq_zero_or_one b.mantissa with heb | hob
    · exact absurd (hb.le.1.trans ha.le.2) (not_le.2 (h.2 hea heb))
    · exact absurd ((hb.lt hob).1.trans_le ha.le.2) (not_lt.2 h.1)
  · exact absurd (hb.le.1.trans_lt (ha.lt hoa).2) (not_lt.2 h.1)

theorem below_of_mantissa_lt (he : a.exponent = b.exponent) (h : a.mantissa < b.mantissa) :
    Below a b := by
  have hq : a.quarter = b.quarter := by rw [quarter, quarter, he]
  have hpos := b.quarter_pos
  unfold Below
  rw [hq]
  constructor
  · have hle : a.highest ≤ b.lowest := by unfold highest lowest; split <;> omega
    have hle' : (a.highest : ℚ) ≤ b.lowest := by exact_mod_cast hle
    exact mul_le_mul_of_nonneg_right hle' hpos.le
  · intro hea heb
    have hlt : a.highest < b.lowest := by unfold highest lowest; split <;> omega
    have hlt' : (a.highest : ℚ) < b.lowest := by exact_mod_cast hlt
    exact mul_lt_mul_of_pos_right hlt' hpos

theorem two_mul_quarter_le (h : a.exponent < b.exponent) : 2 * a.quarter ≤ b.quarter := by
  have hsplit : 2 * a.quarter = 2 ^ (a.exponent - 1) := by
    rw [quarter, show a.exponent - 1 = (a.exponent - 2) + 1 by ring, zpow_add_one₀ (by norm_num)]
    ring
  rw [hsplit, quarter]
  exact zpow_le_zpow_right₀ (by norm_num) (by omega)

theorem below_of_exponent_lt (ha : a.Canonical) (hb : b.Canonical) (h : a.exponent < b.exponent) :
    Below a b := by
  have hq := two_mul_quarter_le h
  have hpos := a.quarter_pos
  have hbounded := ha.bounded
  have hleading : implicitBit ≤ b.mantissa := hb.leading.resolve_left (by have := ha.least; omega)
  -- in quarters of `a` the interval of `b` begins at `2 * b.lowest` or later
  have hstart : (2 * b.lowest : ℕ) * a.quarter ≤ b.lowest * b.quarter := by
    push_cast
    have hn : (0 : ℚ) ≤ b.lowest := Nat.cast_nonneg _
    nlinarith
  have hnarrow : b.mantissa = implicitBit → b.narrowBelow = true := fun hm =>
    hb.narrow_iff.2 ⟨hm, by have := ha.least; omega⟩
  have hbit : implicitBit = 4503599627370496 := rfl
  unfold Below
  constructor
  · have hle : a.highest ≤ 2 * b.lowest := by
      unfold highest lowest
      split
      · omega
      · have hne : b.mantissa ≠ implicitBit := fun hm => absurd (hnarrow hm) (by assumption)
        omega
    have hle' : (a.highest : ℚ) ≤ (2 * b.lowest : ℕ) := by exact_mod_cast hle
    exact (mul_le_mul_of_nonneg_right hle' hpos.le).trans hstart
  · intro hea heb
    have hlt : a.highest < 2 * b.lowest := by
      unfold highest lowest
      split
      · omega
      · have hne : b.mantissa ≠ implicitBit := fun hm => absurd (hnarrow hm) (by assumption)
        omega
    have hlt' : (a.highest : ℚ) < (2 * b.lowest : ℕ) := by exact_mod_cast hlt
    exact (mul_lt_mul_of_pos_right hlt' hpos).trans_le hstart

/-- A real reads back as one float only. -/
theorem Covers.unique (ha : a.Canonical) (hb : b.Canonical) (hva : a.Covers v) (hvb : b.Covers v) :
    a = b := by
  have hexponent : a.exponent = b.exponent := by
    rcases lt_trichotomy a.exponent b.exponent with h | h | h
    · exact ((below_of_exponent_lt ha hb h).not_covers hva hvb).elim
    · exact h
    · exact ((below_of_exponent_lt hb ha h).not_covers hvb hva).elim
  have hmantissa : a.mantissa = b.mantissa := by
    rcases lt_trichotomy a.mantissa b.mantissa with h | h | h
    · exact ((below_of_mantissa_lt hexponent h).not_covers hva hvb).elim
    · exact h
    · exact ((below_of_mantissa_lt hexponent.symm h).not_covers hvb hva).elim
  have hnarrow : a.narrowBelow = b.narrowBelow := by
    rw [Bool.eq_iff_iff, ha.narrow_iff, hb.narrow_iff, hexponent, hmantissa]
  cases a
  cases b
  simp_all

/-! ## The search -/

/-- Powers of ten and of two, multiplied out to whole numbers. -/
theorem scaled (e k : ℤ) :
    ((Nat.pow 2 e.toNat * Nat.pow 10 (-k).toNat : ℕ) : ℚ) * 10 ^ k =
      2 ^ e * ((Nat.pow 2 (-e).toNat * Nat.pow 10 k.toNat : ℕ) : ℚ) := by
  have htwo : (2 : ℚ) ^ e * 2 ^ (-e).toNat = 2 ^ e.toNat := by
    rw [← zpow_natCast, ← zpow_natCast, ← zpow_add₀ (by norm_num)]
    congr 1
    omega
  have hten : (10 : ℚ) ^ (-k).toNat * 10 ^ k = 10 ^ k.toNat := by
    rw [← zpow_natCast, ← zpow_natCast, ← zpow_add₀ (by norm_num)]
    congr 1
    omega
  simp only [Nat.pow_eq]
  push_cast
  calc (2 : ℚ) ^ e.toNat * 10 ^ (-k).toNat * 10 ^ k
      = 2 ^ e.toNat * (10 ^ (-k).toNat * 10 ^ k) := by ring
    _ = 2 ^ e * 2 ^ (-e).toNat * 10 ^ k.toNat := by rw [hten, htwo]
    _ = 2 ^ e * (2 ^ (-e).toNat * 10 ^ k.toNat) := by ring

/-- The two factors of a grid, in its own terms. -/
structure Scale (q t : ℚ) (up down : ℕ) : Prop where
  unit : 0 < t
  positive : 0 < down
  balance : (up : ℚ) * t = q * (down : ℚ)

namespace Scale

variable {q t : ℚ} {up down n digits : ℕ}

theorem cast_mul_up (h : Scale q t up down) : ((n * up : ℕ) : ℚ) * t = n * q * down := by
  push_cast
  rw [mul_assoc, h.balance, mul_assoc]

theorem cast_mul_down : ((digits * down : ℕ) : ℚ) * t = digits * t * down := by
  push_cast
  ring

theorem le_iff (h : Scale q t up down) : n * up ≤ digits * down ↔ (n : ℚ) * q ≤ digits * t := by
  have hd : (0 : ℚ) < down := by exact_mod_cast h.positive
  rw [← mul_le_mul_iff_of_pos_right hd, ← h.cast_mul_up, ← cast_mul_down,
    mul_le_mul_iff_of_pos_right h.unit, Nat.cast_le]

theorem ge_iff (h : Scale q t up down) : digits * down ≤ n * up ↔ (digits : ℚ) * t ≤ n * q := by
  have hd : (0 : ℚ) < down := by exact_mod_cast h.positive
  rw [← mul_le_mul_iff_of_pos_right hd, ← h.cast_mul_up, ← cast_mul_down,
    mul_le_mul_iff_of_pos_right h.unit, Nat.cast_le]

theorem lt_iff (h : Scale q t up down) : n * up < digits * down ↔ (n : ℚ) * q < digits * t := by
  rw [← not_le, ← not_le, h.ge_iff]

theorem gt_iff (h : Scale q t up down) : digits * down < n * up ↔ (digits : ℚ) * t < n * q := by
  rw [← not_le, ← not_le, h.le_iff]

end Scale

theorem covers_iff {digits up down : ℕ} {t : ℚ} (h : Scale b.quarter t up down) :
    b.covers digits up down = true ↔ b.Covers (digits * t) := by
  have hlow : (4 * b.mantissa - if b.narrowBelow then 1 else 2) * up ≤ digits * down ↔
      (b.lowest : ℚ) * b.quarter ≤ digits * t := h.le_iff
  have hlow' : (4 * b.mantissa - if b.narrowBelow then 1 else 2) * up < digits * down ↔
      (b.lowest : ℚ) * b.quarter < digits * t := h.lt_iff
  have hhigh : digits * down ≤ (4 * b.mantissa + 2) * up ↔
      (digits : ℚ) * t ≤ b.highest * b.quarter := h.ge_iff
  have hhigh' : digits * down < (4 * b.mantissa + 2) * up ↔
      (digits : ℚ) * t < b.highest * b.quarter := h.gt_iff
  unfold covers Covers
  by_cases he : b.mantissa % 2 = 0
  · simp only [he, if_true, Bool.and_eq_true, decide_eq_true_eq, hlow, hhigh]
  · simp only [he, if_false, Bool.and_eq_true, decide_eq_true_eq, hlow', hhigh']

theorem scale_onGrid (b : Binary) (k : ℤ) : Scale b.quarter (10 ^ k)
    (Nat.pow 2 (b.exponent - 2).toNat * Nat.pow 10 (-k).toNat)
    (Nat.pow 2 (2 - b.exponent).toNat * Nat.pow 10 k.toNat) := by
  constructor
  · exact zpow_pos (by norm_num) _
  · exact Nat.mul_pos (Nat.pow_pos (by norm_num)) (Nat.pow_pos (by norm_num))
  · rw [← neg_sub b.exponent 2]
    exact scaled (b.exponent - 2) k

/-- A multiple of the grid that is chosen is positive and reads back. -/
theorem covers_of_onGrid? {k : ℤ} {digits : ℕ} (h : b.onGrid? k = some digits) :
    0 < digits ∧ b.Covers (digits * 10 ^ k) := by
  have hs := b.scale_onGrid k
  rw [← covers_iff hs]
  unfold onGrid? at h
  simp only at h
  generalize Nat.pow 2 (b.exponent - 2).toNat * Nat.pow 10 (-k).toNat = up at h hs ⊢
  generalize Nat.pow 2 (2 - b.exponent).toNat * Nat.pow 10 k.toNat = down at h hs ⊢
  generalize 4 * b.mantissa * up / down = below at h
  split at h
  next hboth =>
    simp only [Bool.and_eq_true, decide_eq_true_eq] at hboth
    split_ifs at h <;> obtain rfl := Option.some.inj h
    · exact hboth.1
    · exact ⟨Nat.succ_pos _, hboth.2⟩
    · exact hboth.1
    · exact ⟨Nat.succ_pos _, hboth.2⟩
  next =>
    split_ifs at h with hbelow habove <;> obtain rfl := Option.some.inj h
    · simpa using hbelow
    · exact ⟨Nat.succ_pos _, habove⟩

/-- On a grid that is fine enough the multiple above reads back. -/
theorem onGrid?_isSome {k : ℤ} (hk : (10 : ℚ) ^ k < 2 * b.quarter) :
    (b.onGrid? k).isSome := by
  have hs := b.scale_onGrid k
  unfold onGrid?
  simp only
  generalize Nat.pow 2 (b.exponent - 2).toNat * Nat.pow 10 (-k).toNat = up at hs ⊢
  generalize Nat.pow 2 (2 - b.exponent).toNat * Nat.pow 10 k.toNat = down at hs ⊢
  have hfine : 1 * down < 2 * up := hs.gt_iff.2 (by simpa using hk)
  have hup : 0 < up := by omega
  have hvalue := Nat.div_add_mod (4 * b.mantissa * up) down
  have hmod := Nat.mod_lt (4 * b.mantissa * up) hs.positive
  generalize 4 * b.mantissa * up / down = below at hvalue ⊢
  have habove : b.covers (below + 1) up down = true := by
    have hpoint : (below + 1) * down = down * below + down := by ring
    have hlow : (4 * b.mantissa - if b.narrowBelow then 1 else 2) * up ≤ 4 * b.mantissa * up :=
      Nat.mul_le_mul_right _ (Nat.sub_le _ _)
    have hhigh : (4 * b.mantissa + 2) * up = 4 * b.mantissa * up + 2 * up := by ring
    unfold covers
    simp only
    split
    · simp only [Bool.and_eq_true, decide_eq_true_eq]
      omega
    · simp only [Bool.and_eq_true, decide_eq_true_eq]
      omega
  rw [habove]
  split_ifs <;> first | rfl | simp_all

theorem firstGrid_of_isSome (b : Binary) {fuel j : ℕ} {k : ℤ} (hj : j < fuel)
    (h : (b.onGrid? (k - j)).isSome) :
    b.onGrid? (b.firstGrid fuel k).2 = some (b.firstGrid fuel k).1 := by
  induction fuel generalizing j k with
  | zero => omega
  | succ fuel ih =>
    unfold firstGrid
    cases hg : b.onGrid? k with
    | some digits => exact hg
    | none =>
      cases j with
      | zero => simp [hg] at h
      | succ j =>
        refine ih (j := j) (by omega) ?_
        rw [show k - 1 - (j : ℤ) = k - ((j + 1 : ℕ) : ℤ) by push_cast; ring]
        exact h

/-- A power of ten is smaller than a power of two if its exponent is by a margin: `10 ^ 3` is less than
`2 ^ 10`, and `2 ^ 33` is less than `10 ^ 10`. -/
theorem ten_zpow_lt {k e : ℤ} (h : 0 ≤ k → 10 * (k + 2) < 3 * e)
    (h' : e < 0 → 10 * (32 - e) < 33 * -k) : (10 : ℚ) ^ k < 2 ^ e := by
  rcases le_or_gt 0 k with hk | hk
  · obtain ⟨n, rfl⟩ := Int.eq_ofNat_of_zero_le hk
    have he := h hk
    calc (10 : ℚ) ^ (n : ℤ) = 10 ^ n := zpow_natCast _ _
      _ ≤ 10 ^ (3 * ((n + 2) / 3)) := pow_le_pow_right₀ (by norm_num) (by omega)
      _ = 1000 ^ ((n + 2) / 3) := by rw [pow_mul]; norm_num
      _ ≤ 1024 ^ ((n + 2) / 3) := pow_le_pow_left₀ (by norm_num) (by norm_num) _
      _ = 2 ^ (10 * ((n + 2) / 3)) := by rw [pow_mul]; norm_num
      _ = 2 ^ ((10 * ((n + 2) / 3) : ℕ) : ℤ) := (zpow_natCast _ _).symm
      _ < 2 ^ e := zpow_lt_zpow_right₀ (by norm_num) (by omega)
  · rcases le_or_gt 0 e with he | he
    · exact (zpow_lt_one_of_neg₀ (by norm_num) hk).trans_le (one_le_zpow₀ (by norm_num) he)
    · obtain ⟨n, hn⟩ := Int.eq_ofNat_of_zero_le (show 0 ≤ -k by omega)
      obtain ⟨m, hm⟩ := Int.eq_ofNat_of_zero_le (show 0 ≤ -e by omega)
      have hmargin := h' he
      have hpow : (2 : ℚ) ^ m < 10 ^ n := by
        calc (2 : ℚ) ^ m ≤ 2 ^ (33 * ((m + 32) / 33)) := pow_le_pow_right₀ (by norm_num) (by omega)
          _ = 8589934592 ^ ((m + 32) / 33) := by rw [pow_mul]; norm_num
          _ ≤ 10000000000 ^ ((m + 32) / 33) := pow_le_pow_left₀ (by norm_num) (by norm_num) _
          _ = 10 ^ (10 * ((m + 32) / 33)) := by rw [pow_mul]; norm_num
          _ < 10 ^ n := pow_lt_pow_right₀ (by norm_num) (by omega)
      rw [show k = -(n : ℤ) by omega, show e = -(m : ℤ) by omega, zpow_neg, zpow_neg, zpow_natCast,
        zpow_natCast]
      exact inv_strictAnti₀ (by positivity) hpow

/-- The decimal that is written reads back as the float. -/
theorem shortest_covers (hb : b.Canonical) (hm : 0 < b.mantissa) :
    0 < b.shortest.1 ∧ b.Covers (b.shortest.1 * 10 ^ b.shortest.2) := by
  apply covers_of_onGrid?
  unfold shortest
  simp only
  -- the last grid that is tried is fine enough
  apply firstGrid_of_isSome (j := 39) b (by norm_num)
  apply onGrid?_isSome
  have hlog : b.mantissa.log2 < 53 := (Nat.log2_lt hm.ne').2 hb.bounded
  have hfdiv := Int.fdiv_eq_ediv_of_nonneg ((b.exponent + b.mantissa.log2 + 2) * 30103)
    (show (0 : ℤ) ≤ 100000 by norm_num)
  have hquarter : 2 * b.quarter = 2 ^ (b.exponent - 1) := by
    rw [quarter, show b.exponent - 1 = (b.exponent - 2) + 1 by ring, zpow_add_one₀ (by norm_num)]
    ring
  have hleast := hb.least
  have hgreatest := hb.greatest
  rw [hquarter, hfdiv]
  apply ten_zpow_lt
  · intro hk
    push_cast at hk ⊢
    omega
  · intro he
    push_cast
    omega

end GraphQLClient.Binary
