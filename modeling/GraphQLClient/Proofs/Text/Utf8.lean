import GraphQLClient.Text.Utf8
import Mathlib.Data.List.Basic
import Mathlib.Tactic.SplitIfs

set_option autoImplicit false

/-!
# Reading UTF-8

Whole characters are read as they were written; a character of which only the first bytes are there
is read as one U+FFFD as soon as a byte of another character follows; and a text never gets fewer
characters than the bytes that it was read from have first bytes of characters.
-/

namespace GraphQLClient.Utf8

/-- The bytes of a text in UTF-8. -/
def encode (text : List Char) : List UInt8 := text.flatMap String.utf8EncodeChar

/-- Reads bytes with more to come: the characters completed, and what is pending. -/
def run : Option Pending → List UInt8 → List Char × Option Pending
  | pending, [] => ([], pending)
  | pending, byte :: rest =>
    let (found, next) := step pending byte.toNat
    (found ++ (run next rest).1, (run next rest).2)

/-- What becomes of a begun character where the bytes end. -/
def flush : Option Pending → List Char
  | none => []
  | some _ => [replacement]

theorem run_append (pending : Option Pending) (bytes rest : List UInt8) :
    run pending (bytes ++ rest) =
      ((run pending bytes).1 ++ (run (run pending bytes).2 rest).1,
        (run (run pending bytes).2 rest).2) := by
  induction bytes generalizing pending with
  | nil => rfl
  | cons byte bytes ih => simp only [List.cons_append, run, ih, List.append_assoc]

theorem decodeFrom_eq (pending : Option Pending) (bytes : List UInt8) :
    decodeFrom pending bytes = (run pending bytes).1 ++ flush (run pending bytes).2 := by
  induction bytes generalizing pending with
  | nil => cases pending <;> rfl
  | cons byte bytes ih =>
    have hnext := ih (step pending byte.toNat).2
    cases pending <;> simp only [decodeFrom, run, hnext, List.append_assoc]

theorem decodeFrom_append (pending : Option Pending) (bytes rest : List UInt8) :
    decodeFrom pending (bytes ++ rest) =
      (run pending bytes).1 ++ decodeFrom (run pending bytes).2 rest := by
  simp only [decodeFrom_eq, run_append, List.append_assoc]

/-! ## Whole characters -/

theorem encode_cons (c : Char) (text : List Char) :
    encode (c :: text) = String.utf8EncodeChar c ++ encode text := rfl

theorem first_one (a : Nat) (h : a < 0x80) : first a = some (.inl (Char.ofNat a)) := if_pos h

theorem first_two : ∀ a < 32, 2 ≤ a → first (a + 0xC0) = some (.inr ⟨a, 1, 0x80, 0xBF⟩) := by decide

theorem first_three : ∀ a < 16, first (a + 0xE0) =
    some (.inr ⟨a, 2, if a = 0 then 0xA0 else 0x80, if a = 0xD then 0x9F else 0xBF⟩) := by decide

theorem first_four : ∀ a < 5, first (a + 0xF0) =
    some (.inr ⟨a, 3, if a = 0 then 0x90 else 0x80, if a = 4 then 0x8F else 0xBF⟩) := by decide

theorem step_more (p : Pending) (byte : Nat) (h : p.low ≤ byte ∧ byte ≤ p.high)
    (hleft : 1 < p.left) :
    step (some p) byte = ([], some ⟨p.code * 64 + (byte - 0x80), p.left - 1, 0x80, 0xBF⟩) := by
  simp only [step]
  rw [if_pos h, if_neg (by omega)]

theorem step_last (p : Pending) (byte : Nat) (h : p.low ≤ byte ∧ byte ≤ p.high)
    (hleft : p.left = 1) :
    step (some p) byte = ([Char.ofNat (p.code * 64 + (byte - 0x80))], none) := by
  simp only [step]
  rw [if_pos h, if_pos (by omega)]

theorem start_pending {byte : Nat} {p : Pending} (h : first byte = some (.inr p)) :
    step none byte = ([], some p) := by
  simp only [step, start, h]

theorem toNat_byte {n : Nat} (h : n < 256) : (UInt8.ofNat n).toNat = n := by
  rw [UInt8.toNat_ofNat']
  exact Nat.mod_eq_of_lt h

/-- The four cases are the four lengths of a character; the ranges of the second byte are those
that `first` gives. -/
theorem run_encodeChar (c : Char) : run none (String.utf8EncodeChar c) = ([c], none) := by
  have hc : c.val.toNat < 0xD800 ∨ 0xDFFF < c.val.toNat ∧ c.val.toNat < 0x110000 := c.valid
  have hback : ∀ n, n = c.val.toNat → Char.ofNat n = c := fun n h => h ▸ Char.ofNat_toNat c
  fun_cases String.utf8EncodeChar c with
  | case1 v h =>
    simp only [run, toNat_byte (show v < 256 by omega), step, start,
      first_one v (by omega), hback v rfl]
    rfl
  | case2 v h₁ h₂ =>
    have hlead := start_pending (first_two (v / 64 % 32) (by omega) (by omega))
    simp only [run, toNat_byte (show v / 64 % 32 + 0xC0 < 256 by omega),
      toNat_byte (show v % 64 + 0x80 < 256 by omega), hlead]
    rw [step_last _ _ (by constructor <;> dsimp only <;> omega) rfl, hback _ (by dsimp only; omega)]
    rfl
  | case3 v h₁ h₂ h₃ =>
    have hlead := start_pending (first_three (v / 4096 % 16) (by omega))
    simp only [run, toNat_byte (show v / 4096 % 16 + 0xE0 < 256 by omega),
      toNat_byte (show v / 64 % 64 + 0x80 < 256 by omega),
      toNat_byte (show v % 64 + 0x80 < 256 by omega), hlead]
    rw [step_more _ _ (by constructor <;> dsimp only <;> split <;> omega) (by dsimp only; omega)]
    dsimp only
    rw [step_last _ _ (by constructor <;> dsimp only <;> omega) rfl, hback _ (by dsimp only; omega)]
    rfl
  | case4 v h₁ h₂ h₃ =>
    have hlead := start_pending (first_four (v / 262144 % 8) (by omega))
    simp only [run, toNat_byte (show v / 262144 % 8 + 0xF0 < 256 by omega),
      toNat_byte (show v / 4096 % 64 + 0x80 < 256 by omega),
      toNat_byte (show v / 64 % 64 + 0x80 < 256 by omega),
      toNat_byte (show v % 64 + 0x80 < 256 by omega), hlead]
    rw [step_more _ _ (by constructor <;> dsimp only <;> split <;> omega) (by dsimp only; omega)]
    dsimp only
    rw [step_more _ _ (by constructor <;> dsimp only <;> omega) (by dsimp only; omega)]
    dsimp only
    rw [step_last _ _ (by constructor <;> dsimp only <;> omega) rfl, hback _ (by dsimp only; omega)]
    rfl

theorem run_encode (text : List Char) : run none (encode text) = (text, none) := by
  induction text with
  | nil => rfl
  | cons c text ih => simp only [encode_cons, run_append, run_encodeChar, ih, List.singleton_append]

theorem decodeFrom_encode_append (text : List Char) (rest : List UInt8) :
    decodeFrom none (encode text ++ rest) = text ++ decodeFrom none rest := by
  rw [decodeFrom_append, run_encode]

/-- What is written is read back. -/
theorem decode_encode (text : List Char) : decode (encode text) = text := by
  rw [decode, decodeFrom_eq, run_encode]
  exact List.append_nil text

/-! ## Begun characters -/

/-- The next byte of a begun character is one that begins none. -/
def Pending.Inner (p : Pending) : Prop := 0x80 ≤ p.low ∧ p.high ≤ 0xBF

/-- A byte in the middle or at the end of a character. -/
def inner (byte : UInt8) : Bool := 0x80 ≤ byte.toNat && byte.toNat ≤ 0xBF

/-- The number of bytes that are not in the middle or at the end of a character. -/
def heads (bytes : List UInt8) : Nat := bytes.countP (!inner ·)

def begun : Option Pending → Nat
  | none => 0
  | some _ => 1

theorem first_inner {byte : Nat} {p : Pending} (h : first byte = some (.inr p)) :
    p.Inner ∧ 0xC0 ≤ byte := by
  unfold first at h
  split_ifs at h <;> simp only [Option.some.injEq, Sum.inr.injEq, reduceCtorEq] at h <;> subst h <;>
    exact ⟨⟨by dsimp only; omega, by dsimp only; omega⟩, by omega⟩

theorem start_inner (byte : Nat) : ∀ p ∈ (start byte).2, p.Inner := by
  intro p hp
  unfold start at hp
  split at hp <;> cases hp
  rename_i h
  exact (first_inner h).1

theorem step_inner {pending : Option Pending} (byte : Nat) :
    ∀ p ∈ (step pending byte).2, p.Inner := by
  intro p hp
  cases pending with
  | none => exact start_inner byte p hp
  | some q =>
    simp only [step] at hp
    split_ifs at hp
    · exact nomatch hp
    · obtain rfl : _ = p := Option.some.inj hp
      exact ⟨Nat.le_refl _, Nat.le_refl _⟩
    · exact start_inner byte p hp

theorem run_inner {pending : Option Pending} (h : ∀ p ∈ pending, p.Inner) (bytes : List UInt8) :
    ∀ p ∈ (run pending bytes).2, p.Inner := by
  induction bytes generalizing pending with
  | nil => exact h
  | cons byte bytes ih => exact ih (step_inner byte.toNat)

theorem one_le_start (byte : Nat) : 1 ≤ (start byte).1.length + begun (start byte).2 := by
  unfold start
  split <;> simp [begun]

/-- Each byte that is not inside a character completes or begins one, and ends the one begun. -/
theorem heads_step {pending : Option Pending} (h : ∀ p ∈ pending, p.Inner) (byte : UInt8) :
    heads [byte] + begun pending ≤
      (step pending byte.toNat).1.length + begun (step pending byte.toNat).2 := by
  have hstart := one_le_start byte.toNat
  cases pending with
  | none =>
    have hone : heads [byte] ≤ 1 := List.countP_le_length
    exact Nat.le_trans hone hstart
  | some p =>
    obtain ⟨hlow, hhigh⟩ := h p rfl
    simp only [step]
    split_ifs with hin hleft
    · have : heads [byte] = 0 := by simp [heads, inner]; omega
      simp [this, begun]
    · have : heads [byte] = 0 := by simp [heads, inner]; omega
      simp [this, begun]
    · have hone : heads [byte] ≤ 1 := List.countP_le_length
      simp only [List.length_cons, begun] at hstart ⊢
      omega

theorem heads_append (bytes rest : List UInt8) : heads (bytes ++ rest) = heads bytes + heads rest :=
  List.countP_append

theorem heads_run {pending : Option Pending} (h : ∀ p ∈ pending, p.Inner) (bytes : List UInt8) :
    heads bytes + begun pending ≤ (run pending bytes).1.length + begun (run pending bytes).2 := by
  induction bytes generalizing pending with
  | nil => simp [run, heads]
  | cons byte bytes ih =>
    have hone := heads_step h byte
    have hnext : ∀ p ∈ (step pending byte.toNat).2, p.Inner := step_inner byte.toNat
    have hrest := ih hnext
    have hcons : heads (byte :: bytes) = heads [byte] + heads bytes := heads_append [byte] bytes
    simp only [run, List.length_append]
    omega

theorem heads_le_length_decodeFrom (bytes : List UInt8) :
    heads bytes ≤ (decodeFrom none bytes).length := by
  have hnone : ∀ p ∈ (none : Option Pending), p.Inner := fun _ hp => nomatch hp
  have h := heads_run hnone bytes
  rw [decodeFrom_eq, List.length_append]
  cases hlast : (run none bytes).2 <;> simp only [hlast, flush, begun, List.length_nil,
    List.length_singleton] at h ⊢ <;> omega

theorem inner_byte {n : Nat} (h : n < 256) :
    inner (UInt8.ofNat n) = (decide (0x80 ≤ n) && decide (n ≤ 0xBF)) := by
  rw [inner, toNat_byte h]

/-- The first byte of a character is its only one of that kind. -/
theorem encodeChar_inner (c : Char) : ∃ byte rest, String.utf8EncodeChar c = byte :: rest ∧
    inner byte = false ∧ ∀ other ∈ rest, inner other = true := by
  have hc : c.val.toNat < 0xD800 ∨ 0xDFFF < c.val.toNat ∧ c.val.toNat < 0x110000 := c.valid
  fun_cases String.utf8EncodeChar c with
  | case1 v h =>
    refine ⟨_, _, rfl, ?_, by simp⟩
    rw [inner_byte (by omega)]
    simp; omega
  | case2 v h₁ h₂ =>
    refine ⟨_, _, rfl, ?_, ?_⟩
    · rw [inner_byte (by omega)]
      simp
    · simp only [List.mem_singleton, forall_eq]
      rw [inner_byte (by omega)]
      simp; omega
  | case3 v h₁ h₂ h₃ =>
    refine ⟨_, _, rfl, ?_, ?_⟩
    · rw [inner_byte (by omega)]
      simp
    · simp only [List.mem_cons, List.not_mem_nil, or_false, forall_eq_or_imp, forall_eq]
      rw [inner_byte (by omega), inner_byte (by omega)]
      simp; omega
  | case4 v h₁ h₂ h₃ =>
    refine ⟨_, _, rfl, ?_, ?_⟩
    · rw [inner_byte (by omega)]
      simp
    · simp only [List.mem_cons, List.not_mem_nil, or_false, forall_eq_or_imp, forall_eq]
      rw [inner_byte (by omega), inner_byte (by omega), inner_byte (by omega)]
      simp; omega

theorem heads_encode (text : List Char) : heads (encode text) = text.length := by
  induction text with
  | nil => rfl
  | cons c text ih =>
    obtain ⟨byte, rest, heq, hbyte, hrest⟩ := encodeChar_inner c
    have hone : heads (byte :: rest) = 1 := by
      have hzero : rest.countP (!inner ·) = 0 := by
        rw [List.countP_eq_zero]
        intro other hother
        simp [hrest other hother]
      simp [heads, hbyte, hzero]
    rw [encode_cons, heads_append, heq, hone, ih, List.length_cons, Nat.add_comm]

theorem one_le_step (pending : Option Pending) (byte : Nat) :
    1 ≤ (step pending byte).1.length + begun (step pending byte).2 := by
  cases pending with
  | none => exact one_le_start byte
  | some p =>
    simp only [step]
    split_ifs
    · exact Nat.le_refl 1
    · exact Nat.le_refl 1
    · simp only [List.length_cons]
      omega

/-- Reading on from inside a character, or at least one byte, leaves a trace. -/
theorem one_le_run {pending : Option Pending} {bytes : List UInt8}
    (h : pending ≠ none ∨ bytes ≠ []) :
    1 ≤ (run pending bytes).1.length + begun (run pending bytes).2 := by
  induction bytes generalizing pending with
  | nil =>
    cases pending with
    | none => simp at h
    | some p => simp [run, begun]
  | cons byte bytes ih =>
    have hone := one_le_step pending byte.toNat
    simp only [run, List.length_append]
    cases hnext : (step pending byte.toNat).2 with
    | none =>
      simp only [hnext, begun] at hone
      omega
    | some p =>
      have hsome : some p ≠ none ∨ bytes ≠ [] := .inl (by simp)
      have hrest := ih hsome
      omega

/-- The first bytes of a character give nothing before the others are there. -/
theorem run_lead {c : Char} {lead rest : List UInt8} (h : String.utf8EncodeChar c = lead ++ rest)
    (hlead : lead ≠ []) (hrest : rest ≠ []) : ∃ p, p.Inner ∧ run none lead = ([], some p) := by
  have hall := run_encodeChar c
  rw [h, run_append, Prod.mk.injEq] at hall
  obtain ⟨hchars, hnone⟩ := hall
  have hmore : (run none lead).2 ≠ none ∨ rest ≠ [] := .inr hrest
  have hsome := one_le_run hmore
  rw [hnone] at hsome
  have hlength := congrArg List.length hchars
  simp only [List.length_append, List.length_singleton, begun] at hlength hsome
  have hempty : (run none lead).1 = [] := List.length_eq_zero_iff.mp (by omega)
  have hfirst : (none : Option Pending) ≠ none ∨ lead ≠ [] := .inr hlead
  have hone := one_le_run hfirst
  rw [hempty] at hone
  cases hlast : (run none lead).2 with
  | none => simp [hlast, begun] at hone
  | some p =>
    have hinner : ∀ q ∈ (none : Option Pending), q.Inner := fun _ hq => nomatch hq
    refine ⟨p, run_inner hinner lead p hlast, ?_⟩
    rw [← hempty, ← hlast]

/-- A byte of ASCII is read as its character after whatever stands before it. -/
theorem step_ascii {pending : Option Pending} (h : ∀ p ∈ pending, p.Inner) {byte : UInt8}
    (hbyte : byte.toNat < 0x80) :
    step pending byte.toNat = (flush pending ++ [Char.ofNat byte.toNat], none) := by
  cases pending with
  | none => simp [step, start, first_one _ hbyte, flush]
  | some p =>
    have hout : ¬ (p.low ≤ byte.toNat ∧ byte.toNat ≤ p.high) := fun hin => by
      have := (h p rfl).1
      omega
    simp [step, hout, start, first_one _ hbyte, flush]

theorem decodeFrom_ascii {pending : Option Pending} (h : ∀ p ∈ pending, p.Inner) {byte : UInt8}
    (hbyte : byte.toNat < 0x80) (rest : List UInt8) :
    decodeFrom pending (byte :: rest) =
      flush pending ++ Char.ofNat byte.toNat :: decodeFrom none rest := by
  rw [decodeFrom, step_ascii h hbyte]
  simp

/-- The first bytes of a character, with the end of a line behind them. -/
theorem decodeFrom_lead {c : Char} {lead rest : List UInt8}
    (h : String.utf8EncodeChar c = lead ++ rest) (hlead : lead ≠ []) (hrest : rest ≠ [])
    {byte : UInt8} (hbyte : byte.toNat < 0x80) (more : List UInt8) :
    decodeFrom none (lead ++ byte :: more) =
      replacement :: Char.ofNat byte.toNat :: decodeFrom none more := by
  obtain ⟨p, hp, hrun⟩ := run_lead h hlead hrest
  have hinner : ∀ q ∈ some p, q.Inner := fun q hq => Option.some.inj hq ▸ hp
  rw [decodeFrom_append, hrun, decodeFrom_ascii hinner hbyte]
  rfl

end GraphQLClient.Utf8
