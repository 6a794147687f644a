import Mathlib.Tactic.SplitIfs
import GraphQLClient.Json.Printer

set_option autoImplicit false

/-!
# Quoted texts can be told apart

`unescape` takes one character off an escaped text. So escaping is a prefix code that never starts
with a quote: where a quoted text ends does not depend on what follows it.
-/

namespace GraphQLClient.Json

def hexValue (c : Char) : Nat := if c.isDigit then c.toNat - 48 else c.toNat - 87

/-- The first character of an escaped text, and what follows it. -/
def unescape : List Char → Option (Char × List Char)
  | '\\' :: 'u' :: '0' :: '0' :: high :: low :: rest =>
    some (Char.ofNat (16 * hexValue high + hexValue low), rest)
  | '\\' :: 'b' :: rest => some ('\x08', rest)
  | '\\' :: 'f' :: rest => some ('\x0c', rest)
  | '\\' :: 'n' :: rest => some ('\n', rest)
  | '\\' :: 'r' :: rest => some ('\r', rest)
  | '\\' :: 't' :: rest => some ('\t', rest)
  | '\\' :: c :: rest => some (c, rest)
  | c :: rest => some (c, rest)
  | [] => none

theorem hexValue_hexDigit {n : Nat} (h : n < 16) : hexValue (hexDigit n) = n := by
  have hall : ∀ n < 16, hexValue (hexDigit n) = n := by decide
  exact hall n h

theorem unescape_escapeChar (c : Char) (rest : List Char) :
    unescape (escapeChar c ++ rest) = some (c, rest) := by
  unfold escapeChar
  split_ifs with hquote hback hb hf hn hr ht hcontrol
  all_goals first | (subst c; rfl) | skip
  · change some (Char.ofNat (16 * hexValue (hexDigit (c.toNat / 16)) +
      hexValue (hexDigit (c.toNat % 16))), rest) = some (c, rest)
    rw [hexValue_hexDigit (by omega), hexValue_hexDigit (by omega), Nat.div_add_mod, Char.ofNat_toNat]
  · change unescape (c :: rest) = some (c, rest)
    unfold unescape
    split <;> simp_all

theorem escapeChar_append_inj {c d : Char} {r r' : List Char}
    (h : escapeChar c ++ r = escapeChar d ++ r') : c = d ∧ r = r' := by
  have heq := unescape_escapeChar c r
  rw [h, unescape_escapeChar, Option.some.injEq, Prod.mk.injEq] at heq
  exact ⟨heq.1.symm, heq.2.symm⟩

theorem escapeChar_append_ne (c : Char) (r r' : List Char) : escapeChar c ++ r ≠ '"' :: r' := by
  unfold escapeChar
  split_ifs <;> simp_all

/-- A quoted text ends where it ends, whatever it holds and whatever follows. -/
theorem quoted_append_inj {s t : String} {r r' : List Char}
    (h : (quoted s).toList ++ r = (quoted t).toList ++ r') : s = t ∧ r = r' := by
  have hlist : ∀ a b : List Char,
      a.flatMap escapeChar ++ '"' :: r = b.flatMap escapeChar ++ '"' :: r' → a = b ∧ r = r' := by
    intro a
    induction a with
    | nil =>
      intro b hb
      cases b with
      | nil => exact ⟨rfl, (List.cons.inj hb).2⟩
      | cons d b =>
        rw [List.flatMap_cons, List.append_assoc] at hb
        exact absurd hb.symm (escapeChar_append_ne d _ _)
    | cons c a ih =>
      intro b hb
      rw [List.flatMap_cons, List.append_assoc] at hb
      cases b with
      | nil => exact absurd hb (escapeChar_append_ne c _ _)
      | cons d b =>
        rw [List.flatMap_cons, List.append_assoc] at hb
        obtain ⟨rfl, hrest⟩ := escapeChar_append_inj hb
        obtain ⟨rfl, hr⟩ := ih b hrest
        exact ⟨rfl, hr⟩
  unfold quoted at h
  simp only [String.toList_ofList, List.cons_append, List.append_assoc] at h
  obtain ⟨hs, hr⟩ := hlist _ _ (List.cons.inj h).2
  exact ⟨String.toList_inj.1 hs, hr⟩

end GraphQLClient.Json
