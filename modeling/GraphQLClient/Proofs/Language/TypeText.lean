import GraphQLClient.Proofs.Language.Tokens
import Mathlib.Logic.Function.Iterate

set_option autoImplicit false

/-!
# Texts of types

Non-null marks stand behind the type that they mark, so a type is not told from its front alone. It is
read together with marks still to come, and these are counted once the bare type in front is known.
-/

namespace GraphQLClient.TypeRef

/-- The named type inside is named by a name. -/
def Printable (type : TypeRef) : Prop := IsName type.namedType

def isBare : TypeRef → Bool
  | .nonNull _ => false
  | _ => true

def chars (type : TypeRef) : List Char := type.text.toList

/-- Characters that a type can go on with. -/
def isTypePart (c : Char) : Bool := isNamePart c || c == '!'

variable {a b : TypeRef} {r r' : List Char}

theorem chars_list (item : TypeRef) (r : List Char) :
    chars (.list item) ++ r = '[' :: (item.chars ++ ']' :: r) := by
  simp [chars, text]

theorem chars_nonNull (base : TypeRef) : chars (.nonNull base) = base.chars ++ ['!'] := by
  simp [chars, text]

/-- A type with marks behind it is a bare type with marks behind it. -/
theorem exists_bare (type : TypeRef) (n : Nat) : ∃ m base, isBare base = true ∧
    base.namedType = type.namedType ∧ nonNull^[n] type = nonNull^[m] base ∧
    ∀ r, type.chars ++ (List.replicate n '!' ++ r) = base.chars ++ (List.replicate m '!' ++ r) := by
  induction type generalizing n with
  | named name => exact ⟨n, .named name, rfl, rfl, rfl, fun _ => rfl⟩
  | list item _ => exact ⟨n, .list item, rfl, rfl, rfl, fun _ => rfl⟩
  | nonNull base ih =>
    obtain ⟨m, bare, hbare, hname, heq, hchars⟩ := ih (n + 1)
    refine ⟨m, bare, hbare, hname, heq, fun r => ?_⟩
    rw [chars_nonNull, List.append_assoc]
    exact hchars r

/-- The marks are counted where other characters come. -/
theorem marks_append_inj {n m : Nat} (hr : Stops isTypePart r) (hr' : Stops isTypePart r')
    (h : List.replicate n '!' ++ r = List.replicate m '!' ++ r') : n = m ∧ r = r' := by
  have hmark : ∀ c, (c == '!') = true → isTypePart c = true := by
    intro c hc
    rw [isTypePart, hc, Bool.or_true]
  have hmarks : ∀ k, ∀ c ∈ List.replicate k '!', (c == '!') = true := by
    intro k c hc
    rw [List.eq_of_mem_replicate hc]
    rfl
  obtain ⟨hcount, hrest⟩ :=
    append_inj_of_stops (hmarks n) (hmarks m) (hr.mono hmark) (hr'.mono hmark) h
  exact ⟨(List.replicate_inj.1 hcount).1, hrest⟩

theorem stops_marks (n : Nat) (hr : Stops isTypePart r) :
    Stops isNamePart (List.replicate n '!' ++ r) := by
  cases n with
  | zero =>
    refine hr.mono fun c hc => ?_
    rw [isTypePart, hc, Bool.true_or]
  | succ n => exact stops_cons rfl

/-- A type is read off the front together with the marks behind it. -/
theorem append_marks_inj (ha : a.Printable) (hb : b.Printable) {n m : Nat}
    (hr : Stops isTypePart r) (hr' : Stops isTypePart r')
    (h : a.chars ++ (List.replicate n '!' ++ r) = b.chars ++ (List.replicate m '!' ++ r')) :
    nonNull^[n] a = nonNull^[m] b ∧ r = r' := by
  induction a generalizing b n m r r' with
  | nonNull base ih =>
    -- its own mark joins the marks still to come
    rw [chars_nonNull, List.append_assoc] at h
    exact ih (n := n + 1) ha hb hr hr' h
  | named name =>
    obtain ⟨k, bare, hbare, hname, heq, hchars⟩ := b.exists_bare m
    rw [hchars] at h
    rw [Printable, ← hname] at hb
    rw [heq]
    cases bare with
    | nonNull => cases hbare
    | list item =>
      rw [chars_list] at h
      exact absurd h (IsName.append_ne ha rfl)
    | named other =>
      obtain ⟨rfl, hmarks⟩ := IsName.append_inj ha hb (stops_marks _ hr) (stops_marks _ hr') h
      obtain ⟨rfl, hrest⟩ := marks_append_inj hr hr' hmarks
      exact ⟨rfl, hrest⟩
  | list item ih =>
    obtain ⟨k, bare, hbare, hname, heq, hchars⟩ := b.exists_bare m
    rw [hchars, chars_list] at h
    rw [Printable, ← hname] at hb
    rw [heq]
    cases bare with
    | nonNull => cases hbare
    | named other => exact absurd h.symm (IsName.append_ne hb rfl)
    | list other =>
      rw [chars_list] at h
      obtain ⟨hitem, hclose⟩ := ih (b := other) (n := 0) (m := 0) ha hb (stops_cons rfl)
        (stops_cons rfl) (List.cons.inj h).2
      obtain rfl : item = other := hitem
      obtain ⟨rfl, hrest⟩ := marks_append_inj hr hr' (List.cons.inj hclose).2
      exact ⟨rfl, hrest⟩

/-- A type is read off the front in one way only. -/
theorem reads (ha : a.Printable) (hb : b.Printable) : Reads isTypePart chars a b :=
  fun _ _ hr hr' h => append_marks_inj (n := 0) (m := 0) ha hb hr hr' h

end GraphQLClient.TypeRef
