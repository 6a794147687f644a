import GraphQLClient.Language.TypeRef

set_option autoImplicit false

/-!
# Reading texts off the front

A text is read off the front of a longer one if what follows it cannot belong to it. Names and numbers
end where another kind of character comes; items between commas end at the closing bracket.
-/

namespace GraphQLClient

/-- The text does not start with a character that `p` holds of. -/
def Stops (p : Char → Bool) (text : List Char) : Prop := ∀ c rest, text = c :: rest → p c = false

variable {p q : Char → Bool} {text rest rest' : List Char} {c : Char}

theorem stops_nil : Stops p [] := by
  intro c rest h
  cases h

theorem stops_cons (h : p c = false) : Stops p (c :: rest) := by
  intro d tail heq
  rw [← (List.cons.inj heq).1]
  exact h

theorem Stops.mono (h : Stops p text) (hq : ∀ c, q c = true → p c = true) : Stops q text := by
  intro c rest heq
  have hp := h c rest heq
  cases hc : q c
  · rfl
  · rw [hq c hc] at hp
    cases hp

theorem Stops.ne_cons (h : Stops p text) (hc : p c = true) : text ≠ c :: rest := by
  intro heq
  rw [h c rest heq] at hc
  cases hc

/-- Runs of characters of one kind end where the kind ends. -/
theorem append_inj_of_stops {run run' : List Char} (hrun : ∀ c ∈ run, p c = true)
    (hrun' : ∀ c ∈ run', p c = true) (hr : Stops p rest) (hr' : Stops p rest')
    (h : run ++ rest = run' ++ rest') : run = run' ∧ rest = rest' := by
  induction run generalizing run' with
  | nil =>
    cases run' with
    | nil => exact ⟨rfl, h⟩
    | cons d run' => exact absurd h (hr.ne_cons (hrun' d List.mem_cons_self))
  | cons c run ih =>
    cases run' with
    | nil => exact absurd h.symm (hr'.ne_cons (hrun c List.mem_cons_self))
    | cons d run' =>
      obtain ⟨rfl, htail⟩ := List.cons.inj h
      obtain ⟨rfl, heq⟩ := ih (fun c hc => hrun c (List.mem_cons_of_mem _ hc))
        (fun c hc => hrun' c (List.mem_cons_of_mem _ hc)) htail
      exact ⟨rfl, heq⟩

/-- A letter or an underscore, then letters, digits and underscores. -/
def isNameText : List Char → Bool
  | [] => false
  | c :: rest => TypeRef.isNameStart c && rest.all TypeRef.isNamePart

def IsName (name : String) : Prop := isNameText name.toList = true

instance (name : String) : Decidable (IsName name) :=
  inferInstanceAs (Decidable (isNameText name.toList = true))

theorem isNamePart_of_isNameStart (h : TypeRef.isNameStart c = true) :
    TypeRef.isNamePart c = true := by
  simp only [TypeRef.isNameStart, TypeRef.isNamePart, Char.isAlphanum, Bool.or_eq_true] at h ⊢
  exact h.elim (fun h => .inl (.inl h)) .inr

namespace IsName

variable {a b : String}

theorem exists_cons (h : IsName a) : ∃ c rest, a.toList = c :: rest ∧
    TypeRef.isNameStart c = true ∧ ∀ d ∈ rest, TypeRef.isNamePart d = true := by
  unfold IsName at h
  cases heq : a.toList with
  | nil =>
    rw [heq] at h
    cases h
  | cons c rest =>
    rw [heq, isNameText, Bool.and_eq_true, List.all_eq_true] at h
    exact ⟨c, rest, rfl, h.1, h.2⟩

theorem isNamePart (h : IsName a) : ∀ c ∈ a.toList, TypeRef.isNamePart c = true := by
  obtain ⟨c, rest, heq, hstart, hrest⟩ := h.exists_cons
  rw [heq, List.forall_mem_cons]
  exact ⟨isNamePart_of_isNameStart hstart, hrest⟩

theorem append_inj (ha : IsName a) (hb : IsName b) (hr : Stops TypeRef.isNamePart rest)
    (hr' : Stops TypeRef.isNamePart rest') (h : a.toList ++ rest = b.toList ++ rest') :
    a = b ∧ rest = rest' := by
  obtain ⟨heq, hrest⟩ := append_inj_of_stops ha.isNamePart hb.isNamePart hr hr' h
  exact ⟨String.toList_inj.1 heq, hrest⟩

/-- No name starts with a character that cannot start one. -/
theorem append_ne (h : IsName a) (hc : TypeRef.isNameStart c = false) :
    a.toList ++ rest ≠ c :: rest' := by
  obtain ⟨d, tail, heq, hstart, -⟩ := h.exists_cons
  intro hcons
  rw [heq] at hcons
  rw [(List.cons.inj hcons).1, hc] at hstart
  cases hstart

end IsName

section Commas

variable {α : Type} {print : α → List Char}

/-- Items with a comma and a space between them. -/
def commas (print : α → List Char) : List α → List Char
  | [] => []
  | [item] => print item
  | item :: rest => print item ++ ',' :: ' ' :: commas print rest

/-- What stands behind an item. -/
def afterItem (print : α → List Char) : List α → List Char
  | [] => []
  | items => ',' :: ' ' :: commas print items

theorem commas_cons (item : α) (items : List α) :
    commas print (item :: items) = print item ++ afterItem print items := by
  cases items with
  | nil => exact (List.append_nil _).symm
  | cons => rfl

/-- The two are read off the front as the same item, up to where `p` ends. -/
def Reads (p : Char → Bool) (print : α → List Char) (a b : α) : Prop :=
  ∀ r r', Stops p r → Stops p r' → print a ++ r = print b ++ r' → a = b ∧ r = r'

/-- Items are told apart by their commas and by the bracket that closes them. -/
theorem commas_append_inj {items others : List α} {close : Char} (hcomma : p ',' = false)
    (hclose : p close = false) (hne : close ≠ ',')
    (hopen : ∀ item ∈ items, ∀ s t, print item ++ s ≠ close :: t)
    (hopen' : ∀ item ∈ others, ∀ s t, print item ++ s ≠ close :: t)
    (hread : ∀ a ∈ items, ∀ b ∈ others, Reads p print a b)
    (h : commas print items ++ close :: rest = commas print others ++ close :: rest') :
    items = others ∧ rest = rest' := by
  induction items generalizing others with
  | nil =>
    cases others with
    | nil => exact ⟨rfl, (List.cons.inj h).2⟩
    | cons b others =>
      rw [commas_cons, List.append_assoc] at h
      exact absurd h.symm (hopen' b List.mem_cons_self _ _)
  | cons a items ih =>
    rw [commas_cons, List.append_assoc] at h
    cases others with
    | nil => exact absurd h (hopen a List.mem_cons_self _ _)
    | cons b others =>
      rw [commas_cons, List.append_assoc] at h
      have hstops : ∀ (more : List α) (tail : List Char),
          Stops p (afterItem print more ++ close :: tail) := by
        intro more tail
        cases more with
        | nil => exact stops_cons hclose
        | cons => exact stops_cons hcomma
      obtain ⟨rfl, hafter⟩ :=
        hread a List.mem_cons_self b List.mem_cons_self _ _ (hstops _ _) (hstops _ _) h
      cases items with
      | nil =>
        cases others with
        | nil => exact ⟨rfl, (List.cons.inj hafter).2⟩
        | cons => exact absurd (List.cons.inj hafter).1 hne
      | cons item items =>
        cases others with
        | nil => exact absurd (List.cons.inj hafter).1.symm hne
        | cons other others =>
          have hrest := (List.cons.inj (List.cons.inj hafter).2).2
          obtain ⟨heq, htail⟩ := ih (fun x hx => hopen x (List.mem_cons_of_mem _ hx))
            (fun x hx => hopen' x (List.mem_cons_of_mem _ hx))
            (fun x hx y hy => hread x (List.mem_cons_of_mem _ hx) y (List.mem_cons_of_mem _ hy)) hrest
          exact ⟨congrArg (a :: ·) heq, htail⟩

/-- Items in parentheses; none at all leave nothing. -/
def parens (print : α → List Char) : List α → List Char
  | [] => []
  | items => '(' :: commas print items ++ [')']

theorem parens_append_inj {items others : List α}
    (hread : ∀ s t, commas print items ++ ')' :: s = commas print others ++ ')' :: t →
      items = others ∧ s = t)
    (hr : Stops (· == '(') rest) (hr' : Stops (· == '(') rest')
    (h : parens print items ++ rest = parens print others ++ rest') :
    items = others ∧ rest = rest' := by
  cases items with
  | nil =>
    cases others with
    | nil => exact ⟨rfl, h⟩
    | cons => exact absurd h (hr.ne_cons rfl)
  | cons a items =>
    cases others with
    | nil => exact absurd h.symm (hr'.ne_cons rfl)
    | cons b others =>
      simp only [parens, List.cons_append, List.append_assoc, List.cons.injEq, true_and] at h
      exact hread _ _ h

end Commas

end GraphQLClient
