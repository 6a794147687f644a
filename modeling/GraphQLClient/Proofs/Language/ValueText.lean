import GraphQLClient.Language.Printer
import GraphQLClient.Proofs.Json.DecimalText
import GraphQLClient.Proofs.Json.Quoting
import GraphQLClient.Proofs.Language.Tokens

set_option autoImplicit false

/-!
# Texts of values

The text of a value is read off the front in one way only. Words, whole numbers and floats are runs of
one kind of characters and differ as such; all other values show by their first character what they
are, and where they end.
-/

namespace GraphQLClient

namespace Value

mutual
/-- The value can be written: names are names, no name of an enum value is a word of its own, and
floats are finite. -/
def Printable : Value → Prop
  | .float x => x.isFinite = true
  | .enum name => IsName name ∧ name ≠ "null" ∧ name ≠ "true" ∧ name ≠ "false"
  | .list items => PrintableItems items
  | .object fields => PrintableFields fields
  | .var name => IsName name
  | _ => True

def PrintableItems : List Value → Prop
  | [] => True
  | item :: rest => Printable item ∧ PrintableItems rest

def PrintableFields : List (String × Value) → Prop
  | [] => True
  | (name, value) :: rest => IsName name ∧ Printable value ∧ PrintableFields rest
end

/-- Characters of words and numbers. -/
def isToken (c : Char) : Bool := TypeRef.isNamePart c || c == '.' || c == '-' || c == '+'

/-- Values that are written as one word. -/
def isWord : Value → Bool
  | .null | .boolean _ | .enum _ => true
  | _ => false

def isNumber : Value → Bool
  | .int _ | .float _ => true
  | _ => false

theorem isToken_of_isNamePart {c : Char} (h : TypeRef.isNamePart c = true) : isToken c = true := by
  simp [isToken, h]

theorem isToken_of_isDigit {c : Char} (h : c.isDigit = true) : isToken c = true := by
  simp [isToken, TypeRef.isNamePart, Char.isAlphanum, h]

theorem isNameStart_of_isDigit {c : Char} (h : c.isDigit = true) : TypeRef.isNameStart c = false := by
  have halpha : c.isAlpha = false := by
    simp only [Char.isDigit, Char.isAlpha, Char.isUpper, Char.isLower, Bool.and_eq_true,
      decide_eq_true_eq, Bool.or_eq_false_iff, Bool.and_eq_false_iff, decide_eq_false_iff_not] at h ⊢
    grind
  have hne : c ≠ '_' := by
    rintro rfl
    cases h
  simp [TypeRef.isNameStart, halpha, hne]

/-- A whole number is written in digits, perhaps after a minus. -/
theorem int_toList (n : ℤ) : ∃ digits, Decimal.Digits digits ∧ digits ≠ [] ∧
    ((toString n).toList = digits ∨ (toString n).toList = '-' :: digits) := by
  rw [Int.toString_eq_repr, Int.repr_eq_if]
  split
  · refine ⟨_, Decimal.digits_toDigits n.toNat, Nat.toDigits_ne_nil, .inl ?_⟩
    rw [Nat.repr_eq_ofList_toDigits, String.toList_ofList]
  · refine ⟨_, Decimal.digits_toDigits (-n).toNat, Nat.toDigits_ne_nil, .inr ?_⟩
    simp [Nat.repr_eq_ofList_toDigits]

/-- How the text of a number looks: it starts with a digit or a minus, and consists of characters of
numbers. -/
structure IsNumeral (text : List Char) : Prop where
  start : ∃ c rest, text = c :: rest ∧ (c.isDigit = true ∨ c = '-')
  chars : ∀ c ∈ text, isToken c = true

theorem isNumeral_int (n : ℤ) : IsNumeral (toString n).toList := by
  obtain ⟨digits, hd, hne, heq⟩ := int_toList n
  obtain ⟨c, rest, rfl⟩ := List.exists_cons_of_ne_nil hne
  have hchars : ∀ d ∈ c :: rest, isToken d = true := fun d hm => isToken_of_isDigit (hd d hm)
  rcases heq with heq | heq <;> rw [heq]
  · exact ⟨⟨c, rest, rfl, .inl (hd c List.mem_cons_self)⟩, hchars⟩
  · exact ⟨⟨'-', c :: rest, rfl, .inr rfl⟩, List.forall_mem_cons.2 ⟨rfl, hchars⟩⟩

theorem isNumeral_float {x : Float} (hx : x.isFinite = true) :
    IsNumeral (Json.floatText x).toList := by
  obtain ⟨text, hn, heq⟩ := Decimal.isNotation_textOf x
  obtain ⟨c, rest, hc, hd⟩ := hn.head
  have hchars : ∀ d ∈ text, isToken d = true := by
    intro d hm
    rcases hn.chars d hm with hd | hd
    · exact isToken_of_isDigit hd
    · simp only [List.mem_cons, List.not_mem_nil, or_false] at hd
      rcases hd with rfl | rfl | rfl | rfl <;> rfl
  rw [Json.floatText, if_pos hx]
  rcases heq with heq | heq <;> rw [heq]
  · exact ⟨⟨c, rest, hc, .inl hd⟩, hchars⟩
  · exact ⟨⟨'-', text, rfl, .inr rfl⟩, List.forall_mem_cons.2 ⟨rfl, hchars⟩⟩

/-- A float has a point or an exponent, and a whole number has neither. -/
theorem int_ne_float (n : ℤ) {x : Float} (hx : x.isFinite = true) :
    toString n ≠ Json.floatText x := by
  intro h
  obtain ⟨digits, hd, -, hint⟩ := int_toList n
  obtain ⟨text, hn, hfloat⟩ := Decimal.isNotation_textOf x
  obtain ⟨mark, hmem, hmark⟩ := hn.mark
  rw [h, Json.floatText, if_pos hx] at hint
  have hdigit : mark ∈ digits ∨ mark = '-' := by
    have hmem' : mark ∈ (Decimal.textOf x).toList := by
      rcases hfloat with heq | heq <;> rw [heq]
      · exact hmem
      · exact List.mem_cons_of_mem _ hmem
    rcases hint with heq | heq <;> rw [heq] at hmem'
    · exact .inl hmem'
    · exact (List.mem_cons.1 hmem').symm
  simp only [List.mem_cons, List.not_mem_nil, or_false] at hmark
  rcases hmark with rfl | rfl <;> rcases hdigit with hm | hm <;>
    first | (cases hd _ hm) | (cases hm)

theorem IsNumeral.ne_name {text : List Char} (h : IsNumeral text) {name : String} (hn : IsName name) :
    text ≠ name.toList := by
  obtain ⟨c, rest, rfl, hc⟩ := h.start
  have hstart : TypeRef.isNameStart c = false := by
    rcases hc with hc | rfl
    · exact isNameStart_of_isDigit hc
    · rfl
  intro heq
  have hne : name.toList ++ [] ≠ c :: rest := hn.append_ne hstart
  rw [List.append_nil] at hne
  exact hne heq.symm

theorem isName_boolean (b : Bool) : IsName (text (.boolean b)) := by
  cases b <;> decide

variable {a b : Value}

theorem isName_of_isWord (ha : a.Printable) (h : a.isWord = true) : IsName a.text := by
  cases a <;> cases h
  case null => decide
  case boolean b => exact isName_boolean b
  case enum name => exact ha.1

theorem isNumeral_of_isNumber (ha : a.Printable) (h : a.isNumber = true) :
    IsNumeral a.text.toList := by
  cases a <;> cases h
  case int n => exact isNumeral_int n
  case float x => exact isNumeral_float ha

theorem word_cases (h : a.isWord = true) :
    a = .null ∨ (∃ u, a = .boolean u) ∨ ∃ name, a = .enum name := by
  cases a <;> cases h <;> simp

theorem word_text_inj (ha : a.Printable) (hb : b.Printable) (hwa : a.isWord = true)
    (hwb : b.isWord = true) (h : a.text = b.text) : a = b := by
  have hboolean : ∀ {u name}, Printable (.enum name) → text (.boolean u) ≠ name := by
    intro u name hn heq
    cases u
    · exact hn.2.2.2 heq.symm
    · exact hn.2.2.1 heq.symm
  obtain rfl | ⟨u, rfl⟩ | ⟨name, rfl⟩ := word_cases hwa <;>
    obtain rfl | ⟨v, rfl⟩ | ⟨other, rfl⟩ := word_cases hwb
  · rfl
  · cases v <;> exact absurd h (by decide)
  · exact absurd h.symm hb.2.1
  · cases u <;> exact absurd h (by decide)
  · cases u <;> cases v <;> first | rfl | exact absurd h (by decide)
  · exact absurd h (hboolean hb)
  · exact absurd h ha.2.1
  · exact absurd h.symm (hboolean ha)
  · exact congrArg Value.enum h

theorem number_cases (h : a.isNumber = true) : (∃ n, a = .int n) ∨ ∃ x, a = .float x := by
  cases a <;> cases h <;> simp

theorem number_text_inj (ha : a.Printable) (hb : b.Printable) (hna : a.isNumber = true)
    (hnb : b.isNumber = true) (h : a.text = b.text) : a = b := by
  obtain ⟨n, rfl⟩ | ⟨x, rfl⟩ := number_cases hna <;>
    obtain ⟨m, rfl⟩ | ⟨y, rfl⟩ := number_cases hnb
  · exact congrArg Value.int (Int.repr_injective h)
  · exact absurd h (int_ne_float n hb)
  · exact absurd h.symm (int_ne_float m ha)
  · have hx : x.isFinite = true := ha
    have hy : y.isFinite = true := hb
    have htext : Json.floatText x = Json.floatText y := h
    rw [Json.floatText, Json.floatText, if_pos hx, if_pos hy] at htext
    exact congrArg Value.float (Decimal.textOf_inj htext)

/-- One word or number. -/
def isAtom (value : Value) : Bool := value.isWord || value.isNumber

theorem isToken_of_isAtom (ha : a.Printable) (h : a.isAtom = true) :
    ∀ c ∈ a.text.toList, isToken c = true := by
  rcases Bool.or_eq_true_iff.1 h with h | h
  · exact fun c hc => isToken_of_isNamePart ((isName_of_isWord ha h).isNamePart c hc)
  · exact (isNumeral_of_isNumber ha h).chars

theorem atom_text_inj (ha : a.Printable) (hb : b.Printable) (hta : a.isAtom = true)
    (htb : b.isAtom = true) (h : a.text = b.text) : a = b := by
  rcases Bool.or_eq_true_iff.1 hta with hwa | hna <;> rcases Bool.or_eq_true_iff.1 htb with hwb | hnb
  · exact word_text_inj ha hb hwa hwb h
  · exact absurd (congrArg String.toList h.symm)
      ((isNumeral_of_isNumber hb hnb).ne_name (isName_of_isWord ha hwa))
  · exact absurd (congrArg String.toList h)
      ((isNumeral_of_isNumber ha hna).ne_name (isName_of_isWord hb hwb))
  · exact number_text_inj ha hb hna hnb h

def chars (value : Value) : List Char := value.text.toList

/-- An entry of an object or an argument. -/
def entryChars (entry : String × Value) : List Char :=
  entry.1.toList ++ ':' :: ' ' :: entry.2.chars

theorem itemsText_toList (items : List Value) : (itemsText items).toList = commas chars items := by
  induction items with
  | nil => rfl
  | cons item rest ih =>
    cases rest with
    | nil => rfl
    | cons second rest =>
      simp only [itemsText, commas, chars, String.toList_append, ih]
      simp

theorem fieldsText_toList (fields : List (String × Value)) :
    (fieldsText fields).toList = commas entryChars fields := by
  induction fields with
  | nil => rfl
  | cons entry rest ih =>
    cases rest with
    | nil => simp [fieldsText, commas, entryChars, chars]
    | cons second rest =>
      obtain ⟨name, value⟩ := entry
      simp only [fieldsText, commas, entryChars, chars, String.toList_append, ih]
      simp

theorem chars_string (s : String) : chars (.string s) = (Json.quoted s).toList := rfl

theorem chars_list (items : List Value) :
    chars (.list items) = '[' :: commas chars items ++ [']'] := by
  simp [chars, text, itemsText_toList]

theorem chars_object (fields : List (String × Value)) :
    chars (.object fields) = '\x7b' :: commas entryChars fields ++ ['\x7d'] := by
  simp [chars, text, fieldsText_toList]

theorem chars_var (name : String) : chars (.var name) = '$' :: name.toList := by
  simp [chars, text]

/-- The character that a value starts with if it is no atom. -/
def opening : Value → Char
  | .string _ => '"'
  | .list _ => '['
  | .object _ => '\x7b'
  | _ => '$'

theorem exists_string (ho : a.opening = '"') : ∃ s, a = .string s := by
  cases a <;> first | exact ⟨_, rfl⟩ | cases ho

theorem exists_list (ho : a.opening = '[') : ∃ items, a = .list items := by
  cases a <;> first | exact ⟨_, rfl⟩ | cases ho

theorem exists_object (ho : a.opening = '\x7b') : ∃ fields, a = .object fields := by
  cases a <;> first | exact ⟨_, rfl⟩ | cases ho

theorem exists_var (h : a.isAtom = false) (ho : a.opening = '$') : ∃ name, a = .var name := by
  cases a <;> first | exact ⟨_, rfl⟩ | (cases h; done) | cases ho

theorem exists_cons_of_not_isAtom (h : a.isAtom = false) : ∃ rest, a.chars = a.opening :: rest := by
  cases a <;> cases h
  case string s =>
    refine ⟨s.toList.flatMap Json.escapeChar ++ ['"'], ?_⟩
    rw [chars_string, Json.quoted, String.toList_ofList]
    rfl
  case list items => exact ⟨_, chars_list items⟩
  case object fields => exact ⟨_, chars_object fields⟩
  case var name => exact ⟨_, chars_var name⟩

theorem exists_cons_of_isAtom (ha : a.Printable) (h : a.isAtom = true) :
    ∃ c rest, a.chars = c :: rest ∧ isToken c = true := by
  have hchars := isToken_of_isAtom ha h
  have hcons : ∃ c rest, a.chars = c :: rest := by
    rcases Bool.or_eq_true_iff.1 h with h | h
    · obtain ⟨c, rest, heq, -⟩ := (isName_of_isWord ha h).exists_cons
      exact ⟨c, rest, heq⟩
    · obtain ⟨c, rest, heq, -⟩ := (isNumeral_of_isNumber ha h).start
      exact ⟨c, rest, heq⟩
  obtain ⟨c, rest, heq⟩ := hcons
  exact ⟨c, rest, heq, hchars c (show c ∈ a.chars by rw [heq]; exact List.mem_cons_self)⟩

theorem isToken_opening (a : Value) : isToken a.opening = false := by
  cases a <;> rfl

/-- No value starts with a character that is neither of a token nor an opening. -/
theorem chars_append_ne (ha : a.Printable) {c : Char} (hc : isToken c = false)
    (ho : a.opening ≠ c) (s t : List Char) : a.chars ++ s ≠ c :: t := by
  intro heq
  cases h : a.isAtom with
  | true =>
    obtain ⟨d, rest, hd, htoken⟩ := exists_cons_of_isAtom ha h
    rw [hd] at heq
    rw [(List.cons.inj heq).1, hc] at htoken
    cases htoken
  | false =>
    obtain ⟨rest, hd⟩ := exists_cons_of_not_isAtom h
    rw [hd] at heq
    exact ho (List.cons.inj heq).1

theorem reads_of_isAtom (ha : a.Printable) (hb : b.Printable) (hta : a.isAtom = true)
    (htb : b.isAtom = true) : Reads isToken chars a b := by
  intro r r' hr hr' heq
  obtain ⟨htext, hrest⟩ :=
    append_inj_of_stops (isToken_of_isAtom ha hta) (isToken_of_isAtom hb htb) hr hr' heq
  exact ⟨atom_text_inj ha hb hta htb (String.toList_inj.1 htext), hrest⟩

theorem reads_of_isAtom_ne (ha : a.Printable) (hta : a.isAtom = true) (htb : b.isAtom = false)
    (r r' : List Char) : a.chars ++ r ≠ b.chars ++ r' := by
  obtain ⟨c, rest, hc, htoken⟩ := exists_cons_of_isAtom ha hta
  obtain ⟨rest', hb⟩ := exists_cons_of_not_isAtom htb
  rw [hc, hb]
  intro heq
  rw [(List.cons.inj heq).1, isToken_opening] at htoken
  cases htoken

/-- What starts with an opening is a value with this opening. -/
theorem opening_eq (hb : b.Printable) (hta : a.isAtom = false) {r r' : List Char}
    (h : a.chars ++ r = b.chars ++ r') : b.isAtom = false ∧ b.opening = a.opening := by
  have htb : b.isAtom = false := by
    cases htb : b.isAtom with
    | true => exact absurd h.symm (reads_of_isAtom_ne hb htb hta r' r)
    | false => rfl
  obtain ⟨rest, hca⟩ := exists_cons_of_not_isAtom hta
  obtain ⟨rest', hcb⟩ := exists_cons_of_not_isAtom htb
  rw [hca, hcb] at h
  exact ⟨htb, (List.cons.inj h).1.symm⟩

theorem printable_of_mem {items : List Value} (h : PrintableItems items) :
    ∀ item ∈ items, item.Printable := by
  induction items with
  | nil => exact fun _ h => absurd h List.not_mem_nil
  | cons item rest ih => exact List.forall_mem_cons.2 ⟨h.1, ih h.2⟩

theorem printable_of_mem_fields {fields : List (String × Value)} (h : PrintableFields fields) :
    ∀ entry ∈ fields, IsName entry.1 ∧ entry.2.Printable := by
  induction fields with
  | nil => exact fun _ h => absurd h List.not_mem_nil
  | cons entry rest ih => exact List.forall_mem_cons.2 ⟨⟨h.1, h.2.1⟩, ih h.2.2⟩

theorem items_append_inj {items others : List Value} (ha : PrintableItems items)
    (hb : PrintableItems others) (hread : ∀ a ∈ items, ∀ b, b.Printable → Reads isToken chars a b)
    {r r' : List Char} (h : commas chars items ++ ']' :: r = commas chars others ++ ']' :: r') :
    items = others ∧ r = r' := by
  have hopen : ∀ {list : List Value}, PrintableItems list → ∀ item ∈ list,
      ∀ s t, item.chars ++ s ≠ ']' :: t := by
    intro list hl item hm
    refine chars_append_ne (printable_of_mem hl item hm) rfl ?_
    cases item <;> simp [opening]
  exact commas_append_inj rfl rfl (by decide) (hopen ha) (hopen hb)
    (fun a hm b hm' => hread a hm b (printable_of_mem hb b hm')) h

/-- Entries are told apart by their names and values, whatever bracket closes them. -/
theorem fields_append_inj {fields others : List (String × Value)} {close : Char}
    (hc : isToken close = false) (hne : close ≠ ',') (ha : PrintableFields fields)
    (hb : PrintableFields others)
    (hread : ∀ entry ∈ fields, ∀ b, b.Printable → Reads isToken chars entry.2 b) {r r' : List Char}
    (h : commas entryChars fields ++ close :: r = commas entryChars others ++ close :: r') :
    fields = others ∧ r = r' := by
  have hstart : TypeRef.isNameStart close = false := by
    cases hs : TypeRef.isNameStart close
    · rfl
    · rw [isToken_of_isNamePart (isNamePart_of_isNameStart hs)] at hc
      cases hc
  have hopen : ∀ {list : List (String × Value)}, PrintableFields list → ∀ entry ∈ list,
      ∀ s t, entryChars entry ++ s ≠ close :: t := by
    intro list hl entry hm s t
    rw [entryChars, List.append_assoc]
    exact (printable_of_mem_fields hl entry hm).1.append_ne hstart
  refine commas_append_inj rfl hc hne (hopen ha) (hopen hb) ?_ h
  intro a hm b hm' r r' hr hr' heq
  obtain ⟨hna, -⟩ := printable_of_mem_fields ha a hm
  obtain ⟨hnb, hpb⟩ := printable_of_mem_fields hb b hm'
  rw [entryChars, entryChars, List.append_assoc, List.append_assoc] at heq
  obtain ⟨hname, hvalue⟩ := hna.append_inj hnb (stops_cons rfl) (stops_cons rfl) heq
  obtain ⟨hval, hrest⟩ := hread a hm b.2 hpb r r' hr hr'
    (List.cons.inj (List.cons.inj hvalue).2).2
  exact ⟨Prod.ext hname hval, hrest⟩

mutual
/-- A value is read off the front in one way only. -/
theorem reads {a b : Value} (ha : a.Printable) (hb : b.Printable) : Reads isToken chars a b := by
  intro r r' hr hr' heq
  -- tokens end with their last character of a token, all else shows by how it opens
  cases hta : a.isAtom with
  | true =>
    cases htb : b.isAtom with
    | true => exact reads_of_isAtom ha hb hta htb r r' hr hr' heq
    | false => exact absurd heq (reads_of_isAtom_ne ha hta htb r r')
  | false =>
    obtain ⟨htb, hopening⟩ := opening_eq hb hta heq
    cases a with
    | string s =>
      obtain ⟨t, rfl⟩ := exists_string hopening
      obtain ⟨rfl, hrest⟩ := Json.quoted_append_inj heq
      exact ⟨rfl, hrest⟩
    | list items =>
      obtain ⟨others, rfl⟩ := exists_list hopening
      rw [chars_list, chars_list, List.append_assoc, List.append_assoc] at heq
      obtain ⟨rfl, hrest⟩ := items_append_inj ha hb (items_reads ha) (List.cons.inj heq).2
      exact ⟨rfl, hrest⟩
    | object fields =>
      obtain ⟨others, rfl⟩ := exists_object hopening
      rw [chars_object, chars_object, List.append_assoc, List.append_assoc] at heq
      obtain ⟨rfl, hrest⟩ := fields_append_inj rfl (by decide) ha hb (fields_reads ha)
        (List.cons.inj heq).2
      exact ⟨rfl, hrest⟩
    | var name =>
      obtain ⟨other, rfl⟩ := exists_var htb hopening
      rw [chars_var, chars_var] at heq
      obtain ⟨rfl, hrest⟩ := IsName.append_inj ha hb (hr.mono fun _ => isToken_of_isNamePart)
        (hr'.mono fun _ => isToken_of_isNamePart) (List.cons.inj heq).2
      exact ⟨rfl, hrest⟩
    | null => cases hta
    | boolean u => cases hta
    | int n => cases hta
    | float x => cases hta
    | enum name => cases hta

theorem items_reads {items : List Value} (ha : PrintableItems items) :
    ∀ a ∈ items, ∀ b, b.Printable → Reads isToken chars a b := by
  cases items with
  | nil => exact fun _ h => absurd h List.not_mem_nil
  | cons item rest => exact List.forall_mem_cons.2 ⟨fun b => reads ha.1, items_reads ha.2⟩

theorem fields_reads {fields : List (String × Value)} (ha : PrintableFields fields) :
    ∀ entry ∈ fields, ∀ b, b.Printable → Reads isToken chars entry.2 b := by
  cases fields with
  | nil => exact fun _ h => absurd h List.not_mem_nil
  | cons entry rest => exact List.forall_mem_cons.2 ⟨fun b => reads ha.2.1, fields_reads ha.2.2⟩
end

end Value

end GraphQLClient
