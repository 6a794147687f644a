import GraphQLClient.Proofs.Language.ValueText

set_option autoImplicit false

/-!
# Texts of selections

The text of a selection set is read back up to what it does not show: the type that a set selects on,
whether a field was selected as a connection, and all of a spread but its name. A selection ends
where a space comes that no brace follows.
-/

namespace GraphQLClient

namespace Value

theorem argumentsText_toList (arguments : List (String × Value)) :
    (argumentsText arguments).toList = parens entryChars arguments := by
  cases arguments with
  | nil => rfl
  | cons entry rest => simp [argumentsText, parens, fieldsText_toList]

/-- A name with arguments, as fields and directives have it. -/
def callChars (name : String) (arguments : List (String × Value)) : List Char :=
  name.toList ++ parens entryChars arguments

variable {name other : String} {arguments others : List (String × Value)} {r r' : List Char}

theorem arguments_append_stops (arguments : List (String × Value)) (r : List Char) :
    Stops TypeRef.isNamePart (parens entryChars arguments ++ ' ' :: r) := by
  cases arguments with
  | nil => exact stops_cons rfl
  | cons => exact stops_cons rfl

/-- A call is read off the front up to the space behind it. -/
theorem call_append_inj (hn : IsName name) (ha : PrintableFields arguments) (hn' : IsName other)
    (hb : PrintableFields others)
    (h : callChars name arguments ++ ' ' :: r = callChars other others ++ ' ' :: r') :
    name = other ∧ arguments = others ∧ r = r' := by
  rw [callChars, callChars, List.append_assoc, List.append_assoc] at h
  obtain ⟨hname, hargs⟩ :=
    hn.append_inj hn' (arguments_append_stops _ _) (arguments_append_stops _ _) h
  obtain ⟨hargs, hrest⟩ :=
    parens_append_inj (fun _ _ => fields_append_inj rfl (by decide) ha hb (fields_reads ha))
      (stops_cons rfl) (stops_cons rfl) hargs
  exact ⟨hname, hargs, (List.cons.inj hrest).2⟩

theorem call_append_ne (hn : IsName name) (hn' : IsName other) :
    callChars name arguments ++ ' ' :: r ≠ other.toList ++ ':' :: r' := by
  intro h
  rw [callChars, List.append_assoc] at h
  obtain ⟨-, hrest⟩ := hn.append_inj hn' (arguments_append_stops _ _) (stops_cons rfl) h
  -- the names are the same, and only one of them has a colon behind it
  cases arguments with
  | nil => exact absurd (List.cons.inj hrest).1 (by decide)
  | cons => exact absurd (List.cons.inj hrest).1 (by decide)

end Value

namespace Field

structure Printable (field : Field) : Prop where
  name : IsName field.name
  aliasName : ∀ label ∈ field.aliasName, IsName label
  arguments : Value.PrintableFields field.arguments

/-- What the text of the field shows. -/
def outline (field : Field) : Field := { field with connection := false }

theorem text_outline (field : Field) : field.outline.text = field.text := rfl

def chars (field : Field) : List Char := field.text.toList

def labelChars : Option String → List Char
  | none => []
  | some label => label.toList ++ [':', ' ']

theorem chars_eq (field : Field) :
    field.chars = labelChars field.aliasName ++ Value.callChars field.name field.arguments := by
  cases h : field.aliasName <;>
    simp [chars, text, Value.callChars, labelChars, h, Value.argumentsText_toList]

variable {a b : Field} {r r' : List Char}

/-- A field is read off the front up to the space behind it. -/
theorem append_inj (ha : a.Printable) (hb : b.Printable)
    (h : a.chars ++ ' ' :: r = b.chars ++ ' ' :: r') : a.outline = b.outline ∧ r = r' := by
  rw [chars_eq, chars_eq] at h
  have hout : ∀ {x y : Field}, x.aliasName = y.aliasName → x.name = y.name →
      x.arguments = y.arguments → x.outline = y.outline := by
    intro x y hlabel hname hargs
    simp only [outline, hlabel, hname, hargs]
  cases hla : a.aliasName with
  | none =>
    cases hlb : b.aliasName with
    | none =>
      rw [hla, hlb] at h
      obtain ⟨hname, hargs, hrest⟩ := Value.call_append_inj ha.name ha.arguments hb.name hb.arguments h
      exact ⟨hout (hla.trans hlb.symm) hname hargs, hrest⟩
    | some label =>
      simp only [hla, hlb, labelChars, List.append_assoc, List.cons_append, List.nil_append] at h
      exact absurd h (Value.call_append_ne ha.name (hb.aliasName label hlb))
  | some label =>
    cases hlb : b.aliasName with
    | none =>
      simp only [hla, hlb, labelChars, List.append_assoc, List.cons_append, List.nil_append] at h
      exact absurd h.symm (Value.call_append_ne hb.name (ha.aliasName label hla))
    | some other =>
      simp only [hla, hlb, labelChars, List.append_assoc, List.cons_append, List.nil_append] at h
      obtain ⟨hlabel, hcall⟩ := (ha.aliasName label hla).append_inj (hb.aliasName other hlb)
        (stops_cons rfl) (stops_cons rfl) h
      obtain ⟨hname, hargs, hrest⟩ := Value.call_append_inj ha.name ha.arguments hb.name
        hb.arguments (List.cons.inj (List.cons.inj hcall).2).2
      exact ⟨hout (by rw [hla, hlb, hlabel]) hname hargs, hrest⟩

theorem chars_append_ne (ha : a.Printable) {c : Char} (hc : TypeRef.isNameStart c = false) :
    a.chars ++ r ≠ c :: r' := by
  rw [chars_eq, List.append_assoc]
  cases hla : a.aliasName with
  | none =>
    rw [Value.callChars, List.append_assoc]
    exact ha.name.append_ne hc
  | some label =>
    rw [labelChars, List.append_assoc]
    exact (ha.aliasName label hla).append_ne hc

end Field

namespace Selection

mutual
/-- What is written of the selection can be written: names are names, and so on down to the values of
arguments. Of a spread only the name is written. -/
def Printable : Selection → Prop
  | .leaf field => field.Printable
  | .composite field _ selections => field.Printable ∧ PrintableAll selections
  | .inlineFragment condition _ selections => IsName condition ∧ PrintableAll selections
  | .spread _ name _ _ _ => IsName name

def PrintableAll : List Selection → Prop
  | [] => True
  | selection :: rest => Printable selection ∧ PrintableAll rest
end

mutual
/-- What the text of the selection shows. -/
def outline : Selection → Selection
  | .leaf field => .leaf field.outline
  | .composite field _ selections => .composite field.outline "" (outlineAll selections)
  | .inlineFragment condition _ selections => .inlineFragment condition "" (outlineAll selections)
  | .spread _ name _ _ _ => .spread 0 name "" "" []

def outlineAll : List Selection → List Selection
  | [] => []
  | selection :: rest => outline selection :: outlineAll rest
end

mutual
theorem text_outline (selection : Selection) : selection.outline.text = selection.text := by
  cases selection with
  | leaf field => simp only [outline, text, Field.text_outline]
  | composite field typeName selections =>
    simp only [outline, text, setText, Field.text_outline, listText_outlineAll selections]
  | inlineFragment condition typeName selections =>
    simp only [outline, text, setText, listText_outlineAll selections]
  | spread serial name condition typeName selections => simp only [outline, text]

theorem listText_outlineAll (selections : List Selection) :
    listText (outlineAll selections) = listText selections := by
  cases selections with
  | nil => simp only [outlineAll]
  | cons selection rest =>
    simp only [outlineAll, listText, text_outline selection, listText_outlineAll rest]
end

theorem setText_outlineAll (selections : List Selection) :
    setText (outlineAll selections) = setText selections := by
  rw [setText, setText, listText_outlineAll]

def chars (selection : Selection) : List Char := selection.text.toList

def listChars (selections : List Selection) : List Char := (listText selections).toList

theorem setText_append (selections : List Selection) (r : List Char) :
    (setText selections).toList ++ r = '\x7b' :: (listChars selections ++ ' ' :: '\x7d' :: r) := by
  simp [setText, listChars]

theorem listChars_nil : listChars [] = [] := by simp [listChars, listText]

theorem listChars_cons (selection : Selection) (rest : List Selection) (r : List Char) :
    listChars (selection :: rest) ++ r = ' ' :: (selection.chars ++ (listChars rest ++ r)) := by
  simp [listChars, listText, chars]

theorem chars_leaf (field : Field) : chars (.leaf field) = field.chars := by
  simp [chars, text, Field.chars]

theorem chars_composite (field : Field) (typeName : String) (selections : List Selection)
    (r : List Char) : chars (.composite field typeName selections) ++ r =
      field.chars ++ ' ' :: '\x7b' :: (listChars selections ++ ' ' :: '\x7d' :: r) := by
  rw [← setText_append]
  simp [chars, text, Field.chars]

theorem chars_inlineFragment (condition typeName : String) (selections : List Selection)
    (r : List Char) : chars (.inlineFragment condition typeName selections) ++ r =
      '.' :: '.' :: '.' :: ' ' :: 'o' :: 'n' :: ' ' ::
        (condition.toList ++ ' ' :: '\x7b' :: (listChars selections ++ ' ' :: '\x7d' :: r)) := by
  rw [← setText_append]
  simp [chars, text]

theorem chars_spread (serial : Nat) (name condition typeName : String)
    (selections : List Selection) (r : List Char) :
    chars (.spread serial name condition typeName selections) ++ r =
      '.' :: '.' :: '.' :: (name.toList ++ r) := by
  simp [chars, text]

/-- Fragments start with three dots. -/
def isDotted : Selection → Bool
  | .leaf _ | .composite _ _ _ => false
  | .inlineFragment _ _ _ | .spread _ _ _ _ _ => true

variable {a b : Selection} {r r' : List Char}

theorem exists_cons_of_isDotted (h : a.isDotted = true) (r : List Char) :
    ∃ rest, a.chars ++ r = '.' :: rest := by
  cases a with
  | leaf | composite => cases h
  | inlineFragment condition typeName selections => exact ⟨_, chars_inlineFragment _ _ _ _⟩
  | spread serial name condition typeName selections => exact ⟨_, chars_spread _ _ _ _ _ _⟩

theorem chars_append_ne_of_not_isDotted (ha : a.Printable) (h : a.isDotted = false) {c : Char}
    (hc : TypeRef.isNameStart c = false) : a.chars ++ r ≠ c :: r' := by
  cases a with
  | inlineFragment | spread => cases h
  | leaf field =>
    rw [chars_leaf]
    exact Field.chars_append_ne ha hc
  | composite field typeName selections =>
    rw [chars_composite]
    exact Field.chars_append_ne ha.1 hc

theorem chars_append_ne (ha : a.Printable) {c : Char} (hc : TypeRef.isNameStart c = false)
    (hdot : '.' ≠ c) : a.chars ++ r ≠ c :: r' := by
  cases h : a.isDotted with
  | false => exact chars_append_ne_of_not_isDotted ha h hc
  | true =>
    obtain ⟨rest, heq⟩ := exists_cons_of_isDotted h r
    rw [heq]
    exact fun h => hdot (List.cons.inj h).1

theorem isDotted_eq (ha : a.Printable) (hb : b.Printable) (h : a.chars ++ r = b.chars ++ r') :
    a.isDotted = b.isDotted := by
  cases hda : a.isDotted <;> cases hdb : b.isDotted
  · rfl
  · obtain ⟨rest, heq⟩ := exists_cons_of_isDotted hdb r'
    exact absurd (h.trans heq) (chars_append_ne_of_not_isDotted ha hda rfl)
  · obtain ⟨rest, heq⟩ := exists_cons_of_isDotted hda r
    exact absurd (h.symm.trans heq) (chars_append_ne_of_not_isDotted hb hdb rfl)
  · rfl

/-- What stands behind a selection: a space, and no brace that would open a set. -/
def Ends (r : List Char) : Prop := ∃ rest, r = ' ' :: rest ∧ Stops (· == '\x7b') rest

theorem ends_listChars {selections : List Selection} (h : PrintableAll selections)
    (r : List Char) : Ends (listChars selections ++ ' ' :: '\x7d' :: r) := by
  cases selections with
  | nil =>
    rw [listChars_nil]
    exact ⟨_, rfl, stops_cons rfl⟩
  | cons selection rest =>
    refine ⟨_, listChars_cons _ _ _, fun c t heq => ?_⟩
    rw [beq_eq_false_iff_ne]
    rintro rfl
    exact chars_append_ne h.1 rfl (by decide) heq

theorem Ends.stops_isNamePart (h : Ends r) : Stops TypeRef.isNamePart r := by
  obtain ⟨rest, rfl, -⟩ := h
  exact stops_cons rfl

/-- A field without a set is not read as one with a set. -/
theorem leaf_append_ne {field other : Field} (ha : field.Printable) (hb : other.Printable)
    (hr : Ends r) (r' : List Char) : field.chars ++ r ≠ other.chars ++ ' ' :: '\x7b' :: r' := by
  obtain ⟨rest, rfl, hrest⟩ := hr
  exact fun h => hrest.ne_cons rfl (Field.append_inj ha hb h).2

/-- A spread is not read as an inline fragment. -/
theorem spread_append_ne {name : String} (hn : IsName name) (r r' : List Char) :
    '.' :: '.' :: '.' :: (name.toList ++ r) ≠ '.' :: '.' :: '.' :: ' ' :: r' := by
  simp only [ne_eq, List.cons.injEq, true_and]
  exact hn.append_ne rfl

mutual
/-- A selection is read off the front in one way only, up to its outline. -/
theorem append_inj {a b : Selection} (ha : a.Printable) (hb : b.Printable) {r r' : List Char}
    (hr : Ends r) (hr' : Ends r') (h : a.chars ++ r = b.chars ++ r') :
    a.outline = b.outline ∧ r = r' := by
  -- dots tell fragments from fields, so one half of the pairs is out at once
  have hdotted := isDotted_eq ha hb h
  cases a <;> cases b <;> first | (cases hdotted; done) | clear hdotted
  case leaf.leaf field other =>
    rw [chars_leaf, chars_leaf] at h
    obtain ⟨rest, rfl, -⟩ := hr
    obtain ⟨rest', rfl, -⟩ := hr'
    obtain ⟨hout, hrest⟩ := Field.append_inj ha hb h
    exact ⟨by rw [outline, outline, hout], congrArg (' ' :: ·) hrest⟩
  case leaf.composite field other typeName others =>
    rw [chars_leaf, chars_composite] at h
    exact absurd h (leaf_append_ne ha hb.1 hr _)
  case composite.leaf field typeName selections other =>
    rw [chars_composite, chars_leaf] at h
    exact absurd h.symm (leaf_append_ne hb ha.1 hr' _)
  case composite.composite field typeName selections other typeName' others =>
    rw [chars_composite, chars_composite] at h
    obtain ⟨hout, hset⟩ := Field.append_inj ha.1 hb.1 h
    obtain ⟨hall, hrest⟩ := all_append_inj ha.2 hb.2 (List.cons.inj hset).2
    exact ⟨by rw [outline, outline, hout, hall], hrest⟩
  case inlineFragment.inlineFragment condition typeName selections condition' typeName' others =>
    rw [chars_inlineFragment, chars_inlineFragment] at h
    simp only [List.cons.injEq, true_and] at h
    obtain ⟨rfl, hset⟩ := ha.1.append_inj hb.1 (stops_cons rfl) (stops_cons rfl) h
    simp only [List.cons.injEq, true_and] at hset
    obtain ⟨hall, hrest⟩ := all_append_inj ha.2 hb.2 hset
    exact ⟨by rw [outline, outline, hall], hrest⟩
  case inlineFragment.spread =>
    rw [chars_inlineFragment, chars_spread] at h
    exact absurd h.symm (spread_append_ne hb _ _)
  case spread.inlineFragment =>
    rw [chars_spread, chars_inlineFragment] at h
    exact absurd h (spread_append_ne ha _ _)
  case spread.spread serial name condition typeName selections _ name' _ _ _ =>
    rw [chars_spread, chars_spread] at h
    simp only [List.cons.injEq, true_and] at h
    obtain ⟨rfl, hrest⟩ := IsName.append_inj ha hb hr.stops_isNamePart hr'.stops_isNamePart h
    exact ⟨by rw [outline, outline], hrest⟩

theorem all_append_inj {selections others : List Selection} (ha : PrintableAll selections)
    (hb : PrintableAll others) {r r' : List Char}
    (h : listChars selections ++ ' ' :: '\x7d' :: r = listChars others ++ ' ' :: '\x7d' :: r') :
    outlineAll selections = outlineAll others ∧ r = r' := by
  -- behind the space stands a selection or the closing brace
  cases selections with
  | nil =>
    rw [listChars_nil, List.nil_append] at h
    cases others with
    | nil =>
      rw [listChars_nil] at h
      exact ⟨rfl, (List.cons.inj (List.cons.inj h).2).2⟩
    | cons other others =>
      rw [listChars_cons] at h
      exact absurd (List.cons.inj h).2.symm (chars_append_ne hb.1 rfl (by decide))
  | cons selection rest =>
    rw [listChars_cons] at h
    cases others with
    | nil =>
      rw [listChars_nil] at h
      exact absurd (List.cons.inj h).2 (chars_append_ne ha.1 rfl (by decide))
    | cons other others =>
      rw [listChars_cons] at h
      obtain ⟨hone, hrest⟩ := append_inj ha.1 hb.1 (ends_listChars ha.2 r)
        (ends_listChars hb.2 r') (List.cons.inj h).2
      obtain ⟨hall, hrest⟩ := all_append_inj ha.2 hb.2 hrest
      exact ⟨by rw [outlineAll, outlineAll, hone, hall], hrest⟩
end

theorem set_append_inj {selections others : List Selection} (ha : PrintableAll selections)
    (hb : PrintableAll others)
    (h : (setText selections).toList ++ r = (setText others).toList ++ r') :
    outlineAll selections = outlineAll others ∧ r = r' := by
  rw [setText_append, setText_append] at h
  exact all_append_inj ha hb (List.cons.inj h).2

end Selection

namespace Fragment

structure Printable (fragment : Fragment) : Prop where
  name : IsName fragment.name
  condition : IsName fragment.condition
  selections : Selection.PrintableAll fragment.set.selections

/-- What the text of the fragment shows. -/
def outline (fragment : Fragment) : Fragment :=
  ⟨0, fragment.name, fragment.condition, ⟨"", Selection.outlineAll fragment.set.selections⟩⟩

theorem text_outline (fragment : Fragment) : fragment.outline.text = fragment.text := by
  simp only [text, outline, SelectionSet.text, Selection.setText_outlineAll]

/-- Where a fragment comes after others. -/
def chars (fragment : Fragment) : List Char := '\n' :: fragment.text.toList

theorem chars_append (fragment : Fragment) (r : List Char) : fragment.chars ++ r =
    "\nfragment ".toList ++ (fragment.name.toList ++ ' ' :: 'o' :: 'n' :: ' ' ::
      (fragment.condition.toList ++
        ' ' :: ((Selection.setText fragment.set.selections).toList ++ r))) := by
  simp [chars, text, SelectionSet.text]

variable {a b : Fragment} {r r' : List Char}

theorem append_inj (ha : a.Printable) (hb : b.Printable) (h : a.chars ++ r = b.chars ++ r') :
    a.outline = b.outline ∧ r = r' := by
  rw [chars_append, chars_append] at h
  obtain ⟨hname, hcondition⟩ := ha.name.append_inj hb.name (stops_cons rfl) (stops_cons rfl)
    (List.append_cancel_left h)
  simp only [List.cons.injEq, true_and] at hcondition
  obtain ⟨hcondition, hset⟩ := ha.condition.append_inj hb.condition (stops_cons rfl)
    (stops_cons rfl) hcondition
  obtain ⟨hset, hrest⟩ :=
    Selection.set_append_inj ha.selections hb.selections (List.cons.inj hset).2
  exact ⟨by rw [outline, outline, hname, hcondition, hset], hrest⟩

theorem flatMap_chars_inj {fragments others : List Fragment}
    (ha : ∀ fragment ∈ fragments, fragment.Printable) (hb : ∀ fragment ∈ others, fragment.Printable)
    (h : fragments.flatMap chars = others.flatMap chars) :
    fragments.map outline = others.map outline := by
  induction fragments generalizing others with
  | nil =>
    cases others with
    | nil => rfl
    | cons other others => cases h
  | cons fragment fragments ih =>
    cases others with
    | nil => cases h
    | cons other others =>
      rw [List.forall_mem_cons] at ha hb
      obtain ⟨hone, hrest⟩ := append_inj ha.1 hb.1 h
      rw [List.map_cons, List.map_cons, hone, ih ha.2 hb.2 hrest]

end Fragment

end GraphQLClient
