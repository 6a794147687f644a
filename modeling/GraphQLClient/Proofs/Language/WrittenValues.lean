import GraphQLClient.Proofs.Language.OperationText

set_option autoImplicit false

/-!
# Values in the text of an operation

An operation writes the defaults of its variables, the arguments of its directives, and the arguments of
all fields in its set and in the fragments behind it. The text of each stands in the text of the
operation, and with it the texts of the floats in it. A float is written `null` exactly if it is
not finite.
-/

namespace GraphQLClient

section Runs

variable {α : Type} {print : α → List Char} {item : α} {items : List α}

theorem infix_commas_rest (first : α) (rest : List α) :
    commas print rest <:+: commas print (first :: rest) := by
  cases rest with
  | nil => exact List.nil_infix
  | cons second rest => exact ⟨print first ++ [',', ' '], [], by simp [commas]⟩

theorem infix_commas (h : item ∈ items) : print item <:+: commas print items := by
  induction items with
  | nil => cases h
  | cons first rest ih =>
    rcases List.mem_cons.1 h with rfl | h
    · rw [commas_cons]
      exact (List.prefix_append _ _).isInfix
    · exact (ih h).trans (infix_commas_rest first rest)

theorem infix_parens (h : item ∈ items) : print item <:+: parens print items := by
  cases items with
  | nil => cases h
  | cons first rest => exact (infix_commas h).trans ⟨['('], [')'], rfl⟩

end Runs

namespace Value

mutual
/-- The floats in a value. -/
def floats : Value → List Float
  | .float x => [x]
  | .list items => floatsOfItems items
  | .object fields => floatsOfFields fields
  | _ => []

def floatsOfItems : List Value → List Float
  | [] => []
  | item :: rest => floats item ++ floatsOfItems rest

def floatsOfFields : List (String × Value) → List Float
  | [] => []
  | (_, value) :: rest => floats value ++ floatsOfFields rest
end

mutual
theorem isFinite_iff (value : Value) :
    value.isFinite = true ↔ ∀ x ∈ value.floats, x.isFinite = true := by
  cases value with
  | float x => simp [isFinite, floats]
  | list items => exact finiteItems_iff items
  | object fields => exact finiteFields_iff fields
  | _ => simp [isFinite, floats]

theorem finiteItems_iff (items : List Value) :
    finiteItems items = true ↔ ∀ x ∈ floatsOfItems items, x.isFinite = true := by
  cases items with
  | nil => simp [finiteItems, floatsOfItems]
  | cons item rest =>
    rw [finiteItems, floatsOfItems, Bool.and_eq_true, List.forall_mem_append, isFinite_iff item,
      finiteItems_iff rest]

theorem finiteFields_iff (fields : List (String × Value)) :
    finiteFields fields = true ↔ ∀ x ∈ floatsOfFields fields, x.isFinite = true := by
  cases fields with
  | nil => simp [finiteFields, floatsOfFields]
  | cons entry rest =>
    rw [finiteFields, floatsOfFields, Bool.and_eq_true, List.forall_mem_append, isFinite_iff entry.2,
      finiteFields_iff rest]
end

theorem floatText_eq_null_iff (x : Float) : Json.floatText x = "null" ↔ x.isFinite = false := by
  cases hx : x.isFinite with
  | true =>
    have hname : IsName "null" := by decide
    have hne : Json.floatText x ≠ "null" :=
      fun heq => (isNumeral_float hx).ne_name hname (congrArg String.toList heq)
    simp [hne]
  | false => simp [Json.floatText, hx]

/-- The values that are finite are those that no float is written `null` in. -/
theorem isFinite_iff_floatText (value : Value) :
    value.isFinite = true ↔ ∀ x ∈ value.floats, Json.floatText x ≠ "null" := by
  simp only [isFinite_iff, ne_eq, floatText_eq_null_iff, Bool.not_eq_false]

theorem infix_entryChars (entry : String × Value) : entry.2.chars <:+: entryChars entry :=
  ⟨entry.1.toList ++ [':', ' '], [], by simp [entryChars]⟩

mutual
/-- A float stands in the text of the value that it is in. -/
theorem infix_floatText {x : Float} {value : Value} (h : x ∈ value.floats) :
    (Json.floatText x).toList <:+: value.chars := by
  cases value with
  | float y =>
    obtain rfl := List.mem_singleton.1 h
    exact List.infix_rfl
  | list items =>
    rw [chars_list]
    exact (infix_floatText_items h).trans ⟨['['], [']'], rfl⟩
  | object fields =>
    rw [chars_object]
    exact (infix_floatText_fields h).trans ⟨['\x7b'], ['\x7d'], rfl⟩
  | _ => cases h

theorem infix_floatText_items {x : Float} {items : List Value} (h : x ∈ floatsOfItems items) :
    (Json.floatText x).toList <:+: commas chars items := by
  cases items with
  | nil => cases h
  | cons item rest =>
    rcases List.mem_append.1 h with h | h
    · exact (infix_floatText h).trans (infix_commas List.mem_cons_self)
    · exact (infix_floatText_items h).trans (infix_commas_rest item rest)

theorem infix_floatText_fields {x : Float} {fields : List (String × Value)}
    (h : x ∈ floatsOfFields fields) :
    (Json.floatText x).toList <:+: commas entryChars fields := by
  cases fields with
  | nil => cases h
  | cons entry rest =>
    rcases List.mem_append.1 h with h | h
    · exact ((infix_floatText h).trans (infix_entryChars entry)).trans
        (infix_commas List.mem_cons_self)
    · exact (infix_floatText_fields h).trans (infix_commas_rest entry rest)
end

theorem infix_arguments {value : Value} {arguments : List (String × Value)}
    (h : value ∈ arguments.map Prod.snd) : value.chars <:+: parens entryChars arguments := by
  obtain ⟨argument, ha, rfl⟩ := List.mem_map.1 h
  exact (infix_entryChars argument).trans (infix_parens ha)

theorem infix_call {value : Value} (name : String) {arguments : List (String × Value)}
    (h : value ∈ arguments.map Prod.snd) : value.chars <:+: callChars name arguments :=
  (infix_arguments h).trans (List.suffix_append _ _).isInfix

end Value

namespace Selection

mutual
/-- The arguments that a selection writes; a spread writes none. -/
def values : Selection → List Value
  | .leaf field => field.arguments.map Prod.snd
  | .composite field _ selections => field.arguments.map Prod.snd ++ valuesOfAll selections
  | .inlineFragment _ _ selections => valuesOfAll selections
  | .spread _ _ _ _ _ => []

def valuesOfAll : List Selection → List Value
  | [] => []
  | selection :: rest => values selection ++ valuesOfAll rest
end

theorem valuesOfAll_append (before after : List Selection) :
    valuesOfAll (before ++ after) = valuesOfAll before ++ valuesOfAll after := by
  induction before with
  | nil => rfl
  | cons selection rest ih => rw [List.cons_append, valuesOfAll, valuesOfAll, ih, List.append_assoc]

theorem infix_field {value : Value} {field : Field} (h : value ∈ field.arguments.map Prod.snd) :
    value.chars <:+: field.chars := by
  rw [Field.chars_eq]
  exact (Value.infix_call field.name h).trans (List.suffix_append _ _).isInfix

mutual
theorem infix_value {value : Value} {selection : Selection} (h : value ∈ selection.values) :
    value.chars <:+: selection.chars := by
  cases selection with
  | leaf field =>
    rw [chars_leaf]
    exact infix_field h
  | composite field typeName selections =>
    have hchars := chars_composite field typeName selections []
    rw [List.append_nil] at hchars
    rw [hchars]
    rcases List.mem_append.1 h with h | h
    · exact (infix_field h).trans (List.prefix_append _ _).isInfix
    · exact (infix_value_all h).trans ⟨field.chars ++ [' ', '\x7b'], [' ', '\x7d'], by simp⟩
  | inlineFragment condition typeName selections =>
    have hchars := chars_inlineFragment condition typeName selections []
    rw [List.append_nil] at hchars
    rw [hchars]
    exact (infix_value_all h).trans
      ⟨"... on ".toList ++ condition.toList ++ [' ', '\x7b'], [' ', '\x7d'], by simp⟩
  | spread => cases h

theorem infix_value_all {value : Value} {selections : List Selection}
    (h : value ∈ valuesOfAll selections) : value.chars <:+: listChars selections := by
  cases selections with
  | nil => cases h
  | cons selection rest =>
    have hchars := listChars_cons selection rest []
    rw [List.append_nil] at hchars
    rw [hchars]
    rcases List.mem_append.1 h with h | h
    · exact (infix_value h).trans ⟨[' '], listChars rest, by simp⟩
    · exact (infix_value_all h).trans ⟨' ' :: selection.chars, [], by simp⟩
end

end Selection

theorem VariableDefinition.infix_default {value : Value} {definition : VariableDefinition}
    (h : value ∈ definition.defaultValue) : value.chars <:+: definition.chars := by
  have hchars := definition.chars_append []
  rw [List.append_nil, Option.mem_def.1 h] at hchars
  rw [hchars]
  exact ⟨'$' :: (definition.name.toList ++ [':', ' '] ++ definition.type.chars ++ [' ', '=', ' ']),
    [], by simp [defaultChars]⟩

theorem Fragment.infix_value {value : Value} {fragment : Fragment}
    (h : value ∈ Selection.valuesOfAll fragment.set.selections) : value.chars <:+: fragment.chars := by
  have hchars := fragment.chars_append []
  rw [List.append_nil, Selection.setText_append] at hchars
  rw [hchars]
  exact (Selection.infix_value_all h).trans
    ⟨"\nfragment ".toList ++ fragment.name.toList ++ " on ".toList ++ fragment.condition.toList ++
      [' ', '\x7b'], [' ', '\x7d'], by simp⟩

namespace Operation

/-- The values that an operation writes: defaults, arguments of directives, and arguments of fields in
its set and in its fragments. -/
def values (operation : Operation) : List Value :=
  operation.declarations.filterMap (·.defaultValue) ++
    (operation.directives.flatMap (·.arguments.map Prod.snd) ++
      (Selection.valuesOfAll operation.set.selections ++
        operation.fragments.flatMap fun fragment => Selection.valuesOfAll fragment.set.selections))

theorem infix_signature {value : Value} {name : Option String}
    {declarations : List VariableDefinition}
    (h : value ∈ declarations.filterMap (·.defaultValue)) :
    value.chars <:+: signatureChars name declarations := by
  obtain ⟨definition, hd, hv⟩ := List.mem_filterMap.1 h
  have hlist : value.chars <:+: parens VariableDefinition.chars declarations :=
    (VariableDefinition.infix_default hv).trans (infix_parens hd)
  cases name with
  | some name => exact hlist.trans ⟨' ' :: name.toList, [], by simp [signatureChars]⟩
  | none =>
    cases declarations with
    | nil => cases hd
    | cons first rest => exact hlist.trans ⟨[' '], [], by simp [signatureChars]⟩

theorem infix_directives {value : Value} {directives : List Directive}
    (h : value ∈ directives.flatMap (·.arguments.map Prod.snd)) (r : List Char) :
    value.chars <:+: bodyChars directives r := by
  induction directives with
  | nil => cases h
  | cons directive rest ih =>
    rw [bodyChars_cons]
    rcases List.mem_append.1 h with h | h
    · exact (Value.infix_call directive.name h).trans ⟨[' ', '@'], bodyChars rest r, by simp⟩
    · exact (ih h).trans ⟨' ' :: '@' :: Value.callChars directive.name directive.arguments, [], by simp⟩

theorem suffix_bodyChars (directives : List Directive) (r : List Char) :
    r <:+ bodyChars directives r :=
  ⟨(directivesText directives).toList ++ [' ', '\x7b'], by simp [bodyChars]⟩

/-- A value stands in the text of the operation that writes it. -/
theorem infix_value {operation : Operation} {value : Value} (h : value ∈ operation.values) :
    value.chars <:+: (operation.text none).toList := by
  rw [text_toList]
  refine List.IsInfix.trans ?_ (List.suffix_append _ _).isInfix
  rcases List.mem_append.1 h with h | h
  · exact (infix_signature h).trans (List.prefix_append _ _).isInfix
  refine List.IsInfix.trans ?_ (List.suffix_append _ _).isInfix
  rcases List.mem_append.1 h with h | h
  · exact infix_directives h _
  refine List.IsInfix.trans ?_ (suffix_bodyChars _ _).isInfix
  rcases List.mem_append.1 h with h | h
  · exact (Selection.infix_value_all h).trans (List.prefix_append _ _).isInfix
  · obtain ⟨fragment, hf, h⟩ := List.mem_flatMap.1 h
    have hfragments : value.chars <:+: operation.fragments.flatMap Fragment.chars :=
      (Fragment.infix_value h).trans (List.infix_of_mem_flatten (List.mem_map_of_mem hf))
    exact hfragments.trans
      ⟨Selection.listChars operation.set.selections ++ [' ', '\x7d'], [], by simp⟩

end Operation

end GraphQLClient
