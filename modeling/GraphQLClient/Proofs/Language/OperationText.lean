import GraphQLClient.Proofs.Language.SelectionText
import GraphQLClient.Proofs.Language.TypeText

set_option autoImplicit false

/-!
# Texts of operations

The text of an operation is unambiguous: operations with one text have the same keyword, name,
variables and directives, and selection sets and fragments of the same outline. No text inside a
string is taken for anything else.
-/

namespace GraphQLClient

namespace VariableDefinition

structure Printable (definition : VariableDefinition) : Prop where
  name : IsName definition.name
  type : definition.type.Printable
  defaultValue : ∀ value ∈ definition.defaultValue, value.Printable

def chars (definition : VariableDefinition) : List Char := definition.text.toList

def defaultChars : Option Value → List Char
  | none => []
  | some value => ' ' :: '=' :: ' ' :: value.chars

theorem chars_append (definition : VariableDefinition) (r : List Char) : definition.chars ++ r =
    '$' :: (definition.name.toList ++ ':' :: ' ' :: (definition.type.chars ++
      (defaultChars definition.defaultValue ++ r))) := by
  cases h : definition.defaultValue <;>
    simp [chars, text, TypeRef.chars, Value.chars, defaultChars, h]

theorem listText_toList (definitions : List VariableDefinition) :
    (listText definitions).toList = commas chars definitions := by
  induction definitions with
  | nil => rfl
  | cons one rest ih =>
    cases rest with
    | nil => rfl
    | cons second rest => simp [listText, commas, chars, ih]

/-- All that a definition can go on with: it ends at a comma or at the closing parenthesis. -/
def isPart (c : Char) : Bool := c != ',' && c != ')'

theorem isPart_of {p : Char → Bool} (hcomma : p ',' = false) (hclose : p ')' = false) (c : Char)
    (h : p c = true) : isPart c = true := by
  have hc : ∀ d, p d = false → c ≠ d := by
    rintro d hd rfl
    rw [h] at hd
    cases hd
  simp [isPart, hc _ hcomma, hc _ hclose]

variable {a b : VariableDefinition} {r r' : List Char}

theorem defaultChars_append_stops (value : Option Value) (hr : Stops isPart r) :
    Stops TypeRef.isTypePart (defaultChars value ++ r) := by
  cases value with
  | none => exact hr.mono (isPart_of rfl rfl)
  | some value => exact stops_cons rfl

theorem default_append_inj {value other : Option Value} (ha : ∀ v ∈ value, v.Printable)
    (hb : ∀ v ∈ other, v.Printable) (hr : Stops isPart r) (hr' : Stops isPart r')
    (h : defaultChars value ++ r = defaultChars other ++ r') : value = other ∧ r = r' := by
  cases value with
  | none =>
    cases other with
    | none => exact ⟨rfl, h⟩
    | some other => exact absurd h (hr.ne_cons rfl)
  | some value =>
    cases other with
    | none => exact absurd h.symm (hr'.ne_cons rfl)
    | some other =>
      simp only [defaultChars, List.cons_append, List.cons.injEq, true_and] at h
      obtain ⟨rfl, hrest⟩ := Value.reads (ha value rfl) (hb other rfl) r r'
        (hr.mono (isPart_of rfl rfl)) (hr'.mono (isPart_of rfl rfl)) h
      exact ⟨rfl, hrest⟩

theorem reads (ha : a.Printable) (hb : b.Printable) : Reads isPart chars a b := by
  intro r r' hr hr' h
  rw [chars_append, chars_append] at h
  obtain ⟨hname, htype⟩ :=
    ha.name.append_inj hb.name (stops_cons rfl) (stops_cons rfl) (List.cons.inj h).2
  simp only [List.cons.injEq, true_and] at htype
  obtain ⟨htype, hdefault⟩ := TypeRef.reads ha.type hb.type _ _ (defaultChars_append_stops _ hr)
    (defaultChars_append_stops _ hr') htype
  obtain ⟨hdefault, hrest⟩ := default_append_inj ha.defaultValue hb.defaultValue hr hr' hdefault
  cases a
  cases b
  rw [VariableDefinition.mk.injEq]
  exact ⟨⟨hname, htype, hdefault⟩, hrest⟩

theorem list_append_inj {definitions others : List VariableDefinition}
    (ha : ∀ definition ∈ definitions, definition.Printable)
    (hb : ∀ definition ∈ others, definition.Printable) (hr : Stops (· == '(') r)
    (hr' : Stops (· == '(') r') (h : parens chars definitions ++ r = parens chars others ++ r') :
    definitions = others ∧ r = r' := by
  have hopen : ∀ (definition : VariableDefinition) (s t : List Char),
      definition.chars ++ s ≠ ')' :: t := by
    intro definition s t heq
    rw [chars_append] at heq
    exact absurd (List.cons.inj heq).1 (by decide)
  refine parens_append_inj (fun s t heq => ?_) hr hr' h
  exact commas_append_inj rfl rfl (by decide) (fun definition _ => hopen definition)
    (fun definition _ => hopen definition) (fun a hm b hm' => reads (ha a hm) (hb b hm')) heq

end VariableDefinition

namespace Directive

structure Printable (directive : Directive) : Prop where
  name : IsName directive.name
  arguments : Value.PrintableFields directive.arguments

end Directive

namespace Operation

/-- The directives with the set behind them. -/
def bodyChars (directives : List Directive) (r : List Char) : List Char :=
  (directivesText directives).toList ++ ' ' :: '\x7b' :: r

variable {r r' : List Char}

theorem bodyChars_cons (directive : Directive) (rest : List Directive) :
    bodyChars (directive :: rest) r =
      ' ' :: '@' :: (Value.callChars directive.name directive.arguments ++ bodyChars rest r) := by
  simp [bodyChars, directivesText, Directive.text, Value.callChars, Value.argumentsText_toList]

theorem exists_bodyChars (directives : List Directive) (r : List Char) :
    ∃ c rest, bodyChars directives r = ' ' :: c :: rest ∧ (c = '@' ∨ c = '\x7b') := by
  cases directives with
  | nil => exact ⟨'\x7b', r, rfl, .inr rfl⟩
  | cons directive rest => exact ⟨'@', _, bodyChars_cons _ _, .inl rfl⟩

/-- The directives end where the set opens. -/
theorem bodyChars_inj {directives others : List Directive}
    (ha : ∀ directive ∈ directives, directive.Printable)
    (hb : ∀ directive ∈ others, directive.Printable)
    (h : bodyChars directives r = bodyChars others r') : directives = others ∧ r = r' := by
  induction directives generalizing others with
  | nil =>
    cases others with
    | nil => exact ⟨rfl, (List.cons.inj (List.cons.inj h).2).2⟩
    | cons other others =>
      rw [bodyChars_cons] at h
      exact absurd (List.cons.inj (List.cons.inj h).2).1 (by decide)
  | cons directive directives ih =>
    rw [bodyChars_cons] at h
    cases others with
    | nil => exact absurd (List.cons.inj (List.cons.inj h).2).1 (by decide)
    | cons other others =>
      rw [bodyChars_cons] at h
      rw [List.forall_mem_cons] at ha hb
      -- a directive ends at a space, which is what follows in either case
      obtain ⟨c, s, hs, -⟩ := exists_bodyChars directives r
      obtain ⟨d, t, ht, -⟩ := exists_bodyChars others r'
      rw [hs, ht] at h
      obtain ⟨hname, hargs, hrest⟩ := Value.call_append_inj ha.1.name ha.1.arguments hb.1.name
        hb.1.arguments (List.cons.inj (List.cons.inj h).2).2
      obtain ⟨rfl, hrest⟩ := ih ha.2 hb.2 (by rw [hs, ht, hrest])
      cases directive
      cases other
      rw [List.cons.injEq, Directive.mk.injEq]
      exact ⟨⟨⟨hname, hargs⟩, rfl⟩, hrest⟩

/-- Name and variables. Without a name, a space comes before the variables. -/
def signatureChars : Option String → List VariableDefinition → List Char
  | none, [] => []
  | none, definitions => ' ' :: parens VariableDefinition.chars definitions
  | some name, definitions =>
    ' ' :: (name.toList ++ parens VariableDefinition.chars definitions)

theorem headText_toList (operation : Operation) : operation.headText.toList =
    operation.kind.keyword.toList ++
      signatureChars operation.name operation.declarations := by
  cases hname : operation.name <;> cases hdecl : operation.declarations <;>
    simp [headText, signatureChars, parens, VariableDefinition.listText_toList, hname, hdecl]

/-- What stands behind the signature: a space, and then no name and no parenthesis. -/
def Follows (r : List Char) : Prop :=
  ∃ rest, r = ' ' :: rest ∧ Stops (fun c => TypeRef.isNameStart c || c == '(') rest

theorem follows_bodyChars (directives : List Directive) (r : List Char) :
    Follows (bodyChars directives r) := by
  obtain ⟨c, rest, heq, rfl | rfl⟩ := exists_bodyChars directives r
  · exact ⟨_, heq, stops_cons rfl⟩
  · exact ⟨_, heq, stops_cons rfl⟩

theorem Follows.stops {p : Char → Bool} (hp : p ' ' = false) (h : Follows r) : Stops p r := by
  obtain ⟨rest, rfl, -⟩ := h
  exact stops_cons hp

theorem Follows.parens_stops (definitions : List VariableDefinition) (h : Follows r) :
    Stops TypeRef.isNamePart (parens VariableDefinition.chars definitions ++ r) := by
  cases definitions with
  | nil => exact h.stops rfl
  | cons => exact stops_cons rfl

/-- Without a name no name stands behind the keyword. -/
theorem nameless_append_ne {definitions others : List VariableDefinition} {name : String}
    (hn : IsName name) (hr : Follows r) :
    signatureChars none definitions ++ r ≠ signatureChars (some name) others ++ r' := by
  intro h
  rw [signatureChars.eq_def (some name), List.cons_append, List.append_assoc] at h
  cases definitions with
  | nil =>
    obtain ⟨rest, rfl, hrest⟩ := hr
    obtain ⟨c, tail, hc, hstart, -⟩ := hn.exists_cons
    rw [hc] at h
    have hstop : (TypeRef.isNameStart c || c == '(') = true := by rw [hstart, Bool.true_or]
    exact hrest.ne_cons hstop (List.cons.inj h).2
  | cons => exact hn.append_ne rfl (List.cons.inj h).2.symm

theorem signature_append_inj {name other : Option String}
    {definitions others : List VariableDefinition} (hn : ∀ n ∈ name, IsName n)
    (ha : ∀ definition ∈ definitions, definition.Printable) (hn' : ∀ n ∈ other, IsName n)
    (hb : ∀ definition ∈ others, definition.Printable) (hr : Follows r) (hr' : Follows r')
    (h : signatureChars name definitions ++ r = signatureChars other others ++ r') :
    name = other ∧ definitions = others ∧ r = r' := by
  have hlist := fun h => VariableDefinition.list_append_inj ha hb (hr.stops rfl) (hr'.stops rfl) h
  cases name with
  | some name =>
    cases other with
    | none => exact absurd h.symm (nameless_append_ne (hn name rfl) hr')
    | some other =>
      simp only [signatureChars, List.cons_append, List.append_assoc, List.cons.injEq,
        true_and] at h
      obtain ⟨rfl, hdefs⟩ := (hn name rfl).append_inj (hn' other rfl) (hr.parens_stops _)
        (hr'.parens_stops _) h
      exact ⟨rfl, hlist hdefs⟩
  | none =>
    cases other with
    | some other => exact absurd h (nameless_append_ne (hn' other rfl) hr)
    | none =>
      refine ⟨rfl, ?_⟩
      -- without variables nothing at all is written, not even the space
      cases definitions with
      | nil =>
        cases others with
        | nil => exact ⟨rfl, h⟩
        | cons =>
          obtain ⟨rest, rfl, hrest⟩ := hr
          exact absurd (List.cons.inj h).2 (hrest.ne_cons rfl)
      | cons =>
        cases others with
        | nil =>
          obtain ⟨rest, rfl, hrest⟩ := hr'
          exact absurd (List.cons.inj h).2.symm (hrest.ne_cons rfl)
        | cons => exact hlist (List.cons.inj h).2

/-- What is written of the operation can be written: all names are names, no name of an enum value is
one of the words `null`, `true` and `false`, and floats are finite. -/
structure Printable (operation : Operation) : Prop where
  name : ∀ name ∈ operation.name, IsName name
  declarations : ∀ definition ∈ operation.declarations, definition.Printable
  directives : ∀ directive ∈ operation.directives, directive.Printable
  selections : Selection.PrintableAll operation.set.selections
  fragments : ∀ fragment ∈ operation.fragments, fragment.Printable

/-- What the text of the operation shows apart from the fragments: all but the types that sets select
on, the mark of connections and what spreads hold besides names. -/
def outline (operation : Operation) : Operation :=
  { operation with set := ⟨"", Selection.outlineAll operation.set.selections⟩ }

theorem definitionText_outline (operation : Operation) (context : Option Directive) :
    operation.outline.definitionText context = operation.definitionText context := by
  have hset : operation.outline.set.text = operation.set.text :=
    Selection.setText_outlineAll operation.set.selections
  rw [definitionText, definitionText, hset]
  rfl

/-- The fragments come after the operation, each on a line of its own. -/
theorem text_toList_append (operation : Operation) (context : Option Directive) :
    (operation.text context).toList =
      (operation.definitionText context).toList ++ operation.fragments.flatMap Fragment.chars := by
  have hlines : ∀ (first : List Char) (lines : List (List Char)),
      ['\n'].intercalate (first :: lines) = first ++ lines.flatMap ('\n' :: ·) := by
    intro first lines
    induction lines generalizing first with
    | nil => simp
    | cons line lines ih => simp [ih]
  rw [text, String.toList_intercalate, List.map_cons, show "\n".toList = ['\n'] from rfl, hlines,
    List.map_map, List.flatMap_map]
  rfl

theorem text_toList (operation : Operation) : (operation.text none).toList =
    operation.kind.keyword.toList ++ (signatureChars operation.name operation.declarations ++
      bodyChars operation.directives (Selection.listChars operation.set.selections ++
        ' ' :: '\x7d' :: operation.fragments.flatMap Fragment.chars)) := by
  rw [bodyChars, ← Selection.setText_append, text_toList_append, definitionText, SelectionSet.text]
  simp [headText_toList]

theorem kind_eq {a b : OperationKind}
    (h : a.keyword.toList ++ r = b.keyword.toList ++ r') : a = b := by
  cases a <;> cases b
  · rfl
  · exact absurd (List.cons.inj h).1 (by decide)
  · exact absurd (List.cons.inj h).1 (by decide)
  · rfl

/-- Two operations have the same text exactly if they have the same outline and the fragments written
behind them do. A string is told from what stands behind it, whatever the two hold. -/
theorem text_eq_iff {a b : Operation} (ha : a.Printable) (hb : b.Printable) :
    (a.text none = b.text none ↔ a.outline = b.outline ∧
      a.fragments.map Fragment.outline = b.fragments.map Fragment.outline) ∧
    ∀ s t rest rest' : String, (Value.string s).text ++ rest = (Value.string t).text ++ rest' →
      s = t ∧ rest = rest' := by
  refine ⟨⟨fun h => ?_, fun h => ?_⟩, fun s t rest rest' h => ?_⟩
  · have hchars := congrArg String.toList h
    rw [text_toList, text_toList] at hchars
    have hkind := kind_eq hchars
    rw [hkind] at hchars
    obtain ⟨hname, hdecl, hbody⟩ := signature_append_inj ha.name ha.declarations hb.name
      hb.declarations (follows_bodyChars _ _) (follows_bodyChars _ _)
      (List.append_cancel_left hchars)
    obtain ⟨hdirectives, hset⟩ := bodyChars_inj ha.directives hb.directives hbody
    obtain ⟨hset, hfragments⟩ := Selection.all_append_inj ha.selections hb.selections hset
    exact ⟨by simp only [outline, hkind, hname, hdecl, hdirectives, hset],
      Fragment.flatMap_chars_inj ha.fragments hb.fragments hfragments⟩
  · have htext : ∀ fragments : List Fragment,
        fragments.map Fragment.text = (fragments.map Fragment.outline).map Fragment.text := by
      intro fragments
      rw [List.map_map]
      exact List.map_congr_left fun fragment _ => fragment.text_outline.symm
    rw [text, text, ← definitionText_outline, h.1, definitionText_outline, htext, h.2, ← htext]
  · have hchars := congrArg String.toList h
    rw [String.toList_append, String.toList_append] at hchars
    obtain ⟨hs, hrest⟩ := Json.quoted_append_inj hchars
    exact ⟨hs, String.toList_inj.1 hrest⟩

/-- A search for a phrase. The type names and the mark of the connection are not written. -/
def search (typeName : String) (connection : Bool) (phrase : String) : Operation where
  kind := .query
  name := some "Search"
  declarations := [⟨"limit", .nonNull (.named "Int"), some (.int 5)⟩]
  directives := [⟨"cached", [("lifetime", .enum "LONG")]⟩]
  set := ⟨typeName, [.composite ⟨"search", some "hits",
    [("phrase", .string phrase), ("first", .var "limit")], connection⟩ typeName
    [.inlineFragment "Person" typeName [.leaf ⟨"id", none, [], false⟩],
      .spread 0 "card" "Hit" typeName [.leaf ⟨"title", none, [], connection⟩]]]⟩

theorem search_fragments (typeName : String) (connection : Bool) (phrase : String) :
    (search typeName connection phrase).fragments =
      [⟨0, "card", "Hit", ⟨typeName, [.leaf ⟨"title", none, [], connection⟩]⟩⟩] := by
  simp [fragments, SelectionSet.fragments, search, Selection.addFragmentsOfAll,
    Selection.addFragments]

theorem search_printable (typeName : String) (connection : Bool) (phrase : String) :
    (search typeName connection phrase).Printable := by
  have hname : ∀ name ∈ ["Search", "limit", "Int", "cached", "lifetime", "LONG", "search", "hits",
      "phrase", "first", "Person", "id", "card", "Hit", "title"], IsName name := by
    decide
  have hleaf : ∀ {name : String} {mark : Bool}, IsName name →
      Field.Printable ⟨name, none, [], mark⟩ :=
    fun hn => ⟨hn, by simp, trivial⟩
  constructor
  · simp [search, hname]
  · simp only [search, List.forall_mem_singleton]
    exact ⟨hname _ (by simp), hname "Int" (by simp), by simp [Value.Printable]⟩
  · simp only [search, List.forall_mem_singleton]
    exact ⟨hname _ (by simp), by simp [Value.PrintableFields, Value.Printable, hname]⟩
  · refine ⟨⟨⟨hname _ (by simp), by simp [hname], ?_⟩, ⟨hname _ (by simp), hleaf ?_, trivial⟩,
      hname _ (by simp), trivial⟩, trivial⟩
    · simp [Value.PrintableFields, Value.Printable, hname]
    · exact hname _ (by simp)
  · simp only [search_fragments, List.forall_mem_singleton]
    exact ⟨hname _ (by simp), hname _ (by simp), hleaf (hname _ (by simp)), trivial⟩

/-- Types and marks leave no trace in the text, and a phrase does not read as more than a phrase. -/
theorem search_text :
    (search "Query" true "tea").Printable ∧ (search "Hit" false "tea").Printable ∧
    (search "Query" true "tea").text none = (search "Hit" false "tea").text none ∧
    (search "Query" true "tea").text none ≠ (search "Query" true "tea\") \x7b name \x7d #").text none := by
  refine ⟨search_printable _ _ _, search_printable _ _ _, ?_, ?_⟩
  · refine (text_eq_iff (search_printable _ _ _) (search_printable _ _ _)).1.2 ?_
    rw [search_fragments, search_fragments]
    simp [Fragment.outline, outline, search, Selection.outlineAll, Selection.outline, Field.outline]
  · intro h
    have hout := ((text_eq_iff (search_printable _ _ _) (search_printable _ _ _)).1.1 h).1
    simp [outline, search, Selection.outlineAll, Selection.outline, Field.outline] at hout

end Operation

end GraphQLClient
