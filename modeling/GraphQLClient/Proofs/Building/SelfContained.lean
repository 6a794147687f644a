import GraphQLClient.Proofs.Building.Leftovers
import GraphQLClient.Proofs.Language.OperationText

set_option autoImplicit false

/-!
# Operations that stand on their own

The text of an operation is followed by the fragments that were gathered from it. Someone who reads it
and turns to the definition of a fragment where its name comes up for the first time finds each
definition, needs them in the order in which they stand, and leaves none out. That holds also where
spreads of one name mean different fragments: such a name has one definition all the same.
-/

namespace GraphQLClient

namespace Selection

/-- Someone reads the selections who has read the definitions `met` already, and has read `after` in the
end. At a new name the definition of that name in `defined` is read first, then what stands behind the
spread. -/
inductive Meets (defined : List Fragment) : List Fragment → List Selection → List Fragment → Prop
  | nil (met : List Fragment) : Meets defined met [] met
  | leaf {met after : List Fragment} {field : Field} {rest : List Selection}
      (later : Meets defined met rest after) : Meets defined met (.leaf field :: rest) after
  | composite {met between after : List Fragment} {field : Field} {typeName : String}
      {selections rest : List Selection} (inside : Meets defined met selections between)
      (later : Meets defined between rest after) :
      Meets defined met (.composite field typeName selections :: rest) after
  | inlineFragment {met between after : List Fragment} {condition typeName : String}
      {selections rest : List Selection} (inside : Meets defined met selections between)
      (later : Meets defined between rest after) :
      Meets defined met (.inlineFragment condition typeName selections :: rest) after
  | again {met after : List Fragment} {serial : Nat} {name condition typeName : String}
      {selections rest : List Selection} (known : name ∈ met.map (·.name))
      (later : Meets defined met rest after) :
      Meets defined met (.spread serial name condition typeName selections :: rest) after
  | first {met between after : List Fragment} {serial : Nat} {name condition typeName : String}
      {selections rest : List Selection} {definition : Fragment} (new : name ∉ met.map (·.name))
      (listed : definition ∈ defined) (named : definition.name = name)
      (body : Meets defined (met ++ [definition]) definition.set.selections between)
      (later : Meets defined between rest after) :
      Meets defined met (.spread serial name condition typeName selections :: rest) after

variable {defined : List Fragment}

/-- With one definition for each name there is one way to read. -/
theorem Meets.unique {met after after' : List Fragment} {selections : List Selection}
    (hn : (defined.map (·.name)).Nodup) (h : Meets defined met selections after)
    (h' : Meets defined met selections after') : after = after' := by
  induction h generalizing after' with
  | nil met =>
    cases h'
    rfl
  | leaf later ih =>
    cases h' with
    | leaf later' => exact ih later'
  | composite inside later ihInside ih =>
    cases h' with
    | composite inside' later' =>
      obtain rfl := ihInside inside'
      exact ih later'
  | inlineFragment inside later ihInside ih =>
    cases h' with
    | inlineFragment inside' later' =>
      obtain rfl := ihInside inside'
      exact ih later'
  | again known later ih =>
    cases h' with
    | again _ later' => exact ih later'
    | first new => exact absurd known new
  | first new listed named body later ihBody ih =>
    cases h' with
    | again known => exact absurd known new
    | first _ listed' named' body' later' =>
      -- the name has one definition, so both readers look into the same body
      obtain rfl := List.inj_on_of_nodup_map hn listed listed' (named.trans named'.symm)
      obtain rfl := ihBody body'
      exact ih later'

theorem mem_addFragmentsOfAll_snoc (found : List Fragment) (fragment : Fragment)
    (selections : List Selection) : fragment ∈ addFragmentsOfAll (found ++ [fragment]) selections :=
  (gathers_addFragmentsOfAll selections _).kept (List.mem_append_right found List.mem_cons_self)

mutual
/-- Gathering goes through a selection as a reader does who has the gathered fragments. -/
theorem meets_addFragments {selection : Selection} {found after : List Fragment}
    {rest : List Selection} (hd : selection.addFragments found ⊆ defined)
    (hrest : Meets defined (selection.addFragments found) rest after) :
    Meets defined found (selection :: rest) after := by
  cases selection with
  | leaf field => exact .leaf hrest
  | composite field typeName selections =>
    unfold addFragments at hd hrest
    exact .composite (meets_addFragmentsOfAll hd) hrest
  | inlineFragment condition typeName selections =>
    unfold addFragments at hd hrest
    exact .inlineFragment (meets_addFragmentsOfAll hd) hrest
  | spread serial name condition typeName selections =>
    unfold addFragments at hd hrest
    by_cases hf : found.any (·.name == name) = true
    · rw [if_pos hf] at hrest
      exact .again (by simpa using hf) hrest
    · -- the body is gathered before what stands behind the spread
      rw [if_neg hf] at hd hrest
      exact .first (by simpa using hf) (hd (mem_addFragmentsOfAll_snoc found _ selections)) rfl
        (meets_addFragmentsOfAll hd) hrest

theorem meets_addFragmentsOfAll {selections : List Selection} {found : List Fragment}
    (hd : addFragmentsOfAll found selections ⊆ defined) :
    Meets defined found selections (addFragmentsOfAll found selections) := by
  cases selections with
  | nil => exact .nil found
  | cons selection rest =>
    unfold addFragmentsOfAll at hd ⊢
    have hkept := (gathers_addFragmentsOfAll rest (selection.addFragments found)).kept
    exact meets_addFragments (fun _ hf => hd (hkept hf)) (meets_addFragmentsOfAll hd)
end

mutual
/-- What passes from a gathered fragment to those that its body spreads holds of all that are gathered
if it holds of those that are spread outside of bodies. -/
theorem forall_addFragments {P : Fragment → Prop} {selection : Selection} {found : List Fragment}
    (hbody : ∀ f ∈ defined, P f → ∀ s ∈ spreadFragmentsOfAll f.set.selections, s ∈ defined → P s)
    (hs : ∀ s ∈ selection.spreadFragments, s ∈ defined → P s)
    (hd : selection.addFragments found ⊆ defined) (hf : ∀ f ∈ found, P f) :
    ∀ f ∈ selection.addFragments found, P f := by
  cases selection with
  | leaf field => exact hf
  | composite field typeName selections => exact forall_addFragmentsOfAll hbody hs hd hf
  | inlineFragment condition typeName selections => exact forall_addFragmentsOfAll hbody hs hd hf
  | spread serial name condition typeName selections =>
    unfold addFragments at hd ⊢
    by_cases hany : found.any (·.name == name) = true
    · rwa [if_pos hany]
    · rw [if_neg hany] at hd ⊢
      have hlisted := hd (mem_addFragmentsOfAll_snoc found _ selections)
      have hfirst := hs _ List.mem_cons_self hlisted
      refine forall_addFragmentsOfAll hbody (hbody _ hlisted hfirst) hd ?_
      rw [List.forall_mem_append, List.forall_mem_singleton]
      exact ⟨hf, hfirst⟩

theorem forall_addFragmentsOfAll {P : Fragment → Prop} {selections : List Selection}
    {found : List Fragment}
    (hbody : ∀ f ∈ defined, P f → ∀ s ∈ spreadFragmentsOfAll f.set.selections, s ∈ defined → P s)
    (hs : ∀ s ∈ spreadFragmentsOfAll selections, s ∈ defined → P s)
    (hd : addFragmentsOfAll found selections ⊆ defined) (hf : ∀ f ∈ found, P f) :
    ∀ f ∈ addFragmentsOfAll found selections, P f := by
  cases selections with
  | nil => exact hf
  | cons selection rest =>
    unfold spreadFragmentsOfAll at hs
    unfold addFragmentsOfAll at hd ⊢
    rw [List.forall_mem_append] at hs
    have hkept := (gathers_addFragmentsOfAll rest (selection.addFragments found)).kept
    exact forall_addFragmentsOfAll hbody hs.2 hd
      (forall_addFragments hbody hs.1 (fun _ hf => hd (hkept hf)) hf)
end

end Selection

namespace Operation

/-- A fragment that was gathered where the operation itself spreads it, or in the body of such a one. -/
inductive Reaches (operation : Operation) : Fragment → Prop
  | spread {fragment : Fragment} (listed : fragment ∈ operation.fragments)
      (spread : fragment ∈ Selection.spreadFragmentsOfAll operation.set.selections) :
      Reaches operation fragment
  | body {fragment used : Fragment} (reached : Reaches operation fragment)
      (listed : used ∈ operation.fragments)
      (spread : used ∈ Selection.spreadFragmentsOfAll fragment.set.selections) :
      Reaches operation used

/-- The names that the text of the operation spreads, in the operation and in the definitions behind
it. -/
def spreadNames (operation : Operation) : List String :=
  ((operation.set :: operation.fragments.map (·.set)).flatMap fun set =>
    Selection.spreadFragmentsOfAll set.selections).map (·.name)

/-- The definitions behind an operation are all that its text needs, each once and in the order of
first use. -/
structure SelfContained (operation : Operation) : Prop where
  distinct : (operation.fragments.map (·.name)).Nodup
  found : ∀ name ∈ operation.spreadNames,
    ∃ fragment, operation.fragments.filter (·.name == name) = [fragment]
  reached : ∀ fragment ∈ operation.fragments, operation.Reaches fragment
  ordered : ∀ met, Selection.Meets operation.fragments [] operation.set.selections met ↔
    met = operation.fragments

variable {operation : Operation}

theorem Reaches.name_mem {fragment : Fragment} (h : operation.Reaches fragment) :
    fragment.name ∈ operation.spreadNames := by
  cases h with
  | spread listed spread =>
    exact List.mem_map_of_mem (List.mem_flatMap.2 ⟨_, List.mem_cons_self, spread⟩)
  | @body above _ reached listed spread =>
    have habove : above ∈ operation.fragments := by
      cases reached <;> assumption
    exact List.mem_map_of_mem
      (List.mem_flatMap.2 ⟨_, List.mem_cons_of_mem _ (List.mem_map_of_mem habove), spread⟩)

theorem mem_names_of_mem_spreadNames {name : String} (h : name ∈ operation.spreadNames) :
    name ∈ operation.fragments.map (·.name) := by
  obtain ⟨s, hs, rfl⟩ := List.mem_map.1 h
  obtain ⟨set, hset, hs⟩ := List.mem_flatMap.1 hs
  rcases List.mem_cons.1 hset with rfl | hset
  · exact operation.gathers_fragments.known s hs
  · obtain ⟨f, hf, rfl⟩ := List.mem_map.1 hset
    rcases operation.gathers_fragments.added f hf with hnone | hadded
    · cases hnone
    · exact hadded.2 s hs

theorem selfContained (operation : Operation) : operation.SelfContained := by
  have hn := operation.nodup_fragments
  have hreached : ∀ fragment ∈ operation.fragments, operation.Reaches fragment :=
    Selection.forall_addFragmentsOfAll (fun _ _ hf _ hs listed => .body hf listed hs)
      (fun _ hs listed => .spread listed hs) (fun _ h => h) (fun _ h => absurd h List.not_mem_nil)
  have hmeets : Selection.Meets operation.fragments [] operation.set.selections
      operation.fragments := Selection.meets_addFragmentsOfAll fun _ h => h
  constructor
  · exact hn
  · intro name hname
    obtain ⟨f, hf, rfl⟩ := List.mem_map.1 (mem_names_of_mem_spreadNames hname)
    exact ⟨f, DocumentDraft.filter_name_eq hn hf⟩
  · exact hreached
  · exact fun met => ⟨fun h => h.unique hn hmeets, fun h => h ▸ hmeets⟩

/-- A name is defined once if the text spreads it, and else not at all. -/
theorem SelfContained.count_name (h : operation.SelfContained) (name : String) :
    (operation.fragments.map (·.name)).count name =
      if name ∈ operation.spreadNames then 1 else 0 := by
  by_cases hname : name ∈ operation.spreadNames
  · rw [if_pos hname]
    exact List.count_eq_one_of_mem h.distinct (mem_names_of_mem_spreadNames hname)
  · rw [if_neg hname, List.count_eq_zero]
    rintro hmem
    obtain ⟨f, hf, rfl⟩ := List.mem_map.1 hmem
    exact hname (h.reached f hf).name_mem

end Operation

namespace DocumentDraft

/-- A new document takes any operation, with the fragments that were gathered from it. -/
theorem addOperation_empty (bundle : Bundle) (operation : Operation) :
    (empty bundle).addOperation operation = (.ok (), ⟨bundle, [operation], operation.fragments⟩) := by
  have hname : (empty bundle).nameError? operation.name = none := by
    cases h : operation.name <;> rfl
  have hverdict : (empty bundle).verdict operation.fragments = .ok () := by
    have hnone : operation.fragments.find? (empty bundle).refuses = none :=
      List.find?_eq_none.2 fun _ _ h => Bool.noConfusion h
    rw [verdict, hnone]
  have htaken : (empty bundle).taken operation.fragments = operation.fragments := by
    have hrefuses : ∀ f ∈ operation.fragments, (!(empty bundle).refuses f) = true := fun _ _ => rfl
    rw [taken, List.takeWhile_eq_self_iff.2 hrefuses]
    exact List.filter_eq_self.2 fun _ _ => rfl
  rw [addOperation, hname, addFragments_eq, hverdict, htaken]
  rfl

end DocumentDraft

/-! ## Spreads in the text -/

/-- Spreads of the names stand in the text, one behind the other. The name of a spread ends at a space. -/
inductive WritesSpreads : List String → List Char → Prop
  | nil (text : List Char) : WritesSpreads [] text
  | cons (before : List Char) {name : String} {names : List String} {rest : List Char}
      (later : WritesSpreads names (' ' :: rest)) :
      WritesSpreads (name :: names) (before ++ '.' :: '.' :: '.' :: (name.toList ++ ' ' :: rest))

theorem WritesSpreads.behind {names : List String} {text : List Char} (h : WritesSpreads names text)
    (before : List Char) : WritesSpreads names (before ++ text) := by
  cases h with
  | nil => exact .nil _
  | cons between later =>
    rw [← List.append_assoc]
    exact .cons (before ++ between) later

namespace Selection

theorem exists_listChars (selections : List Selection) (rest : List Char) :
    ∃ more, listChars selections ++ ' ' :: rest = ' ' :: more := by
  cases selections with
  | nil => exact ⟨rest, by rw [listChars_nil, List.nil_append]⟩
  | cons selection others => exact ⟨_, listChars_cons selection others _⟩

mutual
/-- The body of a fragment is written where the fragment is defined, and not where it is spread. -/
theorem writesSpreads_chars (selection : Selection) {names : List String} {rest : List Char}
    (h : WritesSpreads names (' ' :: rest)) :
    WritesSpreads (selection.spreadFragments.map (·.name) ++ names)
      (selection.chars ++ ' ' :: rest) := by
  cases selection with
  | leaf field => exact h.behind _
  | composite field typeName selections =>
    rw [chars_composite]
    have hinside := writesSpreads_listChars selections (h.behind [' ', '\x7d'])
    exact (hinside.behind [' ', '\x7b']).behind field.chars
  | inlineFragment condition typeName selections =>
    rw [chars_inlineFragment]
    have hinside := writesSpreads_listChars selections (h.behind [' ', '\x7d'])
    exact ((hinside.behind [' ', '\x7b']).behind condition.toList).behind
      ['.', '.', '.', ' ', 'o', 'n', ' ']
  | spread serial name condition typeName selections =>
    rw [chars_spread]
    exact .cons [] h

theorem writesSpreads_listChars (selections : List Selection) {names : List String}
    {rest : List Char} (h : WritesSpreads names (' ' :: rest)) :
    WritesSpreads ((spreadFragmentsOfAll selections).map (·.name) ++ names)
      (listChars selections ++ ' ' :: rest) := by
  cases selections with
  | nil =>
    rw [listChars_nil]
    exact h
  | cons selection others =>
    obtain ⟨more, hmore⟩ := exists_listChars others rest
    have hothers := writesSpreads_listChars others h
    rw [hmore] at hothers
    rw [listChars_cons, hmore, spreadFragmentsOfAll, List.map_append, List.append_assoc]
    exact (writesSpreads_chars selection hothers).behind [' ']
end

end Selection

/-- The text of a set writes its spreads. -/
theorem SelectionSet.writesSpreads_text (set : SelectionSet) {names : List String}
    {rest : List Char} (h : WritesSpreads names rest) :
    WritesSpreads ((Selection.spreadFragmentsOfAll set.selections).map (·.name) ++ names)
      (set.text.toList ++ rest) := by
  rw [text, Selection.setText_append]
  exact (Selection.writesSpreads_listChars set.selections (h.behind [' ', '\x7d'])).behind ['\x7b']

theorem Fragment.writesSpreads_chars (fragments : List Fragment) :
    WritesSpreads ((fragments.flatMap fun fragment =>
      Selection.spreadFragmentsOfAll fragment.set.selections).map (·.name))
      (fragments.flatMap chars) := by
  induction fragments with
  | nil => exact .nil _
  | cons fragment others ih =>
    have htext := ((fragment.set.writesSpreads_text ih).behind
      (fragment.condition.toList ++ [' '])).behind
        ("\nfragment ".toList ++ fragment.name.toList ++ " on ".toList)
    rw [List.flatMap_cons, List.flatMap_cons, List.map_append, chars_append]
    simpa [SelectionSet.text] using htext

/-- The text of an operation writes the spreads of the operation, and then those of the definitions in
their order. -/
theorem Operation.writesSpreads_text (operation : Operation) (context : Option Directive) :
    WritesSpreads operation.spreadNames (operation.text context).toList := by
  have htext := (operation.set.writesSpreads_text
    (Fragment.writesSpreads_chars operation.fragments)).behind
      (operation.headText ++ directivesText (operation.directives ++ context.toList) ++ " ").toList
  rw [text_toList_append, definitionText, String.toList_append, List.append_assoc, spreadNames,
    List.flatMap_cons, List.map_append, List.flatMap_map]
  exact htext

/-- Every operation stands on its own: its fragments have different names, every spread in it or in one
of them has one of them, each is reached from the operation, and they stand in the order of first use.
So its text, in which these spreads are written, defines what it spreads and nothing else, and a new
document that is given the operation has the same text. -/
theorem Operation.text_self_contained (operation : Operation) :
    operation.SelfContained ∧
    (∀ context, operation.text context = "\n".intercalate
      (operation.definitionText context :: operation.fragments.map fun fragment =>
        "fragment " ++ fragment.name ++ " on " ++ fragment.condition ++ " " ++ fragment.set.text)) ∧
    (∀ context, WritesSpreads operation.spreadNames (operation.text context).toList) ∧
    (∀ name, (operation.fragments.map (·.name)).count name =
      if name ∈ operation.spreadNames then 1 else 0) ∧
    ∀ bundle, ∃ after,
      (DocumentDraft.empty bundle).addOperation operation = (.ok (), after) ∧
      after.document = ⟨[operation], operation.fragments⟩ ∧
      ∀ context, after.document.text context = operation.text context := by
  refine ⟨operation.selfContained, fun _ => rfl, operation.writesSpreads_text,
    operation.selfContained.count_name, ?_⟩
  intro bundle
  exact ⟨_, DocumentDraft.addOperation_empty bundle operation, rfl, fun _ => rfl⟩

/-- Of two meanings of a name the first is defined. -/
example : (shopListing [.ofFragment shopCard, .ofFragment otherLabel]).fragments =
    [shopCard, shopLabel] := rfl

end GraphQLClient
