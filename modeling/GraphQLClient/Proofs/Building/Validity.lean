import GraphQLClient.Proofs.Building.Outcomes

set_option autoImplicit false

/-!
# Built operations are valid

An operation is valid against a bundle when all that it declares, selects and spreads is known
there and fits, at every depth. Whatever program an operation was built with, and whichever errors of
its steps were passed over, the operation that comes out is valid.
-/

namespace GraphQLClient

namespace Selection

def spreadName? : Selection → Option String
  | .spread _ name _ _ _ => some name
  | _ => none

/-- No two fields answer to one key, and no fragment is spread twice. -/
def Distinct (selections : List Selection) : Prop :=
  (selections.filterMap key?).Nodup ∧ (selections.filterMap spreadName?).Nodup

end Selection

/-- A set names the type of its scope, selects something, and nothing twice. -/
def SelectionSet.Proper (scope : Scope) (set : SelectionSet) : Prop :=
  set.typeName = scope.type.name ∧ set.selections ≠ [] ∧ Selection.Distinct set.selections

namespace Selection

mutual
/-- The selection and all below it are valid in the scope. The body of a fragment must be valid
without any variables. -/
def ValidOn (scope : Scope) : Selection → Prop
  | .leaf field => scope.OffersLeaf field.name field.arguments
  | .composite field typeName selections =>
    ∃ type, scope.OffersObject field.name field.arguments type ∧
      SelectionSet.Proper (scope.within type) ⟨typeName, selections⟩ ∧
      AllValidOn (scope.within type) selections
  | .inlineFragment condition typeName selections =>
    ∃ target, scope.Admits condition target ∧
      SelectionSet.Proper (scope.within target) ⟨typeName, selections⟩ ∧
      AllValidOn (scope.within target) selections
  | .spread _ _ condition typeName selections =>
    ∃ target, scope.Admits condition target ∧
      SelectionSet.Proper ⟨scope.bundle, [], target⟩ ⟨typeName, selections⟩ ∧
      AllValidOn ⟨scope.bundle, [], target⟩ selections

def AllValidOn (scope : Scope) : List Selection → Prop
  | [] => True
  | selection :: rest => ValidOn scope selection ∧ AllValidOn scope rest
end

end Selection

def SelectionSet.ValidOn (scope : Scope) (set : SelectionSet) : Prop :=
  set.Proper scope ∧ Selection.AllValidOn scope set.selections

def Fragment.ValidOver (bundle : Bundle) (fragment : Fragment) : Prop :=
  ∃ target, bundle.get? fragment.condition = some target ∧ target.isComposite = true ∧
    fragment.set.ValidOn ⟨bundle, [], target⟩

structure Operation.Valid (bundle : Bundle) (operation : Operation) : Prop where
  declares : bundle.Declares operation.declarations
  directives : ∀ used ∈ operation.directiveUses,
    ∃ definition ∈ operation.declarations, definition.name = used
  root : ∃ root, OperationDraft.root? bundle operation.kind = .ok root ∧
    operation.set.ValidOn ⟨bundle, operation.declarations, root⟩

namespace Selection

variable {scope : Scope} {before : List Selection}

theorem not_mem_keys_of_find?_eq_none {key : String} (h : before.find? (answers key) = none) :
    key ∉ before.filterMap key? := by
  intro hk
  obtain ⟨selection, hs, hkey⟩ := List.mem_filterMap.1 hk
  exact List.find?_eq_none.1 h selection hs (answers_iff_key?.2 hkey)

theorem not_mem_spreadNames_of_any_eq_false {name : String}
    (h : before.any (Scope.spreads name) = false) : name ∉ before.filterMap spreadName? := by
  intro hn
  obtain ⟨selection, hs, hname⟩ := List.mem_filterMap.1 hn
  have ha := List.any_eq_false.1 h selection hs
  cases selection <;> simp_all [spreadName?, Scope.spreads]

theorem allValidOn_append {after : List Selection} :
    AllValidOn scope (before ++ after) ↔ AllValidOn scope before ∧ AllValidOn scope after := by
  induction before with
  | nil => simp [AllValidOn]
  | cons selection rest ih =>
    simp only [List.cons_append, AllValidOn, ih, and_assoc]

theorem allValidOn_iff : AllValidOn scope before ↔ ∀ selection ∈ before, selection.ValidOn scope := by
  induction before with
  | nil => simp [AllValidOn]
  | cons selection rest ih => simp [AllValidOn, ih]

theorem allValidOn_singleton {selection : Selection} :
    AllValidOn scope [selection] ↔ ValidOn scope selection := by
  simp [AllValidOn]

theorem nodup_filterMap_concat {β : Type} {f : Selection → Option β} {selection : Selection}
    (h : (before.filterMap f).Nodup) (hf : ∀ b, f selection = some b → b ∉ before.filterMap f) :
    ((before ++ [selection]).filterMap f).Nodup := by
  rw [List.filterMap_append, List.nodup_append]
  refine ⟨h, ?_, ?_⟩
  · cases hs : f selection <;> simp [hs]
  · intro a ha b hb hab
    have hs : f selection = some b := by simpa using hb
    exact hf b hs (hab ▸ ha)

/-- A selection may be added that brings neither a known key nor a known fragment name. -/
theorem Distinct.append {selection : Selection} (h : Distinct before)
    (hk : ∀ key, selection.key? = some key → key ∉ before.filterMap key?)
    (hn : ∀ name, selection.spreadName? = some name → name ∉ before.filterMap spreadName?) :
    Distinct (before ++ [selection]) :=
  ⟨nodup_filterMap_concat h.1 hk, nodup_filterMap_concat h.2 hn⟩

end Selection

namespace Grown

variable {raw : Prop} {scope : Scope} {selections : List Selection}

/-- No two fields in a grown set answer to one key, and no fragment is spread twice. -/
theorem distinct {shared : Fragment → Prop} (h : Grown raw shared scope selections) :
    Selection.Distinct selections := by
  induction h with
  | nil => exact ⟨List.nodup_nil, List.nodup_nil⟩
  | leaf grown plain offered free ih =>
    refine ih.append ?_ (by rintro _ ⟨⟩)
    rintro key ⟨⟩
    exact Selection.not_mem_keys_of_find?_eq_none free
  | composite grown offered below nonempty furnished free ih =>
    refine ih.append ?_ (by rintro _ ⟨⟩)
    rintro key ⟨⟩
    exact Selection.not_mem_keys_of_find?_eq_none free
  | inlineFragment grown admitted below nonempty ih =>
    exact ih.append (by rintro _ ⟨⟩) (by rintro _ ⟨⟩)
  | spread grown admitted known free ih =>
    refine ih.append (by rintro _ ⟨⟩) ?_
    rintro name ⟨⟩
    exact Selection.not_mem_spreadNames_of_any_eq_false free

/-- Grown sets are valid, as long as the fragments spread in them are. -/
theorem validOn {bundle : Bundle} (h : Grown raw (Fragment.ValidOver bundle) scope selections)
    (hb : scope.bundle = bundle) : Selection.AllValidOn scope selections := by
  induction h with
  | nil => trivial
  | leaf grown plain offered free ih =>
    rw [Selection.allValidOn_append, Selection.allValidOn_singleton]
    unfold Selection.ValidOn
    exact ⟨ih hb, offered⟩
  | composite grown offered below nonempty furnished free ih ihBelow =>
    rw [Selection.allValidOn_append, Selection.allValidOn_singleton]
    unfold Selection.ValidOn
    exact ⟨ih hb, _, offered, ⟨rfl, nonempty, below.distinct⟩, ihBelow hb⟩
  | inlineFragment grown admitted below nonempty ih ihBelow =>
    rw [Selection.allValidOn_append, Selection.allValidOn_singleton]
    unfold Selection.ValidOn
    exact ⟨ih hb, _, admitted.name, ⟨rfl, nonempty, below.distinct⟩, ihBelow hb⟩
  | spread grown admitted known free ih =>
    rw [Selection.allValidOn_append, Selection.allValidOn_singleton]
    obtain ⟨target, ht, hc, hset⟩ := known
    obtain rfl := Option.some.inj (ht.symm.trans (hb ▸ admitted.1))
    subst hb
    exact ⟨ih rfl, _, admitted, hset⟩

end Grown

theorem Fragment.validOver_of_definedOver {bundle : Bundle} {fragment : Fragment}
    (h : fragment.DefinedOver bundle) : fragment.ValidOver bundle := by
  induction h with
  | intro document serial draft same _ defined ih =>
    obtain ⟨target, set, ht, hc, -, hset, rfl⟩ := DocumentDraft.buildFragment_eq_ok defined
    subst same
    obtain ⟨hname, hne, -, hgrown, -⟩ :=
      OperationDraft.grown_of_buildSet True ih (.inl trivial) hset
    exact ⟨target, by rw [← ht, Bundle.get?_name ht], hc, ⟨hname, hne, hgrown.distinct⟩,
      hgrown.validOn rfl⟩

namespace OperationDraft

variable {bundle : Bundle} {draft : OperationDraft}

/-- With valid fragments a draft makes a valid operation. -/
theorem valid_of_validOver {operation : Operation}
    (hf : ∀ fragment ∈ Step.fragmentsOfAll draft.program, fragment.ValidOver bundle)
    (h : (draft.build bundle).result = .ok operation) : operation.Valid bundle := by
  obtain ⟨scope, set, hscope, hset, rfl⟩ := build_eq_ok h
  obtain ⟨hroot, hdeclared, hdirectives, rfl⟩ := scope_eq_ok hscope
  obtain ⟨hname, hne, -, hgrown, -⟩ := grown_of_buildSet True hf (.inl trivial) hset
  refine ⟨VariableDraft.declares_of_resolveAll hdeclared, ?_, scope.type, hroot,
    ⟨hname, hne, hgrown.distinct⟩, hgrown.validOn rfl⟩
  intro used hu
  have hany := undeclaredInDirectives?_eq_none_iff.1 hdirectives used hu
  simpa using hany

/-- Whatever a draft asks for, an operation that was built from it is valid. -/
theorem valid_of_build {operation : Operation}
    (hf : ∀ fragment ∈ Step.fragmentsOfAll draft.program, fragment.DefinedOver bundle)
    (h : (draft.build bundle).result = .ok operation) : operation.Valid bundle := by
  have hvalid : ∀ fragment ∈ Step.fragmentsOfAll draft.program, fragment.ValidOver bundle :=
    fun fragment hm => Fragment.validOver_of_definedOver (hf fragment hm)
  exact valid_of_validOver hvalid h

end OperationDraft

/-- A shop with products, which come in pages. -/
def sampleBundle : Bundle :=
  let field (name : String) (type : TypeRef) (arguments : List (String × TypeRef)) :=
    FieldDescriptor.mk name type arguments
  let object (name : String) (node : Bool) (fields : List FieldDescriptor) :=
    TypeDescriptor.mk name .object fields [] node []
  let query := object "Query" false
    [field "shop" (.nonNull (.named "Shop")) [],
     field "node" (.named "Node") [("id", .nonNull (.named "ID"))]]
  let page := [("first", TypeRef.named "Int"), ("after", .named "String")]
  ⟨query, none,
    ["ID", "String", "Int", "Boolean"].map (TypeDescriptor.ofKind · .scalar) ++
    [query,
     ⟨"Node", .interface, [field "id" (.nonNull (.named "ID")) []], ["Shop", "Product"], true, []⟩,
     object "Shop" true
       [field "id" (.nonNull (.named "ID")) [], field "name" (.named "String") [],
        field "products" (.nonNull (.named "ProductConnection")) page],
     object "ProductConnection" false
       [field "edges" (.list (.named "ProductEdge")) [], field "pageInfo" (.named "PageInfo") []],
     object "ProductEdge" false
       [field "cursor" (.named "String") [], field "node" (.named "Product") []],
     object "Product" true
       [field "id" (.nonNull (.named "ID")) [], field "title" (.named "String") [],
        field "handle" (.named "String") []],
     object "PageInfo" false
       [field "hasNextPage" (.named "Boolean") [], field "hasPreviousPage" (.named "Boolean") []]]⟩

def sampleFragment : Fragment :=
  ⟨0, "Title", "Product", ⟨"Product", [.leaf (.plain "id"), .leaf (.plain "title")]⟩⟩

theorem sampleFragment_definedOver : sampleFragment.DefinedOver sampleBundle :=
  .intro (.empty sampleBundle) 0 ⟨"Title", "Product", [.field "title" .none]⟩ rfl
    (by rintro _ ⟨⟩) rfl

def sampleDraft : OperationDraft :=
  ⟨.query, some "Products", [⟨"count", .ok (.named "Int"), none⟩],
    [⟨"cached", [("pages", .var "count")]⟩],
    [.object "shop" .none
      [.connection "products" ⟨none, [("first", .var "count")]⟩
        [.spread sampleFragment, .attempt (.field "price" .none)],
       .selection (.leaf ⟨"name", some "label", [], false⟩)],
     .attempt (.object "shop" .none [.field "name" .none]),
     .object "node" ⟨none, [("id", .string "p1")]⟩ [.fragmentOn "Product" [.field "handle" .none]],
     .extend ⟨"Query", [.inlineFragment "Query" "" [.composite ⟨"shop", some "again", [], false⟩ ""
       [.leaf (.plain "name"), .leaf (.plain "name")]]]⟩]⟩

theorem sampleDraft_built :
    (sampleDraft.build sampleBundle).result = .ok (sampleDraft.built sampleBundle) :=
  OperationDraft.build_eq_built (by decide +kernel)

theorem sampleDraft_definedOver :
    ∀ fragment ∈ Step.fragmentsOfAll sampleDraft.program, fragment.DefinedOver sampleBundle := by
  intro fragment hf
  obtain rfl : fragment = sampleFragment := by
    simpa [sampleDraft, Step.fragmentsOfAll, Step.fragments, Selection.spreadFragmentsOfAll,
      Selection.spreadFragments] using hf
  exact sampleFragment_definedOver

theorem valid_sampleDraft :
    (sampleDraft.build sampleBundle).result = .ok (sampleDraft.built sampleBundle) ∧
      (sampleDraft.built sampleBundle).Valid sampleBundle :=
  ⟨sampleDraft_built, OperationDraft.valid_of_build sampleDraft_definedOver sampleDraft_built⟩

end GraphQLClient
