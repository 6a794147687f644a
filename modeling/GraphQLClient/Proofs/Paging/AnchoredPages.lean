import GraphQLClient.Proofs.Paging.Fetching
import GraphQLClient.Proofs.Paging.PrunedValidity

set_option autoImplicit false

/-!
# Which pages can be asked for from an anchor

The query for the next page that starts at an object with an id selects what is kept of the object's set
on the concrete type of the object, while the set was selected on a type that the object may be of. What
was valid there need not be valid here, and selections of several occurrences need not go together.
-/

namespace GraphQLClient

/-- What an interface or union can be declares its fields, with their arguments and types. -/
def Bundle.Conforms (bundle : Bundle) : Prop :=
  ∀ name type, bundle.get? name = some type → type.isAbstract = true →
    ∀ possible ∈ type.possibleTypes, ∀ object, bundle.get? possible = some object →
      ∀ fieldName field, type.field? fieldName = some field →
        ∃ own, object.field? fieldName = some own ∧ own.typeName = field.typeName ∧
          ∀ argument, Keyed.contains argument field.arguments = true →
            Keyed.contains argument own.arguments = true

/-- Each fragment that stands directly among the selections may apply to objects of the type. -/
def Selection.Touching (bundle : Bundle) (type : TypeDescriptor) (selections : List Selection) : Prop :=
  ∀ condition typeName inner, Selection.inlineFragment condition typeName inner ∈ selections →
    ∀ target, bundle.get? condition = some target → type.overlaps target = true

namespace Scope

variable {scope : Scope} {target : TypeDescriptor}

section

variable (hc : scope.bundle.Conforms) (hs : scope.bundle.get? scope.type.name = some scope.type)
  (ht : scope.bundle.get? target.name = some target) (hcan : scope.type.canBe target.name = true)

include hc hs ht hcan

/-- A type offers what the types that can be it offer. -/
theorem Offers.of_canBe {name : String} {arguments : List (String × Value)} {type : TypeDescriptor}
    (h : scope.Offers name arguments type) : (scope.within target).Offers name arguments type := by
  rcases TypeDescriptor.canBe_iff.1 hcan with hname | ⟨habstract, hmem⟩
  · have hsame : scope.type = target := by
      rw [hname, ht] at hs
      exact (Option.some.inj hs).symm
    rw [← hsame]
    exact h
  · obtain ⟨hn, declared, hdeclared, hget, hfit⟩ := h
    obtain ⟨own, hown, htype, harguments⟩ :=
      hc _ _ hs habstract _ hmem target ht name declared hdeclared
    refine ⟨hn, own, hown, by rw [htype]; exact hget, fun argument ha => ?_⟩
    obtain ⟨hknown, hfinite, huses⟩ := hfit argument ha
    exact ⟨harguments _ hknown, hfinite, huses⟩

/-- A valid field is valid on each type that the type can be; a valid fragment is if it may apply
there. -/
theorem validOn_of_canBe {selection : Selection} (hv : selection.ValidOn scope)
    (hspread : selection.spreadName? = none) (htouch : Selection.Touching scope.bundle target [selection]) :
    selection.ValidOn (scope.within target) := by
  cases selection with
  | leaf field =>
    unfold Selection.ValidOn at hv ⊢
    refine hv.imp_right ?_
    rintro ⟨type, hoffers, hleaf⟩
    exact ⟨type, hoffers.of_canBe hc hs ht hcan, hleaf⟩
  | composite field typeName inner =>
    unfold Selection.ValidOn at hv ⊢
    obtain ⟨type, hoffers, hset⟩ := hv
    exact ⟨type, ⟨hoffers.1.of_canBe hc hs ht hcan, hoffers.2⟩, hset⟩
  | inlineFragment condition typeName inner =>
    unfold Selection.ValidOn at hv ⊢
    obtain ⟨narrowed, hadmits, hset⟩ := hv
    exact ⟨narrowed, ⟨hadmits.1, hadmits.2.1,
      htouch condition typeName inner (List.mem_singleton.2 rfl) narrowed hadmits.1⟩, hset⟩
  | spread serial name condition typeName inner => cases hspread

variable (scope) in
/-- Of selections that are valid on a type, each type that it can be accepts those whose fragments may
apply and which go together. -/
theorem accepts_of_canBe {selections : List Selection} (hv : Selection.AllValidOn scope selections)
    (hspread : ∀ selection ∈ selections, selection.spreadName? = none) :
    (scope.within target).Accepts selections ↔
      Selection.Touching scope.bundle target selections ∧ Selection.Uniform selections := by
  have hvalid : Selection.Touching scope.bundle target selections →
      Selection.AllValidOn (scope.within target) selections := by
    intro htouch
    refine Selection.allValidOn_iff.2 fun selection hm => ?_
    refine validOn_of_canBe hc hs ht hcan (Selection.allValidOn_iff.1 hv selection hm)
      (hspread selection hm) fun condition typeName inner hi => ?_
    exact htouch condition typeName inner (List.mem_singleton.1 hi ▸ hm)
  have htouching : (scope.within target).Accepts selections →
      Selection.Touching scope.bundle target selections := by
    intro haccepts condition typeName inner hi found hfound
    obtain ⟨made, hmade⟩ := haccepts.makes hi
    unfold Makes Rebuilds at hmade
    obtain ⟨narrowed, _, hadmits, -⟩ := hmade
    obtain rfl := Option.some.inj (hadmits.1.symm.trans hfound)
    exact hadmits.2.2
  constructor
  · intro haccepts
    have htouch := htouching haccepts
    exact ⟨htouch, (accepts_of_validOn (hvalid htouch)).1 haccepts⟩
  · rintro ⟨htouch, huniform⟩
    exact (accepts_of_validOn (hvalid htouch)).2 huniform

end

end Scope

namespace PageMark

variable {mark : PageMark} {anchor : NodeAnchor}

theorem nextPage_eq_fetch {kept : SelectionSet} (hu : mark.usableAnchor? = some anchor)
    (hk : anchor.set.prune (mark.path.drop anchor.depth) mark.cursor = some kept) :
    mark.nextPage = FollowUp.fetch mark.source mark.source.operation.name anchor.id anchor.typeName
      kept (nodeFieldName :: mark.path.drop anchor.depth) := by
  unfold nextPage
  simp only [hu, hk]
  rfl

theorem nextPage_eq_pathNotFound (hu : mark.usableAnchor? = some anchor)
    (hk : anchor.set.prune (mark.path.drop anchor.depth) mark.cursor = none) :
    mark.nextPage = .error (.pathNotFound mark.path) := by
  unfold nextPage
  simp only [hu, hk]

/-- Past an anchor a next page fails because the connection is not found, or with the build of the
query. -/
theorem nextPage_eq_error {error : ModelError} (hu : mark.usableAnchor? = some anchor)
    (h : mark.nextPage = .error error) :
    (error = .pathNotFound mark.path ∧
      anchor.set.prune (mark.path.drop anchor.depth) mark.cursor = none) ∨
    ∃ cause, error = .build cause := by
  cases hk : anchor.set.prune (mark.path.drop anchor.depth) mark.cursor with
  | none =>
    rw [nextPage_eq_pathNotFound hu hk] at h
    exact .inl ⟨(Except.error.inj h).symm, rfl⟩
  | some kept =>
    rw [nextPage_eq_fetch hu hk] at h
    exact .inr (FollowUp.ofDraft_eq_error h)

end PageMark

namespace Decoder

variable {decoder : Decoder} {Q : TypeDescriptor → List Part → Prop} {data : Json}
  {address : List Move} {mark : PageMark}

/-- The mark at an address says where it stands, and its anchor is an object around it. -/
theorem anchor_of_mark? (hq : ∀ spot, decoder.follow? (decoder.root data) address = some spot →
      spot.Each Q decoder)
    (hm : ((Decoded.object (decoder.decode data)).at? address).bind Decoded.mark? = some mark) :
    mark.source = decoder.source ∧
      ∀ anchor, mark.anchor = some anchor → anchor.From Q decoder mark.path := by
  obtain ⟨found, hfound, hmark⟩ := Option.bind_eq_some_iff.1 hm
  rw [at?_decode] at hfound
  obtain ⟨spot, hfollow, rfl⟩ := Option.map_eq_some_iff.1 hfound
  have heach := hq spot hfollow
  obtain ⟨hpath, hanchor, hsource⟩ := mark?_read heach hmark
  refine ⟨hsource, fun anchor ha => ?_⟩
  rw [hpath]
  exact heach.anchor anchor (hanchor ▸ ha)

variable {draft : BundleDraft} {program : OperationDraft} {nodeType : TypeDescriptor}
  {anchor : NodeAnchor}

/-- As long as the fields of all objects agree, the selections that an anchor keeps are valid on the type
that its set names. -/
theorem valid_of_anchor (hrooted : decoder.bundle.Rooted)
    (hv : decoder.source.operation.Valid decoder.bundle)
    (hagrees : decoder.Agrees (.object (decoder.decode data)))
    (hm : ((Decoded.object (decoder.decode data)).at? address).bind Decoded.mark? = some mark)
    (ha : mark.anchor = some anchor) {static : TypeDescriptor}
    (hstatic : decoder.bundle.get? anchor.set.typeName = some static) :
    Selection.AllValidOn ⟨decoder.bundle, decoder.source.operation.declarations, static⟩
      anchor.set.selections := by
  obtain ⟨-, hfrom⟩ := anchor_of_mark? (fun spot => follow?_validTogether hrooted hv hagrees) hm
  obtain ⟨-, known, parts, -, htogether, -, -, -, hset⟩ := hfrom anchor ha
  have hknown : decoder.bundle.get? anchor.set.typeName = some known := by
    rw [hset]
    exact htogether.known
  obtain rfl := Option.some.inj (hknown.symm.trans hstatic)
  rw [hset]
  exact htogether.valid

/-- With a `node` field that fetches objects by their ids, the query for the next page from an anchor is
built exactly if the connection is found again in the set of the anchor and the concrete type of the
anchor accepts what is kept of it. As long as the fields of all objects agree, types declare the fields
of their interfaces and all that may stand at the end of the keys takes a cursor, this asks only whether
the fragments that are kept may apply to the concrete type and fields of one response key are the
same. -/
theorem nextPage_anchored_eq_ok_iff (hb : draft.build = .ok decoder.bundle)
    (hi : decoder.bundle.issues = []) (hf : decoder.bundle.FetchesById nodeType)
    (hd : ∀ fragment ∈ Step.fragmentsOfAll program.program, fragment.DefinedOver decoder.bundle)
    (ho : (program.build decoder.bundle).result = .ok decoder.source.operation)
    (hm : ((Decoded.object (decoder.decode data)).at? address).bind Decoded.mark? = some mark)
    (ha : mark.anchor = some anchor) :
    ∃ static target, decoder.bundle.get? anchor.set.typeName = some static ∧
      decoder.bundle.get? anchor.typeName = some target ∧
      ((∃ next, mark.nextPage = .ok next) ↔
        decoder.bundle.Starts decoder.bundle.queryRoot ∧ decoder.bundle.Starts nodeType ∧
          ∃ kept, anchor.set.prune (mark.path.drop anchor.depth) mark.cursor = some kept ∧
            ((FollowUp.rootScope decoder.source kept).within target).Accepts kept.selections) ∧
      (decoder.Agrees (.object (decoder.decode data)) → decoder.bundle.Conforms →
        Selection.resumes decoder.bundle (mark.path.drop anchor.depth) static
          anchor.set.selections = true →
        ∀ kept, anchor.set.prune (mark.path.drop anchor.depth) mark.cursor = some kept →
          (((FollowUp.rootScope decoder.source kept).within target).Accepts kept.selections ↔
            Selection.Touching decoder.bundle target kept.selections ∧
              Selection.Uniform kept.selections)) ∧
      ∀ error, mark.nextPage = .error error →
        (error = .pathNotFound mark.path ∧
          anchor.set.prune (mark.path.drop anchor.depth) mark.cursor = none) ∨
        ∃ cause, error = .build cause := by
  have hrooted := BundleDraft.rooted_of_build hb
  obtain ⟨field, hfield, -, -⟩ := hf.declared
  obtain ⟨hsource, hanchor⟩ := anchor_of_mark? (fun spot => follow?_known hrooted ho) hm
  obtain ⟨hdepth, static, parts, entries, hknown, hnode, -, hname, hset⟩ := hanchor anchor ha
  have hstatic : decoder.bundle.get? anchor.set.typeName = some static := by
    rw [hset]
    exact hknown
  have hself : decoder.bundle.get? static.name = some static := Bundle.get?_self hstatic
  have htarget : decoder.bundle.get? (decoder.concreteType static entries).name =
      some (decoder.concreteType static entries) := get?_concreteType hself
  have husable : mark.usableAnchor? = some anchor := by
    have hbundle : mark.source.bundle.nodeField? = some field := by rw [hsource]; exact hfield
    rw [PageMark.usableAnchor?, ha, Option.filter_some, hbundle]
    simp [hdepth]
  have hprune : ∀ kept, anchor.set.prune (mark.path.drop anchor.depth) mark.cursor = some kept →
      ((∃ next, mark.nextPage = .ok next) ↔
        decoder.bundle.Starts decoder.bundle.queryRoot ∧ decoder.bundle.Starts nodeType ∧
          ((FollowUp.rootScope decoder.source kept).within
            (decoder.concreteType static entries)).Accepts kept.selections) := by
    intro kept hkept
    -- the fragment of the query is on the type of the object, not on that of the set
    have hadmits : ((FollowUp.rootScope decoder.source kept).within nodeType).Admits
        (decoder.concreteType static entries).name (decoder.concreteType static entries) :=
      hf.admits hi htarget htarget hnode (by simp [TypeDescriptor.canBe]) rfl rfl
    rw [← hname] at hadmits
    rw [PageMark.nextPage_eq_fetch husable hkept, hsource]
    exact FollowUp.fetch_eq_ok_iff (OperationDraft.declares_of_build ho) hf hadmits
      (SelectionSet.ne_nil_of_prune hkept) _ _
  refine ⟨static, decoder.concreteType static entries, hstatic, hname ▸ htarget, ?_, ?_,
    fun error => PageMark.nextPage_eq_error husable⟩
  · constructor
    · rintro ⟨next, hnext⟩
      cases hk : anchor.set.prune (mark.path.drop anchor.depth) mark.cursor with
      | none =>
        rw [PageMark.nextPage_eq_pathNotFound husable hk] at hnext
        cases hnext
      | some kept =>
        obtain ⟨hroot, hstart, haccepts⟩ := (hprune kept hk).1 ⟨next, hnext⟩
        exact ⟨hroot, hstart, kept, rfl, haccepts⟩
    · rintro ⟨hroot, hstart, kept, hk, haccepts⟩
      exact (hprune kept hk).2 ⟨hroot, hstart, haccepts⟩
  · intro hagrees hconforms hresumes kept hk
    have hoperation := OperationDraft.valid_of_validOver
      (fun fragment hm => Fragment.validOver_of_definedOver (hd fragment hm)) ho
    have hvalid := valid_of_anchor hrooted hoperation hagrees hm ha hstatic
    have hkept : Selection.AllValidOn ((FollowUp.rootScope decoder.source kept).within static)
        kept.selections :=
      FollowUp.validOn_declared (SelectionSet.allValidOn_prune hvalid hresumes hk)
    exact Scope.accepts_of_canBe ((FollowUp.rootScope decoder.source kept).within static) hconforms
      hself htarget (canBe_concreteType static entries) hkept (SelectionSet.spreadName?_prune hk)

end Decoder

theorem Keyed.exists_of_contains {α : Type} {name : String} {entries : List (String × α)}
    (h : contains name entries = true) : ∃ entry ∈ entries, entry.1 = name := by
  induction entries with
  | nil => cases h
  | cons entry rest ih =>
    by_cases hn : entry.1 = name
    · exact ⟨entry, List.mem_cons_self, hn⟩
    · obtain ⟨found, hf, hname⟩ := ih (by simpa [contains, find?, hn] using h)
      exact ⟨found, List.mem_cons_of_mem _ hf, hname⟩

/-- It is enough to look at the types that the bundle holds. -/
theorem Bundle.conforms_of_types {bundle : Bundle}
    (h : ∀ type ∈ bundle.types, type.isAbstract = true → ∀ possible ∈ type.possibleTypes,
      ∀ field ∈ type.fields, ((bundle.get? possible).all fun object =>
        (object.field? field.name).any fun own => own.typeName == field.typeName &&
          field.arguments.all fun argument => Keyed.contains argument.1 own.arguments) = true) :
    bundle.Conforms := by
  intro name type htype habstract possible hpossible object hobject fieldName field hfield
  have hname : field.name = fieldName := by simpa using List.find?_some hfield
  have hown := h type (List.mem_of_find?_eq_some htype) habstract possible hpossible field
    (List.mem_of_find?_eq_some hfield)
  rw [hobject, Option.all_some, hname, Option.any_eq_true] at hown
  obtain ⟨own, hown, hmatch⟩ := hown
  rw [Bool.and_eq_true, beq_iff_eq, List.all_eq_true] at hmatch
  refine ⟨own, hown, hmatch.1, fun argument hargument => ?_⟩
  obtain ⟨entry, hentry, rfl⟩ := Keyed.exists_of_contains hargument
  exact hmatch.2 entry hentry

theorem sampleBundle_conforms : sampleBundle.Conforms :=
  Bundle.conforms_of_types (by decide +kernel)

/-- The next page of the shop's products is asked for from the shop, and its field takes a cursor. -/
def pagedAnchored : Bool :=
  match ((Decoded.object (pagedDecoder.decode pagedData)).at?
    [.key "shop", .key "products"]).bind Decoded.mark? with
  | some mark =>
    match mark.anchor, mark.nextPage with
    | some anchor, .ok _ => (sampleBundle.get? anchor.set.typeName).any fun static =>
        Selection.resumes sampleBundle (mark.path.drop anchor.depth) static anchor.set.selections
    | _, _ => false
  | none => false

theorem paged_anchored :
    ∃ mark anchor next kept,
      ((Decoded.object (pagedDecoder.decode pagedData)).at?
        [.key "shop", .key "products"]).bind Decoded.mark? = some mark ∧
      mark.anchor = some anchor ∧ mark.nextPage = .ok next ∧
      anchor.set.prune (mark.path.drop anchor.depth) mark.cursor = some kept ∧
      Selection.Uniform kept.selections := by
  have h : pagedAnchored = true := by decide +kernel
  unfold pagedAnchored at h
  split at h
  · rename_i mark hmark
    split at h
    · rename_i anchor next hanchor hnext
      obtain ⟨nodeType, hfetches⟩ := sampleBundle_fetchesById
      have hdefined : ∀ fragment ∈ Step.fragmentsOfAll pagedDraft.program,
          fragment.DefinedOver sampleBundle := fun fragment hf => (paged_guidedOver fragment hf).definedOver
      obtain ⟨static, target, hstatic, -, hiff, haccepts, -⟩ :=
        @Decoder.nextPage_anchored_eq_ok_iff pagedDecoder pagedData _ mark _ pagedDraft nodeType anchor
          sampleBundle_build (by decide +kernel) hfetches hdefined paged_built hmark hanchor
      obtain ⟨static', hstatic', hresumes⟩ := (Option.any_eq_true _ _).1 h
      obtain rfl : static' = static := Option.some.inj (hstatic'.symm.trans hstatic)
      obtain ⟨-, -, kept, hkept, hmakes⟩ := hiff.1 ⟨next, hnext⟩
      have hagrees : pagedDecoder.Agrees (.object (pagedDecoder.decode pagedData)) :=
        Decoder.agrees_of_agreesOn (by decide +kernel)
      exact ⟨mark, anchor, next, kept, hmark, hanchor, hnext, hkept,
        ((haccepts hagrees sampleBundle_conforms hresumes kept hkept).1 hmakes).2⟩
    · cases h
  · cases h

/-- What is found in a search may be a product or a collection, and each has a list of the other. -/
def searchBundle : Bundle :=
  let field (name typeName : String) := FieldDescriptor.mk name (.named typeName) []
  let paged (name typeName : String) :=
    FieldDescriptor.mk name (.named typeName) [("after", .named "String")]
  let object (name : String) (node : Bool) (fields : List FieldDescriptor) :=
    TypeDescriptor.mk name .object fields [] node []
  let query := object "Query" false
    [field "found" "Found", ⟨"node", .named "Node", [("id", .nonNull (.named "ID"))]⟩]
  ⟨query, none,
    ["ID", "String", "Boolean"].map (TypeDescriptor.ofKind · .scalar) ++
    [query, ⟨"Node", .interface, [field "id" "ID"], ["Product", "Collection"], true, []⟩,
     ⟨"Found", .union, [], ["Product", "Collection"], false, []⟩,
     object "Product" true [field "id" "ID", paged "collections" "Collections"],
     object "Collection" true [field "id" "ID", paged "products" "Products"],
     object "Collections" false [field "edges" "CollectionEdge", field "pageInfo" "PageInfo"],
     object "CollectionEdge" false [field "cursor" "String", field "node" "Collection"],
     object "Products" false [field "edges" "ProductEdge", field "pageInfo" "PageInfo"],
     object "ProductEdge" false [field "cursor" "String", field "node" "Product"],
     object "PageInfo" false [field "hasNextPage" "Boolean", field "hasPreviousPage" "Boolean"]]⟩

def searchDraft : OperationDraft :=
  .ofProgram .query
    [.object "found" .none
      [.fragmentOn "Product" [.connection "collections" ⟨some "items", []⟩ [.field "id" .none]],
       .fragmentOn "Collection" [.connection "products" ⟨some "items", []⟩ [.field "id" .none]]]]

abbrev searchDecoder : Decoder := ⟨⟨searchBundle, searchDraft.built searchBundle, []⟩, none⟩

def searchData : Json :=
  .obj [("found", .obj [("__typename", .str "Product"), ("id", .str "p1"), ("items", .obj
    [("edges", .arr [.obj [("cursor", .str "c1"), ("node", .obj [("id", .str "k1")])]]),
     ("pageInfo", .obj [("hasNextPage", .bool true), ("hasPreviousPage", .bool false)])])])]

/-- The fragment for collections is kept for the product, where it may not stand. -/
def searchRefused : Bool :=
  match ((Decoded.object (searchDecoder.decode searchData)).at?
    [.key "found", .key "items"]).bind Decoded.mark? with
  | some mark =>
    match mark.nextPage with
    | .error error => mark.anchor.isSome &&
        decide (error = .build (.invalidFragmentType "Product" "Collection"))
    | .ok _ => false
  | none => false

/-- The next page of a product's collections cannot be asked for. -/
theorem search_page_refused :
    (⟨some "Query", none, searchBundle.types⟩ : BundleDraft).build = .ok searchBundle ∧
    searchBundle.issues = [] ∧ (∃ nodeType, searchBundle.FetchesById nodeType) ∧
    searchBundle.Conforms ∧
    (∀ type ∈ searchBundle.types, ∀ field ∈ type.fields,
      ((searchBundle.get? field.typeName).any fun below => (below.field? "edges").isSome) = true →
        Keyed.contains cursorArgument field.arguments = true) ∧
    (searchDraft.build searchBundle).result = .ok searchDecoder.source.operation ∧
    ∃ mark anchor,
      ((Decoded.object (searchDecoder.decode searchData)).at?
        [.key "found", .key "items"]).bind Decoded.mark? = some mark ∧
      mark.anchor = some anchor ∧
      mark.nextPage = .error (.build (.invalidFragmentType "Product" "Collection")) := by
  refine ⟨rfl, by decide +kernel,
    ⟨_, Bundle.fetchesById_of_types ⟨_, rfl, rfl, rfl⟩ rfl (by decide +kernel)⟩,
    Bundle.conforms_of_types (by decide +kernel), by decide +kernel,
    OperationDraft.build_eq_built (by decide +kernel), ?_⟩
  have h : searchRefused = true := by decide +kernel
  unfold searchRefused at h
  split at h
  · rename_i mark hmark
    split at h
    · rename_i error herror
      rw [Bool.and_eq_true, decide_eq_true_eq, Option.isSome_iff_exists] at h
      obtain ⟨⟨anchor, hanchor⟩, rfl⟩ := h
      exact ⟨mark, anchor, hmark, hanchor, herror⟩
    · cases h
  · cases h

end GraphQLClient
