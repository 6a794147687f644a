import GraphQLClient.Proofs.Building.Sharing
import GraphQLClient.Proofs.Paging.AnchoredPages
import GraphQLClient.Proofs.Paging.Frames
import GraphQLClient.Proofs.Paging.Refetchable

set_option autoImplicit false

/-!
# What stays selected from query to query

Decoding needs the type name of objects that can be of several types, and fetching an object again needs
its id. Both are selected below every field of an operation that is built. Follow-up queries are made of
what is kept of an operation, without selecting anything anew but at the object that they fetch, and so
are the follow-up queries of these.
-/

namespace GraphQLClient

namespace Selection

/-- What tells objects of the type apart is selected on it: the type name if they can be of several
types, and the id if they can be fetched by it. -/
def Identifies (type : TypeDescriptor) (selections : List Selection) : Prop :=
  (type.isAbstract = true → .leaf (.plain typenameField) ∈ selections) ∧
    (type.implementsNode = true → (type.field? "id").isSome = true →
      .leaf (.plain "id") ∈ selections)

/-- Below a field stands what tells the objects of its type apart. -/
def Identified (bundle : Bundle) : Selection → Prop
  | .composite _ typeName inner => ∀ type ∈ bundle.get? typeName, Identifies type inner
  | _ => True

/-- The selection is the leaf field of the name and nothing else. -/
def isPlain (name : String) : Selection → Bool
  | .leaf ⟨found, none, [], false⟩ => found == name
  | _ => false

theorem isPlain_iff {name : String} {selection : Selection} :
    selection.isPlain name = true ↔ selection = .leaf (.plain name) := by
  constructor
  · intro h
    unfold isPlain at h
    split at h
    · rw [beq_iff_eq.1 h]
      rfl
    · cases h
  · rintro rfl
    exact beq_self_eq_true name

instance (name : String) (selections : List Selection) :
    Decidable (.leaf (.plain name) ∈ selections) :=
  decidable_of_iff (selections.any (isPlain name) = true) <| by
    rw [List.any_eq_true]
    constructor
    · rintro ⟨selection, hs, hplain⟩
      exact isPlain_iff.1 hplain ▸ hs
    · exact fun hs => ⟨_, hs, isPlain_iff.2 rfl⟩

instance (type : TypeDescriptor) (selections : List Selection) : Decidable (Identifies type selections) :=
  inferInstanceAs (Decidable (_ ∧ _))

instance (bundle : Bundle) : DecidablePred (Identified bundle)
  | .composite _ typeName inner =>
    inferInstanceAs (Decidable (∀ type ∈ bundle.get? typeName, Identifies type inner))
  | .leaf _ => .isTrue trivial
  | .inlineFragment .. => .isTrue trivial
  | .spread .. => .isTrue trivial

theorem identifies_of_opening {scope : Scope} {selections : List Selection}
    (h : ∀ selection ∈ scope.opening, selection ∈ selections) : Identifies scope.type selections := by
  unfold Scope.opening at h
  refine ⟨fun ha => h _ ?_, fun hn hid => h _ ?_⟩
  · rw [if_pos ha]
    exact List.mem_append_right _ List.mem_cons_self
  · rw [hn, hid]
    exact List.mem_append_left _ List.mem_cons_self

/-- The set of a new field starts with what tells objects apart. -/
theorem given_identified (bundle : Bundle) : Given bundle (Identified bundle) where
  leaf := fun _ _ => trivial
  composite := fun child field inner _ hself hf type htype => by
    obtain rfl := Option.some.inj (hself.symm.trans htype)
    exact identifies_of_opening fun _ hs => hf.1.subset hs
  inlineFragment := fun _ _ _ => trivial
  spread := fun _ => trivial

/-- The fragment that is spread, if one is, is valid. -/
def SpreadsValid (bundle : Bundle) : Selection → Prop
  | .spread serial name condition typeName inner =>
    Fragment.ValidOver bundle ⟨serial, name, condition, ⟨typeName, inner⟩⟩
  | _ => True

mutual
theorem spreadsValid_of_validOn {scope : Scope} {selection : Selection} (h : selection.ValidOn scope) :
    selection.Everywhere (SpreadsValid scope.bundle) := by
  cases selection with
  | leaf field => trivial
  | composite field typeName inner =>
    unfold ValidOn at h
    obtain ⟨type, -, -, hi⟩ := h
    have hall : EverywhereAll (SpreadsValid (scope.within type).bundle) inner :=
      spreadsValid_of_allValidOn hi
    exact ⟨trivial, hall⟩
  | inlineFragment condition typeName inner =>
    unfold ValidOn at h
    obtain ⟨target, -, -, hi⟩ := h
    have hall : EverywhereAll (SpreadsValid (scope.within target).bundle) inner :=
      spreadsValid_of_allValidOn hi
    exact ⟨trivial, hall⟩
  | spread serial name condition typeName inner =>
    unfold ValidOn at h
    obtain ⟨target, ha, hproper, hi⟩ := h
    have hall : EverywhereAll (SpreadsValid (⟨scope.bundle, [], target⟩ : Scope).bundle) inner :=
      spreadsValid_of_allValidOn hi
    exact ⟨⟨target, ha.1, ha.2.1, hproper, hi⟩, hall⟩

/-- What valid sets spread is valid by itself. -/
theorem spreadsValid_of_allValidOn {scope : Scope} {selections : List Selection}
    (h : AllValidOn scope selections) : EverywhereAll (SpreadsValid scope.bundle) selections := by
  cases selections with
  | nil => trivial
  | cons selection rest => exact ⟨spreadsValid_of_validOn h.1, spreadsValid_of_allValidOn h.2⟩
end

mutual
theorem validOver_of_mem_spreadFragments {bundle : Bundle} {selection : Selection}
    (h : selection.Everywhere (SpreadsValid bundle)) :
    ∀ fragment ∈ selection.spreadFragments, fragment.ValidOver bundle := by
  cases selection with
  | leaf field => exact fun _ hf => absurd hf List.not_mem_nil
  | composite field typeName inner => exact validOver_of_mem_spreadFragmentsOfAll h.2
  | inlineFragment condition typeName inner => exact validOver_of_mem_spreadFragmentsOfAll h.2
  | spread serial name condition typeName inner =>
    intro fragment hf
    obtain rfl := List.mem_singleton.1 hf
    exact h.1

theorem validOver_of_mem_spreadFragmentsOfAll {bundle : Bundle} {selections : List Selection}
    (h : EverywhereAll (SpreadsValid bundle) selections) :
    ∀ fragment ∈ spreadFragmentsOfAll selections, fragment.ValidOver bundle := by
  cases selections with
  | nil => exact fun _ hf => absurd hf List.not_mem_nil
  | cons selection rest =>
    intro fragment hf
    rcases List.mem_append.1 hf with hf | hf
    · exact validOver_of_mem_spreadFragments h.1 fragment hf
    · exact validOver_of_mem_spreadFragmentsOfAll h.2 fragment hf
end

/-- What a selection keeps when it is pruned, and what is enough to add it anew. -/
structure Sturdy (bundle : Bundle) (selection : Selection) : Prop where
  framed : selection.Framed bundle
  identified : selection.Identified bundle
  spreads : selection.SpreadsValid bundle

theorem sturdy_of_allValidOn {scope : Scope} {selections : List Selection}
    (hv : AllValidOn scope selections) (hi : EverywhereAll (Identified scope.bundle) selections) :
    EverywhereAll (Sturdy scope.bundle) selections := by
  have hboth := (framed_of_allValidOn hv).and (fun _ hf hs => And.intro hf hs)
    (spreadsValid_of_allValidOn hv)
  exact hboth.and (fun _ h hid => ⟨h.1, hid, h.2⟩) hi

/-- No key tells objects apart. -/
def Plainly (keys : List String) : Prop := ∀ key ∈ keys, key ≠ "id" ∧ key ≠ typenameField

instance (keys : List String) : Decidable (Plainly keys) := inferInstanceAs (Decidable (∀ _, _))

/-- What tells objects apart is left of every set. -/
theorem Identifies.of_left {type : TypeDescriptor} {path : List String}
    {selections left : List Selection} (h : Identifies type selections) (hp : Plainly path)
    (hl : LeftOf path selections left) : Identifies type left :=
  ⟨fun ha => hl.identities _ (.inr rfl) (fun hm => (hp _ hm).2 rfl) (h.1 ha),
    fun hn hid => hl.identities _ (.inl rfl) (fun hm => (hp _ hm).1 rfl) (h.2 hn hid)⟩

theorem hereditary_sturdy {path : List String} (hp : Plainly path) (bundle : Bundle) :
    Hereditary path (Sturdy bundle) where
  leaf := fun _ => ⟨trivial, trivial, trivial⟩
  distinct := fun _ _ _ h => (hereditary_framed path bundle).distinct _ _ _ h.framed
  composite := fun _ _ _ _ _ h hl =>
    ⟨(hereditary_framed path bundle).composite _ _ _ _ _ h.framed hl,
      fun type ht => (h.identified type ht).of_left hp hl, trivial⟩
  inlineFragment := fun _ _ _ _ h hl =>
    ⟨(hereditary_framed path bundle).inlineFragment _ _ _ _ h.framed hl, trivial, trivial⟩
  spread := fun _ _ _ _ _ h => ⟨h.framed, trivial, trivial⟩

end Selection

/-- The type declares the fields that stand directly in the set with the types that their own sets
are on. -/
def SelectionSet.DeclaredOn (bundle : Bundle) (typeName : String) (set : SelectionSet) : Prop :=
  ∀ type ∈ bundle.get? typeName, ∀ selection ∈ set.selections, selection.DeclaredBy type

instance (bundle : Bundle) (typeName : String) (set : SelectionSet) :
    Decidable (set.DeclaredOn bundle typeName) :=
  inferInstanceAs (Decidable (∀ type ∈ bundle.get? typeName, ∀ selection ∈ set.selections, _))

/-- Where the next page is fetched from an anchor, the type of the anchor declares the fields of what is
kept of its set. -/
def PageMark.Declared (mark : PageMark) : Prop :=
  ∀ anchor ∈ mark.usableAnchor?,
    ∀ kept ∈ anchor.set.prune (mark.path.drop anchor.depth) mark.cursor,
      kept.DeclaredOn mark.source.bundle anchor.typeName

instance (mark : PageMark) : Decidable mark.Declared :=
  inferInstanceAs (Decidable (∀ anchor ∈ mark.usableAnchor?,
    ∀ kept ∈ anchor.set.prune (mark.path.drop anchor.depth) mark.cursor, _))

namespace Operation

variable {bundle : Bundle} {operation : Operation}

/-- Which operations come from an operation: the next pages and the refetches of what is decoded from
whatever answers, the next pages and the refetches of these, and so on. Unless `loose`, no key that a
page is looked up by is one that tells objects apart, and where a set is replayed on a type of its own,
the type declares the fields of the set as they were. -/
inductive LeadsTo (loose : Prop) (bundle : Bundle) (operation : Operation) : Operation → Prop
  | refl : LeadsTo loose bundle operation operation
  | nextPage {reached : Operation} {values : List (String × Json)} {registry : Option ClassRegistry}
      {data : Json} {address : List Move} {mark : PageMark} {next : FollowUp}
      (earlier : LeadsTo loose bundle operation reached)
      (decoded : ((Decoded.object ((⟨⟨bundle, reached, values⟩, registry⟩ : Decoder).decode data)).at?
        address).bind Decoded.mark? = some mark)
      (plainly : loose ∨ Selection.Plainly next.path)
      (declared : loose ∨ mark.Declared)
      (followed : mark.nextPage = .ok next) : LeadsTo loose bundle operation next.operation
  | refetch {reached : Operation} {values : List (String × Json)} {registry : Option ClassRegistry}
      {data : Json} {address : List Move} {model : Model} {next : FollowUp}
      (earlier : LeadsTo loose bundle operation reached)
      (decoded : (Decoded.object ((⟨⟨bundle, reached, values⟩, registry⟩ : Decoder).decode data)).at?
        address = some (.object model))
      (declared : loose ∨ model.head.set.DeclaredOn bundle model.head.set.typeName)
      (followed : model.refetch = .ok next) : LeadsTo loose bundle operation next.operation

/-- The operation is valid, and each of its fields selects what tells the objects of its type apart. -/
structure Telling (bundle : Bundle) (operation : Operation) : Prop where
  valid : operation.Valid bundle
  identified : Selection.EverywhereAll (Selection.Identified bundle) operation.set.selections

theorem Telling.sturdy (h : operation.Telling bundle) :
    Selection.EverywhereAll (Selection.Sturdy bundle) operation.set.selections := by
  obtain ⟨root, -, -, hvalid⟩ := h.valid.root
  exact Selection.sturdy_of_allValidOn hvalid h.identified

end Operation

namespace FollowUp

variable {source : Source} {next : FollowUp} {path : List String} {set : SelectionSet}

theorem valid_of_ofDraft {draft : OperationDraft}
    (hf : ∀ fragment ∈ Step.fragmentsOfAll draft.program, fragment.ValidOver source.bundle)
    (h : ofDraft source draft path = .ok next) : next.operation.Valid source.bundle := by
  obtain ⟨hbuild, -, -⟩ := ofDraft_eq_ok h
  exact OperationDraft.valid_of_validOver hf hbuild

end FollowUp

namespace Scope

variable {scope : Scope} {id typeName : String} {set : SelectionSet} {after : List Selection}

/-- A framed set that is added to its opening stays telling. -/
theorem identified_of_rebuildsAll {selections before : List Selection}
    (hs : Selection.EverywhereAll (Selection.Sturdy scope.bundle) selections)
    (hd : ∀ selection ∈ selections, selection.DeclaredBy scope.type)
    (hb : Selection.EverywhereAll (Selection.Identified scope.bundle) before)
    (h : scope.RebuildsAll selections before after) :
    Selection.EverywhereAll (Selection.Identified scope.bundle) after := by
  have hframed := hs.and (fun _ hsturdy _ => hsturdy.framed) hs
  have hidentified := hs.and (fun _ hsturdy _ => hsturdy.identified) hs
  refine Selection.everywhereAll_iff.2 fun selection hm => ?_
  rcases h.mem_of_framed hframed hd selection hm with hm | hm
  · exact Selection.everywhereAll_iff.1 hb selection hm
  · exact Selection.everywhereAll_iff.1 hidentified selection hm

theorem Fetches.identified
    (hs : Selection.EverywhereAll (Selection.Sturdy scope.bundle) set.selections)
    (hd : set.DeclaredOn scope.bundle typeName)
    (h : scope.Fetches id typeName set scope.opening after) :
    Selection.EverywhereAll (Selection.Identified scope.bundle) after := by
  obtain ⟨nodeType, target, inner, -, hadmits, hrebuilds, -, htakes, rfl⟩ := h
  obtain ⟨⟨⟨-, _, -, hnode, -⟩, -⟩, -⟩ := htakes
  rw [settled_first (by decide) (by decide)]
  have hinner : Selection.EverywhereAll (Selection.Identified scope.bundle) inner :=
    @identified_of_rebuildsAll (scope.within target) _ _ [] hs (hd target hadmits.1) trivial hrebuilds
  have hbegins : ∀ other : Scope,
      Selection.EverywhereAll (Selection.Identified scope.bundle) other.opening :=
    everywhere_opening fun _ => trivial
  have hnarrowed : Selection.EverywhereAll (Selection.Identified scope.bundle)
      ((scope.within nodeType).narrowed target inner) :=
    Selection.everywhereAll_append.2 ⟨hbegins _, ⟨trivial, hinner⟩, trivial⟩
  refine Selection.everywhereAll_append.2 ⟨hbegins _, ⟨fun type htype => ?_, hnarrowed⟩, trivial⟩
  obtain rfl : nodeType = type := Option.some.inj ((Bundle.get?_self hnode).symm.trans htype)
  have hopening : ∀ selection ∈ (scope.within nodeType).opening,
      selection ∈ (scope.within nodeType).narrowed target inner := fun _ hm => List.mem_append_left _ hm
  exact Selection.identifies_of_opening hopening

end Scope

namespace FollowUp

variable {source : Source} {next : FollowUp} {path : List String} {set : SelectionSet}

theorem valid_of_fetch {name : Option String} {id typeName : String}
    (hs : Selection.EverywhereAll (Selection.SpreadsValid source.bundle) set.selections)
    (h : fetch source name id typeName set path = .ok next) : next.operation.Valid source.bundle := by
  refine valid_of_ofDraft (fun fragment hf => ?_) h
  refine Selection.validOver_of_mem_spreadFragmentsOfAll hs fragment ?_
  simpa [draft, nodeProgram, Step.fragmentsOfAll, Step.fragments] using hf

/-- The query for a set on the object with an id is telling, if the set is. -/
theorem telling_of_fetch {name : Option String} {id typeName : String}
    (hs : Selection.EverywhereAll (Selection.Sturdy source.bundle) set.selections)
    (hd : set.DeclaredOn source.bundle typeName)
    (h : fetch source name id typeName set path = .ok next) :
    next.operation.Telling source.bundle := by
  refine ⟨valid_of_fetch (hs.and (fun _ hsturdy _ => hsturdy.spreads) hs) h, ?_⟩
  obtain ⟨hbuild, -, -⟩ := ofDraft_eq_ok h
  obtain ⟨scope, hbundle, -, -, -, hfetches⟩ := OperationDraft.set_of_build
    (fun scope => Scope.runs_nodeProgram scope id typeName set scope.opening) hbuild
  rw [← hbundle] at hs hd ⊢
  exact hfetches.identified hs hd

/-- What is kept of a telling operation makes a telling operation again. -/
theorem telling_of_extend {name : Option String}
    (ho : source.operation.Valid source.bundle)
    (hs : Selection.EverywhereAll (Selection.Sturdy source.bundle) set.selections)
    {keys : List String}
    (hl : Selection.LeftOf keys source.operation.set.selections set.selections)
    (h : ofDraft source (draft source.operation source.operation.kind name set [.extend set]) path =
      .ok next) : next.operation.Telling source.bundle := by
  have hspreads := hs.and (fun _ hsturdy _ => hsturdy.spreads) hs
  refine ⟨valid_of_ofDraft (fun fragment hf => ?_) h, ?_⟩
  · refine Selection.validOver_of_mem_spreadFragmentsOfAll hspreads fragment ?_
    simpa [draft, Step.fragmentsOfAll, Step.fragments] using hf
  · obtain ⟨hbuild, -, -⟩ := ofDraft_eq_ok h
    obtain ⟨scope, hbundle, hroot, -, -, hrebuilds⟩ := OperationDraft.set_of_build
      (fun scope => Scope.runs_extend scope set scope.opening) hbuild
    obtain ⟨root, hroot', -, hvalid⟩ := ho.root
    have hsame : scope.type = root := Except.ok.inj (hroot.symm.trans hroot')
    have hdeclared : ∀ selection ∈ set.selections, selection.DeclaredBy scope.type := by
      rw [hsame]
      exact hl.declaredBy hvalid.declaredBy
    rw [← hbundle] at hs ⊢
    exact Scope.identified_of_rebuildsAll hs hdeclared
      (Scope.everywhere_opening (fun _ => trivial) scope) hrebuilds

end FollowUp

namespace Operation.Telling

variable {decoder : Decoder} {data : Json} {address : List Move} {next : FollowUp}

/-- A next page keeps what tells objects apart. -/
theorem nextPage {mark : PageMark} (h : decoder.source.operation.Telling decoder.bundle)
    (hm : ((Decoded.object (decoder.decode data)).at? address).bind Decoded.mark? = some mark)
    (hk : Selection.Plainly next.path) (hd : mark.Declared) (hq : mark.nextPage = .ok next) :
    next.operation.Telling decoder.bundle := by
  obtain ⟨hsource, hfrom⟩ := Decoder.anchor_of_mark?
    (fun spot => Decoder.follow?_throughout h.sturdy) hm
  obtain ⟨anchor, kept, hu, hkept, hnext⟩ | ⟨-, kept, hkept, hnext⟩ := PageMark.nextPage_cases hq
  · obtain ⟨-, hpath, -⟩ := FollowUp.ofDraft_eq_ok hnext
    obtain ⟨-, static, parts, -, hparts, -, -, -, hset⟩ :=
      hfrom anchor (Option.eq_some_of_filter_eq_some hu)
    have hall : Selection.EverywhereAll (Selection.Sturdy decoder.bundle) anchor.set.selections := by
      rw [hset]
      exact hparts
    have hplain : Selection.Plainly (mark.path.drop anchor.depth) := fun key hm =>
      hk key (hpath ▸ List.mem_cons_of_mem _ hm)
    obtain ⟨-, hsturdy⟩ := SelectionSet.hereditary_prune
      (Selection.hereditary_sturdy hplain decoder.bundle) hall hkept
    have hdeclared := hd anchor hu kept hkept
    rw [hsource] at hnext hdeclared
    exact FollowUp.telling_of_fetch hsturdy hdeclared hnext
  · obtain ⟨-, hpath, -⟩ := FollowUp.ofDraft_eq_ok hnext
    rw [hsource] at hkept hnext
    obtain ⟨hleft, hsturdy⟩ := SelectionSet.hereditary_prune
      (Selection.hereditary_sturdy (hpath ▸ hk) decoder.bundle) h.sturdy hkept
    exact FollowUp.telling_of_extend h.valid hsturdy hleft hnext

/-- A query for an object again has the set of the object. -/
theorem refetch {model : Model} (h : decoder.source.operation.Telling decoder.bundle)
    (hm : (Decoded.object (decoder.decode data)).at? address = some (.object model))
    (hd : model.head.set.DeclaredOn decoder.bundle model.head.set.typeName)
    (hq : model.refetch = .ok next) : next.operation.Telling decoder.bundle := by
  rw [Decoder.at?_decode] at hm
  obtain ⟨spot, hfollow, hread⟩ := Option.map_eq_some_iff.1 hm
  obtain ⟨static, parts, entries, hshape, -, rfl⟩ := Decoder.of_read_eq_object hread
  have hall : Selection.EverywhereAll (Selection.Sturdy decoder.bundle)
      (Part.merged parts).selections := by
    have heach := (Decoder.follow?_throughout h.sturdy hfollow).shape
    rw [hshape] at heach
    exact heach
  obtain ⟨id, -, hfetch⟩ := Model.fetch_of_refetch hq
  exact FollowUp.telling_of_fetch hall hd hfetch

end Operation.Telling

/-- Below each field of an operation that is built without raw selections stands what tells objects of
its type apart, and so it does in all operations that follow from it. -/
theorem OperationDraft.telling_of_leadsTo {bundle : Bundle} {draft : OperationDraft}
    {operation reached : Operation}
    (hf : ∀ fragment ∈ Step.fragmentsOfAll draft.program, fragment.GuidedOver bundle)
    (hg : Step.allGuided draft.program = true) (hb : (draft.build bundle).result = .ok operation)
    (hl : operation.LeadsTo False bundle reached) : reached.Telling bundle := by
  induction hl with
  | refl =>
    have hvalid : operation.Valid bundle := valid_of_validOver (fun fragment hm =>
      Fragment.validOver_of_definedOver (hf fragment hm).definedOver) hb
    exact ⟨hvalid,
      (Selection.given_identified bundle).everywhere_of_build hf hg hb⟩
  | @nextPage reached values registry data address mark next _ decoded plainly declared followed ih =>
    exact @Operation.Telling.nextPage ⟨⟨bundle, reached, values⟩, registry⟩ data address next mark ih
      decoded (plainly.resolve_left id) (declared.resolve_left id) followed
  | @refetch reached values registry data address model next _ decoded declared followed ih =>
    exact @Operation.Telling.refetch ⟨⟨bundle, reached, values⟩, registry⟩ data address next model ih
      decoded (declared.resolve_left id) followed

/-- The products of the shop, one more of which is on the next page. -/
def pagedShopData : Json :=
  .obj [("node", .obj [("__typename", .str "Shop"), ("id", .str "s1"), ("products", .obj
    [("edges", .arr [.obj [("cursor", .str "c2"), ("node", .obj
        [("id", .str "p2"), ("title", .str "Beret")])]]),
     ("pageInfo", .obj [("hasNextPage", .bool false), ("hasPreviousPage", .bool true)])])])]

/-- A product of the next page is fetched again. -/
def pagedChained : Bool :=
  match ((Decoded.object (pagedDecoder.decode pagedData)).at?
    [.key "shop", .key "products"]).bind Decoded.mark? with
  | some mark =>
    match mark.nextPage with
    | .ok next =>
      match (Decoded.object ((pagedDecoder.forNext next).decode pagedShopData)).at?
        [.key "node", .key "products", .item 0] with
      | some (.object model) =>
        match model.refetch with
        | .ok _ => decide (Selection.Plainly next.path ∧ mark.Declared ∧
            model.head.set.DeclaredOn sampleBundle model.head.set.typeName)
        | _ => false
      | _ => false
    | _ => false
  | _ => false

theorem paged_chain_telling :
    ∃ next again : FollowUp,
      (pagedDraft.built sampleBundle).LeadsTo False sampleBundle next.operation ∧
      next.operation.LeadsTo False sampleBundle again.operation ∧
      next.operation.Telling sampleBundle ∧ again.path = [nodeFieldName] := by
  have h : pagedChained = true := by decide +kernel
  unfold pagedChained at h
  split at h
  · rename_i mark hmark
    split at h
    · rename_i next hnext
      split at h
      · rename_i model hmodel
        split at h
        · rename_i again hagain
          obtain ⟨hplainly, hdeclared, hmodelDeclared⟩ := of_decide_eq_true h
          have hfirst : (pagedDraft.built sampleBundle).LeadsTo False sampleBundle next.operation :=
            .nextPage .refl hmark (.inr hplainly) (.inr hdeclared) hnext
          obtain ⟨-, -, -, -, -, hpath, -⟩ := Model.refetch_eq_ok hagain
          refine ⟨next, again, hfirst, .refetch .refl hmodel (.inr hmodelDeclared) hagain, ?_, hpath⟩
          exact OperationDraft.telling_of_leadsTo paged_guidedOver (by rfl) paged_built hfirst
        · cases h
      · cases h
    · cases h
  · cases h

/-- Items of pages and mates of products have ids, though items and mates in general need not. -/
def heldBundle : Bundle :=
  let field (name type : String) := FieldDescriptor.mk name (.named type) []
  let parts := FieldDescriptor.mk "parts" (.named "Parts") [("after", .named "String")]
  let object (name : String) (node : Bool) (fields : List FieldDescriptor) :=
    TypeDescriptor.mk name .object fields [] node []
  let interface (name : String) (node : Bool) (fields : List FieldDescriptor) (types : List String) :=
    TypeDescriptor.mk name .interface fields types node []
  let query := object "Query" false
    [field "holder" "Holder", field "either" "Either",
     ⟨"node", .named "Node", [("id", .nonNull (.named "ID"))]⟩]
  ⟨query, none,
    ["ID", "String", "Boolean"].map (TypeDescriptor.ofKind · .scalar) ++
    [query, interface "Node" true [field "id" "ID"] ["Page", "Product"],
     interface "Holder" false [field "item" "Item"] ["Page"],
     object "Page" true [field "id" "ID", field "item" "Product"],
     interface "Item" false [parts, field "mate" "Holder"] ["Product"],
     object "Product" true [field "id" "ID", parts, field "mate" "Page", field "twin" "Item"],
     ⟨"Either", .union, [], ["Left", "Right"], false, []⟩,
     interface "Sided" false [field "side" "Item"] ["Right"],
     object "Left" false [field "side" "Plain"], object "Right" false [field "side" "Product"],
     object "Plain" false [field "twin" "Item"],
     object "Parts" false [field "edges" "Edge", field "pageInfo" "PageInfo"],
     object "Edge" false [field "cursor" "String", field "node" "Part"],
     object "Part" false [field "name" "String"],
     object "PageInfo" false [field "hasNextPage" "Boolean", field "hasPreviousPage" "Boolean"]]⟩

def heldParts : Step := .connection "parts" .none [.field "name" .none]

def heldPage : Json :=
  .obj [("edges", .arr [.obj [("cursor", .str "c1"), ("node", .obj [("name", .str "n1")])]]),
    ("pageInfo", .obj [("hasNextPage", .bool true), ("hasPreviousPage", .bool false)])]

/-- The item is selected on an interface without an id. -/
def heldDraft : OperationDraft :=
  .ofProgram .query
    [.object "holder" .none
      [.fragmentOn "Page" [.field "id" .none], .object "item" .none [heldParts]]]

def heldData : Json :=
  .obj [("holder", .obj [("__typename", .str "Page"), ("id", .str "h1"),
    ("item", .obj [("__typename", .str "Product"), ("parts", heldPage)])])]

/-- Beside the id of a product stands a twin under the same key. -/
def twinDraft : OperationDraft :=
  let twin : Step := .object "twin" ⟨some "id", []⟩ [heldParts]
  .ofProgram .query
    [.object "either" .none
      [.fragmentOn "Left" [.object "side" .none [twin]],
       .fragmentOn "Right" [.object "side" .none [.fragmentOn "Product" [twin]]]]]

def twinData : Json :=
  .obj [("either", .obj [("__typename", .str "Left"),
    ("side", .obj [("id", .obj [("__typename", .str "Product"), ("parts", heldPage)])])])]

/-- The side is selected as a product, and its mate as that of an item. -/
def mateDraft : OperationDraft :=
  .ofProgram .query
    [.object "either" .none
      [.fragmentOn "Right" [.object "side" .none []],
       .fragmentOn "Sided" [.object "side" .none
        [.object "mate" .none [.object "item" .none [heldParts]]]]]]

def mateData : Json :=
  .obj [("either", .obj [("__typename", .str "Right"),
    ("side", .obj [("__typename", .str "Product"), ("id", .str "p1"), ("mate", .null)])])]

/-- An operation is built without raw selections and leads to one with a field that does not select what
tells the objects of its type apart. -/
def OperationDraft.LosesIdentity (draft : OperationDraft) (bundle : Bundle) : Prop :=
  Step.allGuided draft.program = true ∧ Step.fragmentsOfAll draft.program = [] ∧
    (draft.build bundle).result = .ok (draft.built bundle) ∧
    ∃ reached, (draft.built bundle).LeadsTo True bundle reached ∧
      ¬Selection.EverywhereAll (Selection.Identified bundle) reached.set.selections

/-- The query for the next page of a connection, or for an object again. -/
def OperationDraft.followUp? (draft : OperationDraft) (bundle : Bundle) (data : Json)
    (address : List Move) : Option (Except ModelError FollowUp) :=
  match (Decoded.object ((⟨⟨bundle, draft.built bundle, []⟩, none⟩ : Decoder).decode data)).at?
    address with
  | some (.connection _ _ (some mark)) => some mark.nextPage
  | some (.object model) => some model.refetch
  | _ => none

theorem OperationDraft.leadsTo_followUp? {draft : OperationDraft} {bundle : Bundle} {data : Json}
    {address : List Move} {next : FollowUp}
    (h : draft.followUp? bundle data address = some (.ok next)) :
    (draft.built bundle).LeadsTo True bundle next.operation := by
  unfold followUp? at h
  split at h
  · rename_i nodes info mark hat
    have hmark : ((Decoded.object ((⟨⟨bundle, draft.built bundle, []⟩, none⟩ : Decoder).decode
        data)).at? address).bind Decoded.mark? = some mark := by rw [hat]; rfl
    exact .nextPage .refl hmark (.inl trivial) (.inl trivial) (Option.some.inj h)
  · rename_i model hat
    exact .refetch .refl hat (.inl trivial) (Option.some.inj h)
  · cases h

theorem OperationDraft.losesIdentity_of_followUp? {draft : OperationDraft} {bundle : Bundle} {data : Json}
    {address : List Move} (hg : Step.allGuided draft.program = true)
    (hf : Step.fragmentsOfAll draft.program = []) (hb : (draft.build bundle).result.toBool = true)
    (h : ((draft.followUp? bundle data address).any fun followed => followed.toOption.any fun next =>
      decide ¬Selection.EverywhereAll (Selection.Identified bundle) next.operation.set.selections) =
        true) : draft.LosesIdentity bundle := by
  obtain ⟨followed, hfollowed, hlost⟩ := (Option.any_eq_true _ _).1 h
  cases followed with
  | error error => cases hlost
  | ok next =>
    exact ⟨hg, hf, build_eq_built hb, next.operation, leadsTo_followUp? hfollowed,
      of_decide_eq_true hlost⟩

/-- The item of a page is fetched without its id, because the page declares another type for it than the
holder; so is the mate of a product that is fetched again; and the side of the right one is, because the
page is looked up under the key of the id. -/
theorem identities_lost :
    heldDraft.LosesIdentity heldBundle ∧ mateDraft.LosesIdentity heldBundle ∧
      twinDraft.LosesIdentity heldBundle :=
  ⟨@OperationDraft.losesIdentity_of_followUp? _ _ heldData [.key "holder", .key "item", .key "parts"]
      rfl rfl (by decide +kernel) (by decide +kernel),
    @OperationDraft.losesIdentity_of_followUp? _ _ mateData [.key "either", .key "side"]
      rfl rfl (by decide +kernel) (by decide +kernel),
    @OperationDraft.losesIdentity_of_followUp? _ _ twinData
      [.key "either", .key "side", .key "id", .key "parts"]
      rfl rfl (by decide +kernel) (by decide +kernel)⟩

end GraphQLClient
