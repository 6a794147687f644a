import GraphQLClient.Proofs.Building.Acceptance
import GraphQLClient.Proofs.Paging.Requests

set_option autoImplicit false

/-!
# When an object can be fetched by its id

A query that fetches an object by its id selects a given set on a given type. It is built exactly if
sets can be started on the query root and on the type of the `node` field, and the type takes the
selections.
-/

namespace GraphQLClient

open Building

/-- The `node` field fetches objects of all types that say so by their id, through an interface. -/
structure Bundle.FetchesById (bundle : Bundle) (nodeType : TypeDescriptor) : Prop where
  declared : ∃ field, bundle.nodeField? = some field ∧ bundle.get? field.typeName = some nodeType ∧
    Keyed.contains "id" field.arguments = true
  interface : nodeType.kind = .interface
  canBe : ∀ name type, bundle.get? name = some type → type.implementsNode = true →
    nodeType.canBe name = true

/-- It is enough to look at the types that the bundle holds. -/
theorem Bundle.fetchesById_of_types {bundle : Bundle} {nodeType : TypeDescriptor}
    (hd : ∃ field, bundle.nodeField? = some field ∧ bundle.get? field.typeName = some nodeType ∧
      Keyed.contains "id" field.arguments = true)
    (hi : nodeType.kind = .interface)
    (ht : ∀ type ∈ bundle.types, type.implementsNode = true → nodeType.canBe type.name = true) :
    bundle.FetchesById nodeType := by
  refine ⟨hd, hi, fun name type h hn => ?_⟩
  rw [← Bundle.get?_name h]
  exact ht type (List.mem_of_find?_eq_some h) hn

theorem sampleBundle_fetchesById : ∃ nodeType, sampleBundle.FetchesById nodeType :=
  ⟨_, Bundle.fetchesById_of_types ⟨_, rfl, rfl, rfl⟩ rfl (by decide +kernel)⟩

/-- The `node` field takes sets on every type that an object which is found by its id may be of. -/
theorem Bundle.FetchesById.admits {bundle : Bundle} {nodeType static concrete : TypeDescriptor}
    (hf : bundle.FetchesById nodeType) (hi : bundle.issues = [])
    (hs : bundle.get? static.name = some static)
    (hc : bundle.get? concrete.name = some concrete) (hn : concrete.implementsNode = true)
    (hcan : static.canBe concrete.name = true) {scope : Scope} (hb : scope.bundle = bundle)
    (ht : scope.type = nodeType) : scope.Admits static.name static := by
  subst hb ht
  have hnode := hf.canBe _ _ hc hn
  refine ⟨hs, ?_, TypeDescriptor.overlaps_of_canBe hnode hcan⟩
  have hcomposite : concrete.isComposite = true := by
    obtain ⟨field, -, hget, -⟩ := hf.declared
    rcases TypeDescriptor.canBe_iff.1 hnode with hname | ⟨habstract, hmem⟩
    · rw [← hname, Bundle.get?_self hget] at hc
      obtain rfl := Option.some.inj hc
      simp [TypeDescriptor.isComposite, TypeKind.isComposite, hf.interface]
    · have hcomplete := issues_eq_nil_iff.1 hi
      obtain ⟨found, hfound, hobject⟩ := hcomplete.object_of_possible hget habstract hmem
      obtain rfl := Option.some.inj (hc.symm.trans hfound)
      simp [TypeDescriptor.isComposite, TypeKind.isComposite, hobject]
  rcases TypeDescriptor.canBe_iff.1 hcan with hname | ⟨habstract, -⟩
  · rw [hname, hc] at hs
    exact Option.some.inj hs ▸ hcomposite
  · revert habstract
    cases h : static.kind <;>
      simp [TypeDescriptor.isAbstract, TypeKind.isAbstract, TypeDescriptor.isComposite,
        TypeKind.isComposite, h]

/-- A set on the type can be started: its `id`, if one is added, is a leaf. -/
def Bundle.Starts (bundle : Bundle) (type : TypeDescriptor) : Prop :=
  (⟨bundle, [], type⟩ : Scope).Opens

theorem Scope.opens_iff {scope : Scope} : scope.Opens ↔ scope.bundle.Starts scope.type := by
  have hid : ∀ scope scope' : Scope, scope.Alike scope' → scope.OffersLeaf "id" [] →
      scope'.OffersLeaf "id" [] := fun _ _ halike h =>
    h.of_declares halike fun _ hu => absurd hu List.not_mem_nil
  constructor
  · exact fun h hn => hid scope ⟨scope.bundle, [], scope.type⟩ ⟨rfl, rfl⟩ (h hn)
  · exact fun h hn => hid ⟨scope.bundle, [], scope.type⟩ scope ⟨rfl, rfl⟩ (h hn)

namespace OperationDraft

variable {bundle : Bundle} {draft : OperationDraft}

theorem declares_of_build {operation : Operation} (h : (draft.build bundle).result = .ok operation) :
    operation.Declares bundle := by
  obtain ⟨scope, set, hscope, -, rfl⟩ := build_eq_ok h
  obtain ⟨-, hdeclared, hdirectives, -⟩ := scope_eq_ok hscope
  refine ⟨VariableDraft.declares_of_resolveAll hdeclared, fun used hu => ?_⟩
  simpa using undeclaredInDirectives?_eq_none_iff.1 hdirectives used hu

end OperationDraft

namespace FollowUp

/-- Where the selections of a query that fetches an object start. -/
def rootScope (source : Source) (set : SelectionSet) : Scope :=
  ⟨source.bundle, declared source.operation set, source.bundle.queryRoot⟩

/-- The query that fetches the object with an id and selects `set` on it as on the type called
`typeName`. -/
def fetch (source : Source) (name : Option String) (id typeName : String) (set : SelectionSet)
    (path : List String) : Except ModelError FollowUp :=
  ofDraft source (draft source.operation .query name set (nodeProgram id typeName set)) path

theorem ofDraft_eq_error {source : Source} {draft : OperationDraft} {path : List String}
    {error : ModelError} (h : ofDraft source draft path = .error error) :
    ∃ cause, error = .build cause := by
  unfold ofDraft at h
  split at h
  · cases h
  · exact ⟨_, (Except.error.inj h).symm⟩

variable {source : Source} {nodeType target : TypeDescriptor} {id typeName : String}
  {set : SelectionSet}

/-- What the `node` field of the bundle makes of the selections. -/
theorem fetches_iff (hf : source.bundle.FetchesById nodeType)
    (ha : ((rootScope source set).within nodeType).Admits typeName target)
    (hne : set.selections ≠ []) :
    (∃ after, (rootScope source set).Fetches id typeName set (rootScope source set).opening after) ↔
      ((rootScope source set).within nodeType).Opens ∧
        ((rootScope source set).within target).Accepts set.selections := by
  obtain ⟨field, hfield, hnode, hid⟩ := hf.declared
  rw [← Scope.accepts_iff]
  constructor
  · rintro ⟨after, nodeType', target', inner, hopens, hadmits, hrebuilds, -, htakes, -⟩
    obtain rfl : nodeType' = nodeType := by
      obtain ⟨-, declared, hdeclared, hget, -⟩ := htakes.1.1
      obtain rfl : declared = field := Option.some.inj (hdeclared.symm.trans hfield)
      exact Option.some.inj (hget.symm.trans hnode)
    obtain rfl := Scope.Admits.unique hadmits ha
    exact ⟨hopens, inner, hrebuilds⟩
  · rintro ⟨hopens, inner, hrebuilds⟩
    have hcomposite : nodeType.isComposite = true := by
      simp [TypeDescriptor.isComposite, TypeKind.isComposite, hf.interface]
    exact ⟨_, Scope.fetches_opening rfl hfield hnode hid hcomposite hopens ha hrebuilds
      (hrebuilds.ne_nil (.inr hne))⟩

/-- The query for an object is built exactly if the type takes the selections. -/
theorem fetch_eq_ok_iff (hd : source.operation.Declares source.bundle)
    (hf : source.bundle.FetchesById nodeType)
    (ha : ((rootScope source set).within nodeType).Admits typeName target)
    (hne : set.selections ≠ []) (name : Option String) (path : List String) :
    (∃ next, fetch source name id typeName set path = .ok next) ↔
      source.bundle.Starts source.bundle.queryRoot ∧ source.bundle.Starts nodeType ∧
        ((rootScope source set).within target).Accepts set.selections := by
  have hscope : (draft source.operation .query name set (nodeProgram id typeName set)).scope
      source.bundle = .ok (rootScope source set) :=
    scope_draft hd .query name (nodeProgram id typeName set) rfl
  have hstart : (rootScope source set).Opens ↔ source.bundle.Starts source.bundle.queryRoot :=
    Scope.opens_iff
  have hstartNode : ((rootScope source set).within nodeType).Opens ↔ source.bundle.Starts nodeType :=
    Scope.opens_iff
  have hfetchable : (∃ after, (rootScope source set).Fetches id typeName set
      (rootScope source set).opening after) ↔ _ := fetches_iff hf ha hne
  rw [← hstart, ← hstartNode, ← hfetchable]
  constructor
  · rintro ⟨next, hnext⟩
    obtain ⟨hbuild, -, -⟩ := ofDraft_eq_ok hnext
    obtain ⟨scope, made, hmade, hset, -⟩ := OperationDraft.build_eq_ok hbuild
    obtain rfl : rootScope source set = scope := Except.ok.inj (hscope.symm.trans hmade)
    have hrun := OperationDraft.buildSet_of_runs fun _ : (rootScope source set).Opens =>
      Scope.runs_nodeProgram (rootScope source set) id typeName set (rootScope source set).opening
    have hprogram : (OperationDraft.buildSet (rootScope source set)
        (nodeProgram id typeName set)).result = .ok made := hset
    rw [hprogram] at hrun
    exact ⟨hrun.2.2.1, _, hrun.2.2.2⟩
  · rintro ⟨hopens, after, hfetches⟩
    exact ⟨_, ofDraft_of_build path (OperationDraft.build_of_fetches hscope rfl hopens hfetches)⟩

end FollowUp

end GraphQLClient
