import GraphQLClient.Proofs.Decoding.Starts
import GraphQLClient.Proofs.Paging.FollowUps
import GraphQLClient.Proofs.Paging.Lanes

set_option autoImplicit false

/-!
# Requests for further pages

A page mark at the end of a lane always has a query for the next page: the lane trimmed to its keys,
with the cursor at its end. The query is itself one whose marks have a lane.
-/

namespace GraphQLClient

open Building

/-- Objects of all types that say so can be fetched by their id, through an interface. -/
structure Bundle.FetchesNodes (bundle : Bundle) (nodeType : TypeDescriptor) : Prop where
  declared : ∃ field, bundle.nodeField? = some field ∧ bundle.get? field.typeName = some nodeType ∧
    Keyed.contains "id" field.arguments = true
  interface : nodeType.kind = .interface
  implementsNode : nodeType.implementsNode = true
  canBe : ∀ name type, bundle.get? name = some type → type.implementsNode = true →
    nodeType.canBe name = true
  identified : ∀ name type, bundle.get? name = some type → type.implementsNode = true →
    type.isComposite = true ∧ ∃ field leaf, type.field? "id" = some field ∧
      bundle.get? field.typeName = some leaf ∧ leaf.isComposite = false

namespace Bundle.FetchesNodes

variable {bundle : Bundle} {nodeType : TypeDescriptor} {scope : Scope}

theorem offersId (h : bundle.FetchesNodes nodeType) (hb : scope.bundle = bundle)
    (hk : bundle.get? scope.type.name = some scope.type) (hn : scope.type.implementsNode = true) :
    scope.OffersLeaf "id" [] := by
  obtain ⟨-, field, leaf, hf, hl, hc⟩ := h.identified _ _ hk hn
  refine .inr ⟨leaf, ⟨by decide, field, hf, hb ▸ hl, ?_⟩, hc⟩
  exact fun _ ha => absurd ha List.not_mem_nil

theorem opens (h : bundle.FetchesNodes nodeType) (hb : scope.bundle = bundle)
    (hk : bundle.get? scope.type.name = some scope.type) : scope.Opens := by
  intro hi
  rw [Bool.and_eq_true] at hi
  exact h.offersId hb hk hi.1

end Bundle.FetchesNodes

namespace Scope

/-- A valid set that starts like any other is made anew as it is. -/
theorem rebuildsAll_of_opening {scope : Scope} {selections : List Selection} (ho : scope.Opens)
    (hp : scope.opening <+: selections) (hv : Selection.AllValidOn scope selections)
    (hd : Selection.Distinct selections) :
    scope.RebuildsAll selections scope.opening selections := by
  obtain ⟨rest, rfl⟩ := hp
  exact rebuildsAll_append.2 ⟨_, rebuildsAll_opening ho,
    rebuildsAll_of_validOn (Selection.allValidOn_append.1 hv).2 hd⟩

end Scope

namespace VariableDraft

variable {bundle : Bundle}

/-- Definitions of variables are taken over as they are. -/
theorem resolveAll_ofDefinition {definitions : List VariableDefinition}
    (h : bundle.Declares definitions) :
    resolveAll bundle (definitions.map ofDefinition) = .ok definitions := by
  have hfold : ∀ (definitions resolved : List VariableDefinition),
      bundle.Declares (resolved ++ definitions) →
      (definitions.map ofDefinition).foldlM (resolve bundle) resolved =
        .ok (resolved ++ definitions) := by
    intro definitions
    induction definitions with
    | nil => intro resolved _; rw [List.append_nil]; rfl
    | cons definition rest ih =>
      intro resolved hr
      have hnodup := hr.distinct
      rw [List.map_append, List.nodup_append] at hnodup
      have hstep : resolve bundle resolved (ofDefinition definition) =
          .ok (resolved ++ [definition]) := by
        refine resolve_eq_ok_iff.2 ⟨fun found hf he => ?_, definition.type, rfl, ?_, rfl⟩
        · exact hnodup.2.2 _ (List.mem_map_of_mem hf) _ List.mem_cons_self he
        · exact hr.known definition (List.mem_append_right _ List.mem_cons_self)
      rw [List.map_cons, List.foldlM_cons, hstep]
      have hrest := ih (resolved ++ [definition]) (by rwa [List.append_assoc])
      rw [List.append_assoc] at hrest
      exact hrest
  exact hfold definitions [] h

end VariableDraft

/-- What is declared stays in order where some of it is left out. -/
theorem Bundle.Declares.filter {bundle : Bundle} {definitions : List VariableDefinition}
    (h : bundle.Declares definitions) (keep : VariableDefinition → Bool) :
    bundle.Declares (definitions.filter keep) :=
  ⟨h.distinct.sublist (List.filter_sublist.map _),
    fun definition hd => h.known definition (List.mem_filter.1 hd).1⟩

/-- The directives of the operation use declared variables only. -/
structure Operation.Declares (bundle : Bundle) (operation : Operation) : Prop where
  declared : bundle.Declares operation.declarations
  directives : ∀ used ∈ operation.directiveUses,
    ∃ definition ∈ operation.declarations, definition.name = used

namespace OperationDraft

variable {bundle : Bundle} {draft : OperationDraft} {scope : Scope}

/-- A run without errors makes an operation. -/
theorem build_of_runs {after : List Selection} {E : BuildError → List Selection → Prop}
    (hs : draft.scope bundle = .ok scope) (ho : scope.Opens)
    (hr : Runs scope.opening (Step.runAll scope draft.program) (fun _ s => s = after) E)
    (hE : ∀ e s, ¬ E e s) (hne : after ≠ []) :
    (draft.build bundle).result = .ok ⟨draft.kind, draft.name, scope.declarations, draft.directives,
      ⟨scope.type.name, after⟩⟩ := by
  have hset := buildSet_of_runs fun _ : scope.Opens => hr
  unfold build
  rw [hs]
  cases hb : (buildSet scope draft.program).result with
  | error e =>
    rw [hb] at hset
    rcases hset with hn | ⟨s, he⟩ | hn
    · exact absurd ho hn
    · exact absurd he (hE e s)
    · exact absurd hn.symm hne
  | ok set =>
    rw [hb] at hset
    obtain ⟨hname, -, -, hselections⟩ := hset
    obtain ⟨typeName, selections⟩ := set
    obtain rfl : typeName = scope.type.name := hname
    obtain rfl : selections = after := hselections
    simp only [hb, Except.map]

end OperationDraft

namespace FollowUp

/-- The variables of an operation that a set or the directives use. -/
def declared (origin : Operation) (set : SelectionSet) : List VariableDefinition :=
  origin.declarations.filter fun definition =>
    (set.references ++ origin.directiveUses).contains definition.name

variable {bundle : Bundle} {origin : Operation} {set : SelectionSet}

theorem scope_draft (h : origin.Declares bundle) (kind : OperationKind) (name : Option String)
    (program : List Step) {root : TypeDescriptor} (hr : OperationDraft.root? bundle kind = .ok root) :
    (draft origin kind name set program).scope bundle = .ok ⟨bundle, declared origin set, root⟩ := by
  have hresolved : VariableDraft.resolveAll bundle (draft origin kind name set program).declarations =
    .ok (declared origin set) := VariableDraft.resolveAll_ofDefinition (h.declared.filter _)
  have hdirectives : OperationDraft.undeclaredInDirectives?
      (draft origin kind name set program).directives (declared origin set) = none := by
    rw [OperationDraft.undeclaredInDirectives?_eq_none_iff]
    intro used hu
    obtain ⟨definition, hd, rfl⟩ := h.directives used hu
    refine List.any_eq_true.2 ⟨definition, List.mem_filter.2 ⟨hd, ?_⟩, by simp⟩
    simpa using .inr hu
  have hroot : OperationDraft.root? bundle (draft origin kind name set program).kind = .ok root := hr
  unfold OperationDraft.scope
  simp only [hroot, hresolved, hdirectives]

/-- A set that is valid with the variables of the operation needs only those that are declared. -/
theorem validOn_declared {type : TypeDescriptor}
    (hv : Selection.AllValidOn ⟨bundle, origin.declarations, type⟩ set.selections) :
    Selection.AllValidOn ⟨bundle, declared origin set, type⟩ set.selections := by
  have halike : (⟨bundle, origin.declarations, type⟩ : Scope).Alike
    ⟨bundle, declared origin set, type⟩ := ⟨rfl, rfl⟩
  refine Scope.allValidOn_of_declares halike (fun used hu hd => ?_) hv
  obtain ⟨definition, hm, he⟩ := List.any_eq_true.1 hd
  refine List.any_eq_true.2 ⟨definition, List.mem_filter.2 ⟨hm, ?_⟩, he⟩
  have hname : definition.name = used := by simpa using he
  simpa [hname, SelectionSet.references, List.mem_eraseDups] using .inl hu

theorem declares_declared (h : origin.Declares bundle) {kind : OperationKind} {name : Option String}
    {made : SelectionSet} :
    Operation.Declares bundle ⟨kind, name, declared origin set, origin.directives, made⟩ := by
  refine ⟨h.declared.filter _, fun used hu => ?_⟩
  obtain ⟨definition, hd, rfl⟩ := h.directives used hu
  exact ⟨definition, List.mem_filter.2 ⟨hd, by simpa using .inr hu⟩, rfl⟩

/-- All of a follow-up query but its set is known before it is built. -/
theorem operation_of_ofDraft {source : Source} {kind : OperationKind} {name : Option String}
    {program : List Step} {path : List String} {next : FollowUp}
    (hd : source.operation.Declares source.bundle)
    (h : ofDraft source (draft source.operation kind name set program) path = .ok next) :
    next.operation = ⟨kind, name, declared source.operation set, source.operation.directives,
      next.operation.set⟩ := by
  obtain ⟨hb, -, -⟩ := ofDraft_eq_ok h
  obtain ⟨scope, made, hscope, -, hoperation⟩ := OperationDraft.build_eq_ok hb
  obtain ⟨hroot, -⟩ := OperationDraft.scope_eq_ok hscope
  have hsame := Except.ok.inj ((scope_draft hd kind name program hroot).symm.trans hscope)
  have hdeclared : scope.declarations = declared source.operation set :=
    (congrArg Scope.declarations hsame).symm
  rw [hoperation, hdeclared]
  rfl

end FollowUp

/-- The set is a lane, and the scope takes what is kept of it. -/
structure Selection.Paved (scope : Scope) (nodes : SelectionSet) (keys : List String)
    (selections : List Selection) : Prop where
  lane : Selection.Lane scope.bundle nodes scope.type keys selections
  valid : Selection.KeptValidOn scope keys selections
  distinct : Selection.Distinct selections

/-- The way from the object with the id is a lane. -/
def NodeAnchor.Paved (anchor : NodeAnchor) (bundle : Bundle)
    (declarations : List VariableDefinition) (nodes : SelectionSet) (path : List String) : Prop :=
  ∃ type, bundle.get? anchor.typeName = some type ∧ type.implementsNode = true ∧
    Selection.Paved ⟨bundle, declarations, type⟩ nodes (path.drop anchor.depth)
      anchor.set.selections

/-- The way from the root is a lane. -/
def Operation.Paved (operation : Operation) (bundle : Bundle) (nodes : SelectionSet)
    (path : List String) : Prop :=
  ∃ scope : Scope, scope.bundle = bundle ∧ scope.declarations = operation.declarations ∧
    OperationDraft.root? bundle operation.kind = .ok scope.type ∧ scope.type.kind = .object ∧
    operation.set.typeName = scope.type.name ∧ scope.opening <+: operation.set.selections ∧
    Selection.Paved scope nodes path operation.set.selections

/-- The mark stands at the end of a lane from the anchor, or from the root if there is none. -/
structure PageMark.Paved (bundle : Bundle) (nodes : SelectionSet) (mark : PageMark) : Prop where
  sourced : mark.source.bundle = bundle
  declares : mark.source.operation.Declares bundle
  anchored : ∀ anchor, mark.anchor = some anchor →
    anchor.Paved bundle mark.source.operation.declarations nodes mark.path
  rooted : mark.anchor = none → mark.source.operation.Paved bundle nodes mark.path

/-- The cursor that an operation asks to go on from at the end of a path. -/
def Operation.after? (operation : Operation) (path : List String) : Option String :=
  (Selection.fieldAt? path operation.set.selections).bind Selection.after?

/-- The query goes on from the mark, along a lane of its own. -/
structure FollowUp.Continues (bundle : Bundle) (nodeType : TypeDescriptor) (nodes : SelectionSet)
    (mark : PageMark) (next : FollowUp) : Prop where
  declares : next.operation.Declares bundle
  after : next.operation.after? next.path = some mark.cursor
  rooted : mark.usableAnchor? = none → next.operation.Paved bundle nodes next.path
  anchored : ∀ anchor, mark.usableAnchor? = some anchor → ∃ (scope : Scope) (target : TypeDescriptor)
      (inner : List Selection) (keys : List String),
    scope.bundle = bundle ∧ scope.declarations = next.operation.declarations ∧
    scope.type = bundle.queryRoot ∧ bundle.get? anchor.typeName = some target ∧
    target.implementsNode = true ∧ next.path = nodeFieldName :: keys ∧
    next.operation.set = ⟨scope.type.name, scope.opening ++
      [.composite (Scope.fetching anchor.id) nodeType.name
        ((scope.within nodeType).narrowed target inner)]⟩ ∧
    Selection.Paved (scope.within target) nodes keys ((scope.within nodeType).narrowed target inner)

theorem Scope.Fetches.unique {scope : Scope} {id typeName : String} {set : SelectionSet}
    {before after after' : List Selection} (h : scope.Fetches id typeName set before after)
    (h' : scope.Fetches id typeName set before after') : after = after' := by
  obtain ⟨nodeType, target, inner, -, ha, hi, -, ht, rfl⟩ := h
  obtain ⟨nodeType', target', inner', -, ha', hi', -, ht', rfl⟩ := h'
  obtain rfl := Offers.unique ht.1.1 ht'.1.1
  obtain rfl := Admits.unique ha ha'
  rw [RebuildsAll.unique hi hi']

/-- A query that fetches an object is built as soon as what it selects is known. -/
theorem OperationDraft.build_of_fetches {bundle : Bundle} {draft : OperationDraft} {scope : Scope}
    {id typeName : String} {set : SelectionSet} {after : List Selection}
    (hs : draft.scope bundle = .ok scope) (hp : draft.program = FollowUp.nodeProgram id typeName set)
    (ho : scope.Opens) (h : scope.Fetches id typeName set scope.opening after) :
    (draft.build bundle).result = .ok ⟨draft.kind, draft.name, scope.declarations, draft.directives,
      ⟨scope.type.name, after⟩⟩ := by
  have hne : after ≠ [] := by
    obtain ⟨_, _, _, -, -, -, -, -, rfl⟩ := h
    rw [Scope.settled_first (by decide) (by decide)]
    exact List.append_ne_nil_of_right_ne_nil _ (List.cons_ne_nil _ _)
  have hruns : Runs scope.opening (Step.runAll scope draft.program) (fun _ s => s = after)
      (fun _ _ => ∀ made, ¬ scope.Fetches id typeName set scope.opening made) := by
    rw [hp]
    exact runs_mono (Scope.runs_nodeProgram scope id typeName set scope.opening)
      (fun _ _ hm => Scope.Fetches.unique hm h) fun _ _ hn => hn
  exact build_of_runs hs ho hruns (fun _ _ hn => hn after h) hne

theorem FollowUp.ofDraft_of_build {source : Source} {draft : OperationDraft} {operation : Operation}
    (path : List String) (h : (draft.build source.bundle).result = .ok operation) :
    ofDraft source draft path = .ok ⟨operation, path, usedVariables operation source.values⟩ := by
  rw [ofDraft, h]

namespace Selection

theorem beside_opening {scope : Scope} {key : String} (ho : scope.Opens) (ht : key ≠ typenameField)
    (hi : scope.OffersLeaf "id" [] → key ≠ "id") : ∀ other ∈ scope.opening, other.Beside key := by
  intro other hm
  unfold Scope.opening at hm
  rcases List.mem_append.1 hm with hm | hm
  · split at hm
    · rename_i hid
      obtain rfl := List.mem_singleton.1 hm
      exact ⟨.plain "id", rfl, Ne.symm (hi (ho hid))⟩
    · cases hm
  · split at hm
    · obtain rfl := List.mem_singleton.1 hm
      exact ⟨.plain typenameField, rfl, Ne.symm ht⟩
    · cases hm

theorem filter_opening (scope : Scope) : scope.opening.filter isIdentityLeaf = scope.opening := by
  unfold Scope.opening
  split <;> split <;> rfl

theorem Paved.keys_ne_nil {scope : Scope} {nodes : SelectionSet} {keys : List String}
    {selections : List Selection} (h : Paved scope nodes keys selections) : keys ≠ [] :=
  h.lane.keys_ne_nil

/-- What a set starts with is not pruned. -/
theorem Paved.opening {scope : Scope} {nodes : SelectionSet} {cursor : String} {keys : List String}
    {selections trimmed : List Selection} (h : Paved scope nodes keys selections) (ho : scope.Opens)
    (ht : Trims scope.bundle nodes cursor scope.type keys selections trimmed)
    (hp : scope.opening <+: selections) : scope.opening <+: trimmed := by
  obtain ⟨key, keys, rfl⟩ := List.exists_cons_of_ne_nil h.keys_ne_nil
  obtain ⟨hname, hid⟩ := h.lane.head?_ne rfl rfl h.valid
  have hbeside : ∀ other ∈ scope.opening, other.Beside key :=
    beside_opening ho (fun he => hname (congrArg some he)) fun hl he => hid hl (congrArg some he)
  obtain ⟨rest, rfl⟩ := hp
  have hkept := SelectionSet.prune_eq_some (ht.pruned "")
  rw [pruneEach_append, pruneEach_beside hbeside, filter_opening, List.map_append, List.map_map] at hkept
  have hmap : scope.opening.map (Prod.fst ∘ fun selection => (selection, false)) = scope.opening :=
    List.map_id _
  rw [hmap] at hkept
  exact ⟨_, hkept.symm⟩

/-- A trimmed lane is valid with the variables that are left. -/
theorem Paved.trims {bundle : Bundle} {origin : Operation} {type : TypeDescriptor}
    {nodes : SelectionSet} {keys : List String} {selections : List Selection}
    (h : Paved ⟨bundle, origin.declarations, type⟩ nodes keys selections) (cursor typeName : String) :
    ∃ trimmed, Trims bundle nodes cursor type keys selections trimmed ∧
      Paved ⟨bundle, FollowUp.declared origin ⟨typeName, trimmed⟩, type⟩ nodes keys trimmed ∧
      AllValidOn ⟨bundle, FollowUp.declared origin ⟨typeName, trimmed⟩, type⟩ trimmed := by
  obtain ⟨trimmed, ht⟩ := h.lane.trims cursor
  have hvalid : AllValidOn ⟨bundle, origin.declarations, type⟩ trimmed :=
    ht.valid _ rfl rfl h.valid
  have hdeclared := @FollowUp.validOn_declared bundle origin ⟨typeName, trimmed⟩ type hvalid
  exact ⟨trimmed, ht, ⟨ht.lane, keptValidOn_of_allValidOn hdeclared keys, ht.distinct h.distinct⟩,
    hdeclared⟩

section

variable {scope : Scope} {nodeType : TypeDescriptor} {nodes : SelectionSet} {keys : List String}
  {inner : List Selection}

variable (h : Paved scope nodes keys inner) (hf : scope.bundle.FetchesNodes nodeType)
  (hk : scope.bundle.get? scope.type.name = some scope.type) (hn : scope.type.implementsNode = true)

include h hf hk hn

theorem Paved.beside_opening : ∀ other ∈ (scope.within nodeType).opening ++ [],
    ∀ key, keys.head? = some key → other.Beside key := by
  intro other ho key hkey
  obtain ⟨field, -, hnode, -⟩ := hf.declared
  have hopens : (scope.within nodeType).Opens := hf.opens rfl (Bundle.get?_self hnode)
  have hid : scope.OffersLeaf "id" [] := hf.offersId rfl hk hn
  obtain ⟨hname, hidKey⟩ := h.lane.head?_ne rfl rfl h.valid
  rw [List.append_nil] at ho
  exact Selection.beside_opening hopens (fun he => hname (he ▸ hkey))
    (fun _ he => hidKey hid (he ▸ hkey)) other ho

/-- Around the fragment on the type of the object nothing stands in the way. -/
theorem Paved.fieldAt?_narrowed :
    fieldAt? keys ((scope.within nodeType).narrowed scope.type inner) = fieldAt? keys inner := by
  have hbeside := h.beside_opening hf hk hn
  obtain ⟨key, keys, rfl⟩ := List.exists_cons_of_ne_nil h.keys_ne_nil
  rw [Scope.narrowed, fieldAt?_beside fun other ho => hbeside other ho key rfl,
    fieldAt?_inlineFragment]

/-- A path through the field that fetches the object goes on in what is selected on its type. -/
theorem Paved.fieldAt?_fetched {root : Scope} (ho : root.Opens) (id : String) :
    fieldAt? (nodeFieldName :: keys) (root.opening ++ [.composite (Scope.fetching id) nodeType.name
      ((scope.within nodeType).narrowed scope.type inner)]) = fieldAt? keys inner := by
  have hbeside : ∀ other ∈ root.opening ++ [], other.Beside nodeFieldName := by
    rw [List.append_nil]
    exact Selection.beside_opening ho (by decide) fun _ => by decide
  have hinner := h.fieldAt?_narrowed hf hk hn
  obtain ⟨key, keys, rfl⟩ := List.exists_cons_of_ne_nil h.keys_ne_nil
  calc fieldAt? (nodeFieldName :: key :: keys) (root.opening ++ [.composite (Scope.fetching id)
          nodeType.name ((scope.within nodeType).narrowed scope.type inner)])
      = fieldAt? (nodeFieldName :: key :: keys) [.composite (Scope.fetching id) nodeType.name
          ((scope.within nodeType).narrowed scope.type inner)] := fieldAt?_beside hbeside
    _ = fieldAt? (key :: keys) ((scope.within nodeType).narrowed scope.type inner) :=
        fieldAt?_composite (Scope.fetching id) _ _ _
    _ = fieldAt? (key :: keys) inner := hinner

/-- A lane on the type of an object leads on where a fragment on the type stands around it. -/
theorem Paved.narrowed (hv : AllValidOn scope inner) :
    Paved scope nodes keys ((scope.within nodeType).narrowed scope.type inner) := by
  have hbeside := h.beside_opening hf hk hn
  have hid : scope.OffersLeaf "id" [] := hf.offersId rfl hk hn
  have hopening : (scope.within nodeType).opening =
      (if (nodeType.field? "id").isSome then [.leaf (.plain "id")] else []) ++
        [.leaf (.plain typenameField)] := by
    simp [Scope.opening, Scope.within, hf.implementsNode, TypeDescriptor.isAbstract,
      TypeKind.isAbstract, hf.interface]
  refine ⟨?_, ?_, ?_⟩
  · obtain ⟨key, keys, rfl⟩ := List.exists_cons_of_ne_nil h.keys_ne_nil
    exact .fragment (fun other ho => hbeside other ho key rfl) hk h.lane
  · refine keptValidOn_of_allValidOn ?_ keys
    rw [Scope.narrowed, allValidOn_append, allValidOn_singleton, hopening]
    refine ⟨allValidOn_append.2 ⟨?_, allValidOn_singleton.2 ?_⟩, ?_⟩
    · split
      · exact allValidOn_singleton.2 (by unfold ValidOn; exact hid)
      · trivial
    · unfold ValidOn
      exact .inl ⟨rfl, rfl⟩
    · unfold ValidOn
      refine ⟨scope.type, ⟨hk, (hf.identified _ _ hk hn).1, ?_⟩, ⟨rfl, h.lane.ne_nil, h.distinct⟩,
        hv⟩
      simp [TypeDescriptor.overlaps, TypeDescriptor.canBe]
  · rw [Scope.narrowed, hopening]
    split
    · exact ⟨show ["id", typenameField].Nodup by decide, List.nodup_nil⟩
    · exact ⟨show [typenameField].Nodup by decide, List.nodup_nil⟩

end

end Selection

namespace PageMark.Paved

variable {bundle : Bundle} {nodeType : TypeDescriptor} {nodes : SelectionSet} {mark : PageMark}

/-- Without an anchor the query starts at the root. -/
theorem nextPage_rooted (h : mark.Paved bundle nodes) (hr : bundle.Rooted)
    (hf : bundle.FetchesNodes nodeType) (ha : mark.anchor = none) :
    ∃ next, mark.nextPage = .ok next ∧ next.Continues bundle nodeType nodes mark := by
  obtain ⟨rfl, hdeclares, -, hrooted⟩ := h
  obtain ⟨scope, hbundle, hdeclarations, hroot, hobject, hname, hopening, hpaved⟩ := hrooted ha
  obtain ⟨bundle, declarations, root⟩ := scope
  obtain rfl : bundle = mark.source.bundle := hbundle
  obtain rfl : declarations = mark.source.operation.declarations := hdeclarations
  obtain ⟨trimmed, htrims, hnext, hvalid⟩ :=
    hpaved.trims mark.cursor mark.source.operation.set.typeName
  have hnone : mark.usableAnchor? = none := by rw [usableAnchor?, ha]; rfl
  let pruned : SelectionSet := ⟨mark.source.operation.set.typeName, trimmed⟩
  let scope : Scope := ⟨mark.source.bundle, FollowUp.declared mark.source.operation pruned, root⟩
  let operation : Operation := ⟨mark.source.operation.kind, mark.source.operation.name,
    scope.declarations, mark.source.operation.directives, ⟨root.name, trimmed⟩⟩
  have hopens : scope.Opens := hf.opens rfl (hr.get?_root hroot)
  have hstart : scope.opening <+: trimmed :=
    hpaved.opening (hf.opens rfl (hr.get?_root hroot)) htrims hopening
  have hrebuilds := Scope.rebuildsAll_of_opening hopens hstart hvalid hnext.distinct
  have hbuild : ((FollowUp.draft mark.source.operation mark.source.operation.kind
      mark.source.operation.name pruned [.extend pruned]).build mark.source.bundle).result =
        .ok operation := by
    refine OperationDraft.build_of_runs (FollowUp.scope_draft hdeclares _ _ _ hroot) hopens
      (runs_mono (Scope.runs_extend scope pruned scope.opening) ?_ fun _ _ h => h)
      (fun _ _ hn => hn _ hrebuilds) htrims.lane.ne_nil
    exact fun _ _ hs => Scope.RebuildsAll.unique hs hrebuilds
  refine ⟨⟨operation, mark.path, FollowUp.usedVariables operation mark.source.values⟩, ?_,
    FollowUp.declares_declared hdeclares, htrims.cursor, fun _ => ?_, fun anchor hu => ?_⟩
  · unfold nextPage
    simp only [hnone, htrims.pruned mark.source.operation.set.typeName]
    exact FollowUp.ofDraft_of_build _ hbuild
  · exact ⟨scope, rfl, rfl, hroot, hobject, rfl, hstart, hnext⟩
  · rw [hnone] at hu
    cases hu

/-- With an anchor the query fetches the anchor. -/
theorem nextPage_anchored (h : mark.Paved bundle nodes) (hr : bundle.Rooted)
    (hf : bundle.FetchesNodes nodeType) {anchor : NodeAnchor} (ha : mark.anchor = some anchor) :
    ∃ next, mark.nextPage = .ok next ∧ next.Continues bundle nodeType nodes mark := by
  obtain ⟨rfl, hdeclares, hanchored, -⟩ := h
  obtain ⟨target, htarget, himplements, hpaved⟩ := hanchored anchor ha
  obtain ⟨trimmed, htrims, hnext, hvalid⟩ := hpaved.trims mark.cursor anchor.set.typeName
  obtain ⟨field, hfield, hnode, hid⟩ := hf.declared
  have husable : mark.usableAnchor? = some anchor := by
    have hne := hpaved.keys_ne_nil
    rw [ne_eq, List.drop_eq_nil_iff, Nat.not_le] at hne
    simp [usableAnchor?, ha, Option.filter, hne, hfield]
  let pruned : SelectionSet := ⟨anchor.set.typeName, trimmed⟩
  let scope : Scope := ⟨mark.source.bundle, FollowUp.declared mark.source.operation pruned,
    mark.source.bundle.queryRoot⟩
  let operation : Operation := ⟨.query, mark.source.operation.name, scope.declarations,
    mark.source.operation.directives, ⟨scope.type.name, scope.opening ++
      [.composite (Scope.fetching anchor.id) nodeType.name
        ((scope.within nodeType).narrowed target trimmed)]⟩⟩
  have hopens : scope.Opens := hf.opens rfl hr.query
  have hadmits : (scope.within nodeType).Admits anchor.typeName target := by
    refine ⟨htarget, (hf.identified _ _ htarget himplements).1, ?_⟩
    have hcan := hf.canBe _ _ htarget himplements
    rw [← Bundle.get?_name htarget] at hcan
    simp [TypeDescriptor.overlaps, Scope.within, hcan]
  have hcomposite : nodeType.isComposite = true := by
    simp [TypeDescriptor.isComposite, TypeKind.isComposite, hf.interface]
  have hfetches : scope.Fetches anchor.id anchor.typeName pruned scope.opening _ :=
    Scope.fetches_opening rfl hfield hnode hid hcomposite (hf.opens rfl (Bundle.get?_self hnode))
      hadmits (Scope.rebuildsAll_of_validOn hvalid hnext.distinct) htrims.lane.ne_nil
  have hbuild : ((FollowUp.draft mark.source.operation .query mark.source.operation.name pruned
      (FollowUp.nodeProgram anchor.id anchor.typeName pruned)).build mark.source.bundle).result =
        .ok operation :=
    OperationDraft.build_of_fetches (FollowUp.scope_draft hdeclares _ _ _ rfl) rfl hopens hfetches
  have hself := Bundle.get?_self htarget
  refine ⟨⟨operation, nodeFieldName :: mark.path.drop anchor.depth,
    FollowUp.usedVariables operation mark.source.values⟩, ?_,
    FollowUp.declares_declared hdeclares, ?_, fun hu => ?_, fun other hu => ?_⟩
  · unfold nextPage
    simp only [husable, htrims.pruned anchor.set.typeName]
    exact FollowUp.ofDraft_of_build _ hbuild
  · exact (congrArg (Option.bind · Selection.after?)
      (hnext.fieldAt?_fetched hf hself himplements hopens anchor.id)).trans htrims.cursor
  · rw [husable] at hu
    cases hu
  · obtain rfl := Option.some.inj (husable.symm.trans hu)
    exact ⟨scope, target, trimmed, _, rfl, rfl, rfl, htarget, himplements, rfl, rfl,
      hnext.narrowed hf hself himplements hvalid⟩

/-- A mark at the end of a lane has a query for the next page. -/
theorem nextPage (h : mark.Paved bundle nodes) (hr : bundle.Rooted)
    (hf : bundle.FetchesNodes nodeType) :
    ∃ next, mark.nextPage = .ok next ∧ next.Continues bundle nodeType nodes mark := by
  cases ha : mark.anchor with
  | none => exact h.nextPage_rooted hr hf ha
  | some anchor => exact h.nextPage_anchored hr hf ha

end PageMark.Paved

end GraphQLClient
