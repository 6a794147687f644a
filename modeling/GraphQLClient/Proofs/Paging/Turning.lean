import GraphQLClient.Proofs.Paging.Chains
import GraphQLClient.Proofs.Paging.Lasting

set_option autoImplicit false

/-!
# Asking from the root once more

A query for a next page that is asked from the root keeps all that pruning keeps of the operation. The
query that is made of it for the page after that is therefore the one that the operation itself has for
the new cursor, with the same declarations and values.
-/

namespace GraphQLClient

namespace Scope

variable {scope : Scope} {cursor key : String} {rest : List String}

theorem leaf_of_mem_opening {selection : Selection} (h : selection ∈ scope.opening) :
    ∃ name, selection = .leaf (.plain name) := by
  unfold opening at h
  rcases List.mem_append.1 h with h | h
  · split at h
    · exact ⟨_, List.mem_singleton.1 h⟩
    · cases h
  · split at h
    · exact ⟨_, List.mem_singleton.1 h⟩
    · cases h

/-- What is kept of leaves are leaves of their keys. -/
theorem leaf_of_pruned_opening {kept : Selection × Bool}
    (h : kept ∈ Selection.pruneEach cursor key rest scope.opening) :
    ∃ field, kept.1 = .leaf field ∧
      (scope.opening.find? (Selection.answers field.responseKey)).isSome = true := by
  obtain ⟨selection, hs, hkept⟩ := Selection.mem_pruneEach.1 h
  obtain ⟨name, rfl⟩ := leaf_of_mem_opening hs
  have hanswered : (scope.opening.find? (Selection.answers (Field.plain name).responseKey)).isSome =
      true := by
    rw [List.find?_isSome]
    exact ⟨_, hs, beq_self_eq_true _⟩
  obtain ⟨-, -, rfl⟩ | ⟨-, -, rfl⟩ := Selection.pruneOne_leaf_cases hkept
  · exact ⟨_, rfl, hanswered⟩
  · exact ⟨_, rfl, hanswered⟩

/-- Leaves whose keys are answered add nothing. -/
theorem RebuildsAll.eq_of_answered {selections before after : List Selection}
    (hl : ∀ selection ∈ selections, ∃ field, selection = .leaf field ∧
      (before.find? (Selection.answers field.responseKey)).isSome = true)
    (h : scope.RebuildsAll selections before after) : after = before := by
  induction selections with
  | nil => exact h
  | cons selection others ih =>
    obtain ⟨between, hfirst, hrest⟩ := h
    obtain ⟨field, rfl, hanswered⟩ := hl selection List.mem_cons_self
    unfold Rebuilds at hfirst
    obtain rfl : between = before := by rw [hfirst.2, Selection.settled, if_pos hanswered]
    exact ih (fun other ho => hl other (List.mem_cons_of_mem _ ho)) hrest

end Scope

/-- What a new set on the type starts with. -/
def Bundle.opening (bundle : Bundle) (type : TypeDescriptor) : List Selection :=
  (⟨bundle, [], type⟩ : Scope).opening

/-- The operation selects on its root what a new set starts with, and more; its set is framed, and the
root declares its fields. -/
structure Operation.Begun (bundle : Bundle) (operation : Operation) (root : TypeDescriptor)
    (rest : List Selection) : Prop where
  rooted : OperationDraft.root? bundle operation.kind = .ok root
  set : operation.set = ⟨root.name, bundle.opening root ++ rest⟩
  framed : Selection.EverywhereAll (Selection.Framed bundle) operation.set.selections
  declared : ∀ selection ∈ operation.set.selections, selection.DeclaredBy root
  distinct : Selection.Distinct operation.set.selections

theorem OperationDraft.begun_of_build {bundle : Bundle} {draft : OperationDraft}
    {operation : Operation}
    (hd : ∀ fragment ∈ Step.fragmentsOfAll draft.program, fragment.DefinedOver bundle)
    (h : (draft.build bundle).result = .ok operation) :
    ∃ root rest, operation.Begun bundle root rest := by
  obtain ⟨root, hroot, ⟨hname, -, hdistinct⟩, hvalid⟩ := (valid_of_validOver (fun fragment hm =>
    Fragment.validOver_of_definedOver (hd fragment hm)) h).root
  obtain ⟨scope, set, hscope, hset, rfl⟩ := build_eq_ok h
  obtain ⟨hroot', -⟩ := scope_eq_ok hscope
  obtain rfl : scope.type = root := Except.ok.inj (hroot'.symm.trans hroot)
  obtain ⟨-, -, -, -, rest, hopening⟩ := freelyGrown_of_buildSet hset
  obtain ⟨typeName, selections⟩ := set
  obtain rfl : typeName = scope.type.name := hname
  obtain rfl : scope.opening ++ rest = selections := hopening
  exact ⟨scope.type, rest, hroot, rfl, Selection.framed_of_allValidOn hvalid, hvalid.declaredBy,
    hdistinct⟩

namespace FollowUp

/-- A follow-up query, but for the texts of cursors. -/
def blank (next : FollowUp) : FollowUp :=
  { next with operation := { next.operation with
      set := ⟨next.operation.set.typeName, Selection.blankAll next.operation.set.selections⟩ } }

theorem size_of_blank {next other : FollowUp} (h : next.blank = other.blank) :
    Selection.sizeAll next.operation.set.selections =
      Selection.sizeAll other.operation.set.selections := by
  have hset := congrArg (fun followUp : FollowUp =>
    Selection.sizeAll followUp.operation.set.selections) h
  simpa only [blank, Selection.sizeAll_blankAll] using hset

/-- What is declared of an operation depends on the variables only that a set uses. -/
theorem declared_congr (origin : Operation) {set set' : SelectionSet}
    (h : Selection.usesInAll set.selections = Selection.usesInAll set'.selections) :
    declared origin set = declared origin set' := by
  rw [declared, declared, SelectionSet.references, SelectionSet.references, h]

theorem usedVariables_usedVariables {operation : Operation} (values : List (String × Json))
    (hd : (operation.declarations.map (·.name)).Nodup) :
    usedVariables operation (usedVariables operation values) = usedVariables operation values := by
  refine List.filterMap_congr fun definition hdefinition => ?_
  have hfind : Keyed.find? definition.name (usedVariables operation values) =
      (operation.declarations.find? (·.name == definition.name)).bind fun found =>
        Keyed.find? found.name values :=
    Keyed.find?_filterMap VariableDefinition.name (fun found => Keyed.find? found.name values)
      definition.name hd
  have hsome : (operation.declarations.find? (·.name == definition.name)).isSome = true := by
    rw [List.find?_isSome]
    exact ⟨definition, hdefinition, beq_self_eq_true definition.name⟩
  obtain ⟨found, hfound⟩ := Option.isSome_iff_exists.1 hsome
  have hname := List.find?_some hfound
  rw [beq_iff_eq] at hname
  rw [hfind, hfound, Option.bind_some, hname]

/-- Of what is declared for a set, the same is declared for another set with the same variables. -/
theorem declared_again {source : Source} {current : Operation} {kept pruned : SelectionSet}
    (hc : current.declarations = declared source.operation kept)
    (hd : current.directives = source.operation.directives)
    (h : Selection.usesInAll kept.selections = Selection.usesInAll pruned.selections) :
    declared current pruned = declared source.operation pruned := by
  have huses : current.directiveUses = source.operation.directiveUses := by
    rw [Operation.directiveUses, hd]
    rfl
  rw [declared, hc, declared_congr source.operation h, huses, declared, List.filter_filter]
  simp only [Bool.and_self]

/-- A query that is made of the query before, which declares the same, is that made of the operation
before. -/
theorem ofDraft_again {source : Source} {current : FollowUp} {kind : OperationKind}
    {name : Option String} {program : List Step} {path : List String} {kept pruned : SelectionSet}
    (hd : source.operation.Declares source.bundle)
    (hc : current.operation.declarations = declared source.operation kept)
    (hdirectives : current.operation.directives = source.operation.directives)
    (hvalues : current.values = usedVariables current.operation source.values)
    (h : Selection.usesInAll kept.selections = Selection.usesInAll pruned.selections) :
    ofDraft ⟨source.bundle, current.operation, current.values⟩
        (draft current.operation kind name pruned program) path =
      ofDraft source (draft source.operation kind name pruned program) path := by
  have hdraft : draft current.operation kind name pruned program =
      draft source.operation kind name pruned program := by
    have hdeclared := congrArg (List.map VariableDraft.ofDefinition) (declared_again hc hdirectives h)
    rw [draft, draft, hdirectives]
    exact congrArg (fun declarations => OperationDraft.mk kind name declarations _ program) hdeclared
  rw [hdraft]
  cases hb : ((draft source.operation kind name pruned program).build source.bundle).result with
  | error e => rw [ofDraft, ofDraft, hb]
  | ok operation =>
    have hmade := ofDraft_of_build path hb
    have hoperation := congrArg Operation.declarations (operation_of_ofDraft hd hmade)
    have hsame : current.operation.declarations = operation.declarations := by
      rw [hc, declared_congr source.operation h]
      exact hoperation.symm
    have hused : current.values = usedVariables operation source.values := by
      rw [hvalues, usedVariables, usedVariables, hsame]
    have hdistinct : (operation.declarations.map (·.name)).Nodup := by
      rw [hoperation]
      exact (hd.declared.filter _).distinct
    simp only [ofDraft, hb, hused, usedVariables_usedVariables source.values hdistinct]

end FollowUp

namespace PageMark

variable {mark : PageMark} {current next : FollowUp} {root : TypeDescriptor} {rest : List Selection}

/-- The set of a query that is asked from the root. -/
theorem set_of_unanchored (hb : mark.source.operation.Begun mark.source.bundle root rest)
    (hu : mark.usableAnchor? = none) {key : String} {keys : List String}
    (hk : mark.path = key :: keys) (hq : mark.nextPage = .ok next) :
    next.operation.set = ⟨root.name, mark.source.bundle.opening root ++
      (Selection.pruneEach mark.cursor key keys rest).map Prod.fst⟩ := by
  obtain ⟨scope, hbundle, hroot, -, hname, hrebuilds⟩ := nextPage_unanchored hu hk hq
  rw [hbundle] at hroot
  obtain rfl : scope.type = root := Except.ok.inj (hroot.symm.trans hb.rooted)
  rw [hb.set, Selection.pruneEach_append, List.map_append] at hrebuilds
  obtain ⟨between, hopening, hrest⟩ := Scope.rebuildsAll_append.1 hrebuilds
  obtain rfl : between = scope.opening := by
    refine Scope.RebuildsAll.eq_of_answered (fun selection hs => ?_) hopening
    obtain ⟨kept, hkept, rfl⟩ := List.mem_map.1 hs
    exact Scope.leaf_of_pruned_opening hkept
  have hleft : Selection.LeftOf (key :: keys) rest
      ((Selection.pruneEach mark.cursor key keys rest).map Prod.fst) :=
    Selection.leftOf_pruneEach List.mem_cons_self rest
  have hframed := hb.framed
  have hdeclared := hb.declared
  have hdistinct := hb.distinct
  rw [hb.set] at hframed hdeclared hdistinct
  have hkept := Selection.keepsEverywhere (Selection.hereditary_framed (key :: keys) mark.source.bundle)
    mark.cursor (List.Subset.refl _) key keys rfl rest (Selection.everywhereAll_append.1 hframed).2
  have hsame : next.operation.set.selections = scope.opening ++
      (Selection.pruneEach mark.cursor key keys rest).map Prod.fst := by
    refine Scope.RebuildsAll.eq_of_framed (hbundle ▸ Selection.everywhereAll_iff.2 fun selection hs => ?_)
      (hleft.declaredBy fun selection hs => hdeclared selection (List.mem_append_right _ hs))
      (hleft.distinct_beside hdistinct) hrest
    obtain ⟨kept, hkeep, rfl⟩ := List.mem_map.1 hs
    exact hkept kept hkeep
  calc next.operation.set = ⟨next.operation.set.typeName, next.operation.set.selections⟩ := rfl
    _ = _ := by rw [hname, hsame]; rfl

/-- Pruning a query that is asked from the root keeps what pruning the operation before keeps. -/
theorem prune_of_unanchored (hb : mark.source.operation.Begun mark.source.bundle root rest)
    (hu : mark.usableAnchor? = none) (hq : mark.nextPage = .ok next) (cursor : String) :
    next.operation.set.prune mark.path cursor =
      mark.source.operation.set.prune mark.path cursor := by
  obtain ⟨pruned, hp, -⟩ := nextPage_of_unanchored hu hq
  obtain ⟨key, keys, hk⟩ := SelectionSet.keys_of_prune hp
  rw [hk, set_of_unanchored hb hu hk hq, hb.set, SelectionSet.prune, SelectionSet.prune,
    Selection.pruneEach_append, Selection.pruneEach_append,
    Selection.overrides mark.cursor cursor (key :: keys) key keys rfl rest]

/-- A page that is asked for from the root once more is asked for as by the first mark. -/
theorem nextPage_turned {later : PageMark}
    (hb : mark.source.operation.Begun mark.source.bundle root rest)
    (hd : mark.source.operation.Declares mark.source.bundle) (hu : mark.usableAnchor? = none)
    (hq : mark.nextPage = .ok current)
    (hs : later.source = ⟨mark.source.bundle, current.operation, current.values⟩)
    (hp : later.path = current.path) (hl : later.usableAnchor? = none) :
    later.nextPage = ({ mark with cursor := later.cursor } : PageMark).nextPage := by
  have hprune := prune_of_unanchored hb hu hq later.cursor
  obtain ⟨kept, hkept, hcurrent⟩ := nextPage_of_unanchored hu hq
  obtain ⟨-, hpath, hvalues⟩ := FollowUp.ofDraft_eq_ok hcurrent
  have hoperation := FollowUp.operation_of_ofDraft hd hcurrent
  have hu' : ({ mark with cursor := later.cursor } : PageMark).usableAnchor? = none := hu
  unfold nextPage
  simp only [hl, hu', hs, hp, hpath, hprune]
  cases hpruned : mark.source.operation.set.prune mark.path later.cursor with
  | none => rfl
  | some pruned =>
    have huses := SelectionSet.uses_of_prune hkept hpruned
    have hagain : ∀ path, FollowUp.ofDraft ⟨mark.source.bundle, current.operation, current.values⟩
        (FollowUp.draft current.operation mark.source.operation.kind mark.source.operation.name pruned
          [.extend pruned]) path = _ := fun path =>
      FollowUp.ofDraft_again hd (by rw [hoperation]) (by rw [hoperation]) hvalues huses
    have hkind : current.operation.kind = mark.source.operation.kind := by rw [hoperation]
    have hname : current.operation.name = mark.source.operation.name := by rw [hoperation]
    simp only [hkind, hname]
    exact hagain mark.path

/-- Whatever the cursor, the query from the root is the same but for the texts of cursors. -/
theorem blank_turned (hb : mark.source.operation.Begun mark.source.bundle root rest)
    (hd : mark.source.operation.Declares mark.source.bundle) (hu : mark.usableAnchor? = none)
    (hq : mark.nextPage = .ok current) {cursor : String}
    (hn : ({ mark with cursor := cursor } : PageMark).nextPage = .ok next) :
    next.blank = current.blank := by
  obtain ⟨kept, hkept, hcurrent⟩ := nextPage_of_unanchored hu hq
  obtain ⟨pruned, hpruned, hnext⟩ :=
    @nextPage_of_unanchored { mark with cursor := cursor } next hu hn
  obtain ⟨key, keys, hk⟩ := SelectionSet.keys_of_prune hkept
  have hset := set_of_unanchored hb hu hk hq
  have hset' : next.operation.set = _ :=
    @set_of_unanchored { mark with cursor := cursor } next root rest hb hu key keys hk hn
  obtain ⟨-, hpath, hvalues⟩ := FollowUp.ofDraft_eq_ok hcurrent
  obtain ⟨-, hpath', hvalues'⟩ := FollowUp.ofDraft_eq_ok hnext
  have hoperation := FollowUp.operation_of_ofDraft hd hcurrent
  have hoperation' := FollowUp.operation_of_ofDraft hd hnext
  have hdeclared := FollowUp.declared_congr mark.source.operation
    (SelectionSet.uses_of_prune hpruned hkept)
  have hblank := Selection.blankAll_pruneEach cursor mark.cursor key keys rest
  have hsame : next.values = current.values := by
    rw [hvalues, hvalues', hoperation, hoperation', FollowUp.usedVariables, FollowUp.usedVariables]
    simp only [hdeclared]
  rw [FollowUp.blank, FollowUp.blank, hoperation, hoperation', hset, hset']
  simp only [hpath, hpath', hsame, hdeclared, Selection.blankAll_append, hblank]

end PageMark

end GraphQLClient
