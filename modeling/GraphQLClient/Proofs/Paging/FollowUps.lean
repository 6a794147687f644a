import GraphQLClient.Paging.FollowUp
import GraphQLClient.Proofs.Building.Outcomes
import GraphQLClient.Proofs.Language.Everywhere
import GraphQLClient.Proofs.Paging.Pruning

set_option autoImplicit false

/-!
# Building follow-up queries

What holds of all fields and spreads of a set holds of what is kept of it, and of what a scope makes
of it: nothing is spread but fragments that were there. The build of a follow-up query says which set
the query has.
-/

namespace GraphQLClient

open Building

namespace Selection

/-- A property of fields and spreads that asks nothing about what stands below them, and that a cursor
does not change. -/
structure Shallow (P : Selection → Prop) : Prop where
  field : ∀ {a b : Selection} {field : Field},
    a.field? = some field → b.field? = some field → P a → P b
  cursor : ∀ {field : Field} (cursor : String), P (.leaf field) → P (.leaf (field.withCursor cursor))
  plain : ∀ name, P (.leaf (.plain name))
  inlineFragment : ∀ condition typeName selections, P (.inlineFragment condition typeName selections)

theorem shallow_registered (table : Nat → Option SelectionSet) : Shallow (Registered table) where
  field := by
    intro a b field _ hb _
    cases b with
    | spread => cases hb
    | _ => trivial
  cursor := fun _ _ => trivial
  plain := fun _ => trivial
  inlineFragment := fun _ _ _ => trivial

variable {P : Selection → Prop} {cursor : String}

theorem everywhere_replaceSet {key : String} {set : SelectionSet} {selections : List Selection}
    (hP : Shallow P) (hs : EverywhereAll P set.selections) (h : EverywhereAll P selections) :
    EverywhereAll P (replaceSet key set selections) := by
  rw [everywhereAll_iff] at h ⊢
  intro selection hm
  obtain ⟨old, ho, rfl⟩ := List.mem_map.1 hm
  split
  · cases old with
    | leaf field => exact ⟨hP.field rfl rfl (h _ ho), hs⟩
    | composite field typeName selections => exact ⟨hP.field rfl rfl (h _ ho).1, hs⟩
    | _ => exact h _ ho
  · exact h _ ho

theorem everywhere_replaceNodes {nodes : SelectionSet} {selections : List Selection}
    (hP : Shallow P) (hn : EverywhereAll P nodes.selections)
    (h : EverywhereAll P selections) :
    EverywhereAll P (replaceNodes nodes selections) := by
  unfold replaceNodes
  split
  · rename_i edges he
    have hedges := everywhere_below? h he
    exact everywhere_replaceSet hP (everywhere_replaceSet hP hn hedges) h
  · exact h

theorem everywhere_keptIfFound {typeName : String} {kept : List (Selection × Bool)}
    {set : SelectionSet} (hk : ∀ pair ∈ kept, pair.1.Everywhere P)
    (h : keptIfFound typeName kept = some set) :
    EverywhereAll P set.selections := by
  unfold keptIfFound at h
  split at h
  · obtain rfl := Option.some.inj h
    rw [everywhereAll_iff]
    intro selection hm
    obtain ⟨pair, hp, rfl⟩ := List.mem_map.1 hm
    exact hk pair hp
  · cases h

/-- What holds everywhere in a set holds everywhere in what is kept of it for the keys. -/
def KeepsEverywhere (P : Selection → Prop) (cursor : String) (keys : List String) : Prop :=
  ∀ key rest, keys = key :: rest → ∀ selections, EverywhereAll P selections →
    ∀ kept ∈ pruneEach cursor key rest selections, kept.1.Everywhere P

mutual
theorem everywhere_pruneOne {key : String} {rest : List String} {selection : Selection}
    {kept : Selection × Bool} (hP : Shallow P) (ih : KeepsEverywhere P cursor rest)
    (h : selection.Everywhere P) (hk : pruneOne cursor key rest selection = some kept) :
    kept.1.Everywhere P := by
  cases selection with
  | leaf field =>
    obtain ⟨-, -, rfl⟩ | ⟨-, -, rfl⟩ := pruneOne_leaf_cases hk
    · exact hP.cursor cursor h
    · exact h
  | composite field typeName selections =>
    have hleaf : P (.leaf field) := hP.field rfl rfl h.1
    have hself : ∀ name inner, P (.composite field name inner) := fun _ _ => hP.field rfl rfl h.1
    obtain ⟨-, ⟨-, rfl⟩ | ⟨next, more, rfl, hthrough⟩⟩ := pruneOne_composite_cases hk
    · exact ⟨hP.field rfl rfl (hP.cursor cursor hleaf), h.2⟩
    · obtain ⟨-, set, hset, rfl⟩ | ⟨-, old, nodes, hold, hnodes, rfl⟩ := hthrough
      · exact ⟨hself _ _, everywhere_keptIfFound (ih next more rfl selections h.2) hset⟩
      · have hset : EverywhereAll P (SelectionSet.mk typeName selections).selections := h.2
        have hkept := everywhere_keptIfFound
          (ih next more rfl old.selections (everywhere_nodeSet? hset hold)) hnodes
        exact ⟨hself _ _, everywhere_replaceNodes hP hkept h.2⟩
  | inlineFragment condition typeName selections =>
    obtain ⟨set, hs, rfl⟩ := Option.map_eq_some_iff.1 hk
    exact ⟨hP.inlineFragment _ _ _, everywhere_keptIfFound (everywhere_pruneEach hP ih h.2) hs⟩
  | spread serial name condition typeName selections =>
    obtain ⟨set, hs, rfl⟩ := Option.map_eq_some_iff.1 hk
    exact ⟨hP.inlineFragment _ _ _, everywhere_keptIfFound (everywhere_pruneEach hP ih h.2) hs⟩

theorem everywhere_pruneEach {key : String} {rest : List String} {selections : List Selection}
    (hP : Shallow P) (ih : KeepsEverywhere P cursor rest) (h : EverywhereAll P selections) :
    ∀ kept ∈ pruneEach cursor key rest selections, kept.1.Everywhere P := by
  cases selections with
  | nil => exact fun _ h => absurd h List.not_mem_nil
  | cons selection others =>
    intro kept hm
    rcases List.mem_append.1 hm with hm | hm
    · exact everywhere_pruneOne hP ih h.1 (Option.mem_toList.1 hm)
    · exact everywhere_pruneEach hP ih h.2 kept hm
end

theorem keepsEverywhere_of_shallow (hP : Shallow P) (cursor : String) (keys : List String) :
    KeepsEverywhere P cursor keys := by
  induction keys with
  | nil => exact fun _ _ h => absurd h (List.cons_ne_nil _ _).symm
  | cons key rest ih =>
    rintro _ _ ⟨⟩ selections hall
    exact everywhere_pruneEach hP ih hall

/-- What holds of a set holds of what pruning keeps of it. -/
theorem everywhere_kept {key : String} {rest : List String} {selections : List Selection}
    (hP : Shallow P) (h : EverywhereAll P selections) :
    EverywhereAll P ((pruneEach cursor key rest selections).map Prod.fst) := by
  rw [everywhereAll_iff]
  intro selection hs
  obtain ⟨pair, hp, rfl⟩ := List.mem_map.1 hs
  exact keepsEverywhere_of_shallow hP cursor (key :: rest) key rest rfl selections h pair hp

end Selection

namespace Scope

variable {P : Selection → Prop}

theorem everywhere_settled {before : List Selection} {key : String} {selection : Selection}
    (hb : Selection.EverywhereAll P before) (hs : selection.Everywhere P) :
    Selection.EverywhereAll P (Selection.settled before key selection) := by
  unfold Selection.settled
  split
  · exact hb
  · exact Selection.everywhereAll_append.2 ⟨hb, hs, trivial⟩

/-- A set starts with plain leaves only. -/
theorem everywhere_opening (hp : ∀ name, P (.leaf (.plain name))) (scope : Scope) :
    Selection.EverywhereAll P scope.opening := by
  unfold opening
  split <;> split <;> simp [Selection.EverywhereAll, Selection.Everywhere, hp]

mutual
theorem everywhere_rebuilds {selection : Selection} {scope : Scope} {before after : List Selection}
    (hP : Selection.Shallow P) (hs : selection.Everywhere P)
    (hb : Selection.EverywhereAll P before) (h : scope.Rebuilds selection before after) :
    Selection.EverywhereAll P after := by
  cases selection with
  | leaf field =>
    unfold Rebuilds at h
    rw [h.2]
    exact everywhere_settled hb hs
  | composite field typeName selections =>
    unfold Rebuilds at h
    obtain ⟨type, inner, -, hi, rfl⟩ := h
    exact everywhere_settled hb
      ⟨hP.field rfl rfl hs.1, everywhere_rebuildsAll hP hs.2 (by trivial) hi⟩
  | inlineFragment condition typeName selections =>
    unfold Rebuilds at h
    obtain ⟨target, inner, -, hi, -, rfl⟩ := h
    have hinner := everywhere_rebuildsAll hP hs.2 (by trivial) hi
    exact Selection.everywhereAll_append.2 ⟨hb, ⟨hP.inlineFragment _ _ _, hinner⟩, trivial⟩
  | spread serial name condition typeName selections =>
    unfold Rebuilds at h
    rw [h.2]
    unfold spreadBeside
    split
    · exact hb
    · exact Selection.everywhereAll_append.2 ⟨hb, hs, trivial⟩

theorem everywhere_rebuildsAll {selections : List Selection} {scope : Scope}
    {before after : List Selection}
    (hP : Selection.Shallow P) (hs : Selection.EverywhereAll P selections)
    (hb : Selection.EverywhereAll P before) (h : scope.RebuildsAll selections before after) :
    Selection.EverywhereAll P after := by
  cases selections with
  | nil =>
    unfold RebuildsAll at h
    rwa [h]
  | cons selection rest =>
    unfold RebuildsAll at h
    obtain ⟨between, hfirst, hrest⟩ := h
    exact everywhere_rebuildsAll hP hs.2 (everywhere_rebuilds hP hs.1 hb hfirst) hrest
end

variable {scope : Scope} {before : List Selection}

theorem runs_single {step : Step} {Q : Unit → List Selection → Prop}
    {E : BuildError → List Selection → Prop} (h : Runs before (step.run scope) Q E) :
    Runs before (Step.runAll scope [step]) Q E := by
  refine runs_bind h ?_
  intro _ after hq
  exact runs_pure hq

theorem runs_extend (scope : Scope) (set : SelectionSet) (before : List Selection) :
    Runs before (Step.runAll scope [.extend set])
      (fun _ s => scope.RebuildsAll set.selections before s)
      (fun _ _ => ∀ after, ¬ scope.RebuildsAll set.selections before after) := by
  refine runs_single (runs_journaled ?_)
  exact runs_mono (scope.runs_addSelections set.selections before) (fun _ _ h => h)
    (fun _ _ h => h.1)

/-- The field that fetches an object by its id. -/
def fetching (id : String) : Field :=
  Field.ofOptions nodeFieldName ⟨none, [("id", .string id)]⟩ false

/-- A set that selects on one type only. -/
def narrowed (scope : Scope) (target : TypeDescriptor) (inner : List Selection) : List Selection :=
  scope.opening ++ [.inlineFragment target.name target.name inner]

/-- The selections of a query for `set` on the object with an id. -/
def Fetches (scope : Scope) (id typeName : String) (set : SelectionSet)
    (before after : List Selection) : Prop :=
  ∃ nodeType target inner, (scope.within nodeType).Opens ∧
    (scope.within nodeType).Admits typeName target ∧
    (scope.within target).RebuildsAll set.selections [] inner ∧ inner ≠ [] ∧
    scope.Takes before (fetching id) nodeType ((scope.within nodeType).narrowed target inner) ∧
    after = Selection.settled before nodeFieldName
      (.composite (fetching id) nodeType.name ((scope.within nodeType).narrowed target inner))

/-- The bundle tells the type of the `node` field and the type that is selected on. -/
theorem Fetches.known {scope : Scope} {bundle : Bundle} {id typeName : String} {set : SelectionSet}
    {after : List Selection} {field : FieldDescriptor} {nodeType target : TypeDescriptor}
    (h : scope.Fetches id typeName set scope.opening after) (hb : scope.bundle = bundle)
    (hroot : scope.type = scope.bundle.queryRoot) (hf : bundle.nodeField? = some field)
    (hn : bundle.get? field.typeName = some nodeType) (ht : bundle.get? typeName = some target) :
    ∃ inner, (scope.within target).RebuildsAll set.selections [] inner ∧
      after = scope.opening ++
        [.composite (fetching id) nodeType.name ((scope.within nodeType).narrowed target inner)] := by
  subst hb
  obtain ⟨nodeType', target', inner, -, hadmits, hrebuilds, -, htakes, hafter⟩ := h
  obtain rfl : nodeType' = nodeType := by
    obtain ⟨-, declared, hdeclared, hget, -⟩ := htakes.1.1
    rw [hroot] at hdeclared
    obtain rfl : declared = field := Option.some.inj (hdeclared.symm.trans hf)
    exact Option.some.inj (hget.symm.trans hn)
  obtain rfl : target' = target := Option.some.inj (hadmits.1.symm.trans ht)
  rw [settled_first (by decide) (by decide)] at hafter
  exact ⟨inner, hrebuilds, hafter⟩

/-- The `node` field takes what the type that is selected on takes. -/
theorem fetches_opening {scope : Scope} {id typeName : String} {set : SelectionSet}
    {inner : List Selection} {field : FieldDescriptor} {nodeType target : TypeDescriptor}
    (hroot : scope.type = scope.bundle.queryRoot) (hf : scope.bundle.nodeField? = some field)
    (hn : scope.bundle.get? field.typeName = some nodeType)
    (hid : Keyed.contains "id" field.arguments = true) (hc : nodeType.isComposite = true)
    (ho : (scope.within nodeType).Opens) (ha : (scope.within nodeType).Admits typeName target)
    (hr : (scope.within target).RebuildsAll set.selections [] inner) (hne : inner ≠ []) :
    scope.Fetches id typeName set scope.opening (scope.opening ++
      [.composite (fetching id) nodeType.name ((scope.within nodeType).narrowed target inner)]) := by
  have hname : nodeFieldName ≠ typenameField := by decide
  have hdeclared : scope.type.field? nodeFieldName = some field := by
    rw [hroot]
    exact hf
  have hoffers : scope.OffersObject (fetching id).name (fetching id).arguments nodeType := by
    refine ⟨⟨hname, field, hdeclared, hn, ?_⟩, hc⟩
    intro argument hm
    obtain rfl := List.mem_singleton.1 hm
    exact ⟨hid, rfl, fun _ hu => absurd hu List.not_mem_nil⟩
  have hfree : scope.opening.find? (Selection.answers nodeFieldName) = none :=
    find?_opening (by decide) hname
  refine ⟨nodeType, target, inner, ho, ha, hr, hne, ⟨hoffers, by simp [narrowed], ?_⟩,
    (settled_first (by decide) hname).symm⟩
  intro found hfound
  cases hfree.symm.trans hfound

theorem everywhere_fetches {id typeName : String} {set : SelectionSet} {after : List Selection}
    (hP : Selection.Shallow P) (hid : P (.leaf (fetching id)))
    (h : scope.Fetches id typeName set scope.opening after)
    (hs : Selection.EverywhereAll P set.selections) : Selection.EverywhereAll P after := by
  obtain ⟨nodeType, target, inner, -, -, hrebuilds, -, -, rfl⟩ := h
  refine everywhere_settled (everywhere_opening hP.plain scope) ⟨hP.field rfl rfl hid, ?_⟩
  refine Selection.everywhereAll_append.2
    ⟨everywhere_opening hP.plain _, ⟨hP.inlineFragment _ _ _, ?_⟩, trivial⟩
  exact everywhere_rebuildsAll hP hs (by trivial) hrebuilds

theorem runs_nodeProgram (scope : Scope) (id typeName : String) (set : SelectionSet)
    (before : List Selection) :
    Runs before (Step.runAll scope (FollowUp.nodeProgram id typeName set))
      (fun _ s => scope.Fetches id typeName set before s)
      (fun _ _ => ∀ after, ¬ scope.Fetches id typeName set before after) := by
  have hfragment : ∀ child : Scope, Runs child.opening
      (Step.runAll child [.fragmentOn typeName [.extend set]])
      (fun _ s => ∃ target inner, child.Admits typeName target ∧
        (child.within target).RebuildsAll set.selections [] inner ∧ inner ≠ [] ∧
        s = child.narrowed target inner)
      (fun _ _ => ∀ target inner, child.Admits typeName target →
        (child.within target).RebuildsAll set.selections [] inner → inner = []) := by
    intro child
    refine runs_single (runs_journaled (runs_mono
      (runs_fragment fun target _ => runs_extend (child.within target) set []) ?_ ?_))
    · exact fun _ _ h => h
    · rintro _ _ ⟨-, hn⟩ target inner ha hi
      obtain ⟨_, _, hno⟩ | ⟨inner', hi', hnil⟩ := hn target ha
      · exact absurd hi (hno inner)
      · rw [RebuildsAll.unique hi hi', hnil]
  refine runs_single (runs_journaled (runs_mono
    (runs_addObject fun type _ _ => hfragment (scope.within type)) ?_ ?_))
  · rintro _ _ ⟨nodeType, _, ht, ho, ⟨target, inner, ha, hi, hne, rfl⟩, rfl⟩
    exact ⟨nodeType, target, inner, ho, ha, hi, hne, ht, rfl⟩
  · rintro _ _ ⟨-, hn⟩ after ⟨nodeType, target, inner, ho, ha, hi, hne, ht, -⟩
    obtain ⟨_, _, hno⟩ | ⟨_, ⟨target', inner', ha', hi', -, rfl⟩, hnot⟩ := hn nodeType ht.1 ho
    · exact hne (hno target inner ha hi)
    · obtain rfl := Admits.unique ha ha'
      obtain rfl := RebuildsAll.unique hi hi'
      exact hnot ht

end Scope

theorem FollowUp.ofDraft_eq_ok {source : Source} {draft : OperationDraft} {path : List String}
    {next : FollowUp} (h : ofDraft source draft path = .ok next) :
    (draft.build source.bundle).result = .ok next.operation ∧ next.path = path ∧
      next.values = usedVariables next.operation source.values := by
  unfold ofDraft at h
  cases hb : (draft.build source.bundle).result with
  | error e => simp [hb] at h
  | ok operation =>
    simp only [hb, Except.ok.injEq] at h
    subst h
    exact ⟨rfl, rfl, rfl⟩

namespace OperationDraft

variable {bundle : Bundle} {draft : OperationDraft} {operation : Operation}

/-- A build that ends well ran the program on the root of its kind. -/
theorem set_of_build {Q : Scope → List Selection → Prop}
    {E : Scope → BuildError → List Selection → Prop}
    (hr : ∀ scope : Scope, Runs scope.opening (Step.runAll scope draft.program)
      (fun _ s => Q scope s) (E scope))
    (h : (draft.build bundle).result = .ok operation) :
    ∃ scope : Scope, scope.bundle = bundle ∧ root? bundle draft.kind = .ok scope.type ∧
      operation.kind = draft.kind ∧ operation.set.typeName = scope.type.name ∧
      Q scope operation.set.selections := by
  obtain ⟨scope, set, hscope, hset, rfl⟩ := build_eq_ok h
  obtain ⟨hroot, -, -, hbundle⟩ := scope_eq_ok hscope
  have hrun := buildSet_of_runs fun _ : scope.Opens => hr scope
  rw [hset] at hrun
  exact ⟨scope, hbundle, hroot, rfl, hrun.1, hrun.2.2.2⟩

end OperationDraft

/-- What holds everywhere in a set holds everywhere in what is kept of it. -/
theorem SelectionSet.everywhere_prune {P : Selection → Prop} {set pruned : SelectionSet}
    {cursor : String} {path : List String} (hP : Selection.Shallow P)
    (hs : Selection.EverywhereAll P set.selections) (h : set.prune path cursor = some pruned) :
    Selection.EverywhereAll P pruned.selections := by
  cases path with
  | nil => cases h
  | cons key keys =>
    rw [prune_eq_some h]
    exact Selection.everywhere_kept hP hs

namespace PageMark

variable {mark : PageMark} {next : FollowUp} {key : String} {keys : List String}

/-- The query for the next page is built from what is kept of the set of an anchor, or of the
operation. -/
theorem nextPage_cases (h : mark.nextPage = .ok next) :
    (∃ anchor pruned, mark.usableAnchor? = some anchor ∧
      anchor.set.prune (mark.path.drop anchor.depth) mark.cursor = some pruned ∧
      FollowUp.ofDraft mark.source
        (FollowUp.draft mark.source.operation .query mark.source.operation.name pruned
          (FollowUp.nodeProgram anchor.id anchor.typeName pruned))
        (nodeFieldName :: mark.path.drop anchor.depth) = .ok next) ∨
    (mark.usableAnchor? = none ∧ ∃ pruned,
      mark.source.operation.set.prune mark.path mark.cursor = some pruned ∧
      FollowUp.ofDraft mark.source
        (FollowUp.draft mark.source.operation mark.source.operation.kind
          mark.source.operation.name pruned [.extend pruned]) mark.path = .ok next) := by
  unfold nextPage at h
  cases hu : mark.usableAnchor? with
  | some anchor =>
    simp only [hu] at h
    cases hp : anchor.set.prune (mark.path.drop anchor.depth) mark.cursor with
    | none => simp [hp] at h
    | some pruned => exact .inl ⟨anchor, pruned, rfl, hp, by simpa only [hp] using h⟩
  | none =>
    simp only [hu] at h
    cases hp : mark.source.operation.set.prune mark.path mark.cursor with
    | none => simp [hp] at h
    | some pruned => exact .inr ⟨rfl, pruned, rfl, by simpa only [hp] using h⟩

theorem nextPage_of_unanchored (hu : mark.usableAnchor? = none) (h : mark.nextPage = .ok next) :
    ∃ pruned, mark.source.operation.set.prune mark.path mark.cursor = some pruned ∧
      FollowUp.ofDraft mark.source
        (FollowUp.draft mark.source.operation mark.source.operation.kind
          mark.source.operation.name pruned [.extend pruned]) mark.path = .ok next := by
  obtain ⟨anchor, _, hanchor, -, -⟩ | ⟨-, hmade⟩ := nextPage_cases h
  · cases hu.symm.trans hanchor
  · exact hmade

theorem nextPage_of_anchored {anchor : NodeAnchor} (hu : mark.usableAnchor? = some anchor)
    (h : mark.nextPage = .ok next) :
    ∃ pruned, anchor.set.prune (mark.path.drop anchor.depth) mark.cursor = some pruned ∧
      FollowUp.ofDraft mark.source
        (FollowUp.draft mark.source.operation .query mark.source.operation.name pruned
          (FollowUp.nodeProgram anchor.id anchor.typeName pruned))
        (nodeFieldName :: mark.path.drop anchor.depth) = .ok next := by
  obtain ⟨found, pruned, hanchor, hmade⟩ | ⟨hnone, -⟩ := nextPage_cases h
  · obtain rfl : anchor = found := Option.some.inj (hu.symm.trans hanchor)
    exact ⟨pruned, hmade⟩
  · cases hu.symm.trans hnone

/-- A query from the root adds what is kept of the operation to a new set. -/
theorem nextPage_unanchored (hu : mark.usableAnchor? = none) (hk : mark.path = key :: keys)
    (h : mark.nextPage = .ok next) :
    ∃ scope : Scope, scope.bundle = mark.source.bundle ∧
      OperationDraft.root? scope.bundle mark.source.operation.kind = .ok scope.type ∧
      next.path = key :: keys ∧ next.operation.set.typeName = scope.type.name ∧
      scope.RebuildsAll ((Selection.pruneEach mark.cursor key keys
        mark.source.operation.set.selections).map Prod.fst) scope.opening
        next.operation.set.selections := by
  obtain ⟨pruned, hp, hnext⟩ := nextPage_of_unanchored hu h
  rw [hk] at hp hnext
  obtain ⟨hb, hpath, -⟩ := FollowUp.ofDraft_eq_ok hnext
  obtain ⟨scope, hbundle, hroot, -, hname, hset⟩ :=
    OperationDraft.set_of_build (fun scope => Scope.runs_extend scope pruned scope.opening) hb
  rw [SelectionSet.prune_eq_some hp] at hset
  exact ⟨scope, hbundle, hbundle ▸ hroot, hpath, hname, hset⟩

/-- A query from an anchor fetches the anchor with what is kept of its set. -/
theorem nextPage_fetches {anchor : NodeAnchor} (hu : mark.usableAnchor? = some anchor)
    (h : mark.nextPage = .ok next) :
    ∃ (scope : Scope) (pruned : SelectionSet), scope.bundle = mark.source.bundle ∧
      scope.type = scope.bundle.queryRoot ∧
      next.path = nodeFieldName :: mark.path.drop anchor.depth ∧
      next.operation.set.typeName = scope.type.name ∧
      anchor.set.prune (mark.path.drop anchor.depth) mark.cursor = some pruned ∧
      scope.Fetches anchor.id anchor.typeName pruned scope.opening
        next.operation.set.selections := by
  obtain ⟨pruned, hp, hnext⟩ := nextPage_of_anchored hu h
  obtain ⟨hb, hpath, -⟩ := FollowUp.ofDraft_eq_ok hnext
  obtain ⟨scope, hbundle, hroot, -, hname, hset⟩ := OperationDraft.set_of_build
    (fun scope => Scope.runs_nodeProgram scope anchor.id anchor.typeName pruned scope.opening) hb
  have htype : scope.type = mark.source.bundle.queryRoot := (Except.ok.inj hroot).symm
  exact ⟨scope, pruned, hbundle, by rw [htype, hbundle], hpath, hname, hp, hset⟩

theorem nextPage_anchored {anchor : NodeAnchor} (hu : mark.usableAnchor? = some anchor)
    (hk : mark.path.drop anchor.depth = key :: keys) (h : mark.nextPage = .ok next) :
    ∃ (scope : Scope) (pruned : SelectionSet), scope.bundle = mark.source.bundle ∧
      scope.type = scope.bundle.queryRoot ∧ next.path = nodeFieldName :: key :: keys ∧
      next.operation.set.typeName = scope.type.name ∧
      pruned.selections =
        (Selection.pruneEach mark.cursor key keys anchor.set.selections).map Prod.fst ∧
      scope.Fetches anchor.id anchor.typeName pruned scope.opening
        next.operation.set.selections := by
  obtain ⟨scope, pruned, hbundle, htype, hpath, hname, hp, hset⟩ := nextPage_fetches hu h
  rw [hk] at hpath hp
  exact ⟨scope, pruned, hbundle, htype, hpath, hname, SelectionSet.prune_eq_some hp, hset⟩

end PageMark

end GraphQLClient
