import GraphQLClient.Proofs.Building.Uses
import GraphQLClient.Proofs.Paging.Roots

set_option autoImplicit false

/-!
# Variables of follow-up queries

A follow-up query declares the variables of the operation it came from that it uses, no others, and is
sent with their values. What is used is read off the set before it is built anew; fields that fall
together are the same, and bodies of fragments use nothing, so that the query uses just that. A variable
that stood only in the cursor arguments that were replaced is gone.
-/

namespace GraphQLClient

theorem Value.wellKeyedFields_iff {fields : List (String × Value)} :
    WellKeyedFields fields ↔ ∀ entry ∈ fields, entry.2.WellKeyed := by
  induction fields with
  | nil => simp [WellKeyedFields]
  | cons entry rest ih => simp [WellKeyedFields, ih]

namespace Field

theorem WellKeyed.withCursor {field : Field} (h : field.WellKeyed) (cursor : String) :
    (field.withCursor cursor).WellKeyed := by
  refine ⟨Keyed.nodup_insert h.1, Value.wellKeyedFields_iff.2 fun entry he => ?_⟩
  rcases Keyed.mem_insert he with rfl | he
  · trivial
  · exact Value.wellKeyedFields_iff.1 h.2 entry he

/-- The variables in the arguments of a field, but for the cursor. -/
def usesBeside (field : Field) : List String :=
  Value.usesInFields (field.arguments.filter (·.1 != cursorArgument))

theorem usesBeside_subset (field : Field) : field.usesBeside ⊆ Value.usesInFields field.arguments := by
  intro used hu
  obtain ⟨argument, ha, hu⟩ := Scope.mem_usesInFields.1 hu
  exact Scope.mem_usesInFields.2 ⟨argument, (List.mem_filter.1 ha).1, hu⟩

theorem uses_withCursor {field : Field} (h : field.WellKeyed) (cursor : String) :
    Value.usesInFields (field.withCursor cursor).arguments ⊆ field.usesBeside := by
  intro used hu
  obtain ⟨argument, ha, hu⟩ := Scope.mem_usesInFields.1 hu
  have hne : argument.1 ≠ cursorArgument := by
    intro heq
    have hfind : Keyed.find? argument.1 (field.withCursor cursor).arguments = some argument.2 :=
      Keyed.find?_of_mem (h.withCursor cursor).1 ha
    rw [heq, withCursor, Keyed.find?_insert_self] at hfind
    rw [← Option.some.inj hfind] at hu
    cases hu
  refine Scope.mem_usesInFields.2 ⟨argument, List.mem_filter.2 ⟨?_, by simpa using hne⟩, hu⟩
  rcases Keyed.mem_insert ha with rfl | ha
  · exact absurd rfl hne
  · exact ha

end Field

namespace Selection

theorem shallow_sparing (names : List String) : Shallow (Sparing names) where
  field := by
    intro a b field ha hb h
    refine ⟨fun other ho => ?_, fun other ho => ?_, ?_⟩
    · exact h.keyed other (ha.trans (hb.symm.trans ho))
    · exact h.used other (ha.trans (hb.symm.trans ho))
    · rintro fragment rfl
      cases hb
  cursor := by
    intro field cursor h
    have hk : field.WellKeyed := h.keyed field rfl
    refine ⟨?_, ?_, ?_⟩
    · rintro _ ⟨⟩
      exact hk.withCursor cursor
    · rintro _ ⟨⟩
      exact List.Subset.trans (Field.uses_withCursor hk cursor)
        (List.Subset.trans field.usesBeside_subset (h.used field rfl))
    · rintro fragment hf
      cases hf
  plain := by
    intro name
    refine ⟨?_, ?_, ?_⟩
    · rintro _ ⟨⟩
      exact ⟨List.nodup_nil, trivial⟩
    · rintro _ ⟨⟩
      exact List.nil_subset _
    · rintro fragment hf
      cases hf
  inlineFragment := by
    intro condition typeName selections
    refine ⟨?_, ?_, ?_⟩
    · rintro field hf
      cases hf
    · rintro field hf
      cases hf
    · rintro fragment hf
      cases hf

end Selection

namespace Scope

variable {scope : Scope} {names : List String} {used : String}

/-- A selection that falls together with one before adds no variable to it. -/
theorem mem_uses_settled {before : List Selection} {key : String} {selection : Selection}
    (hk : Selection.EverywhereAll (Selection.Sparing names) before)
    (hf : Selection.Fits before key selection) :
    used ∈ Selection.usesInAll (Selection.settled before key selection) ↔
      used ∈ Selection.usesInAll before ∨ used ∈ selection.variableUses := by
  unfold Selection.settled
  cases hfind : before.find? (Selection.answers key) with
  | none => simp [Selection.usesInAll_append, Selection.usesInAll]
  | some found =>
    -- The selection is dropped, but the one that is there is the same.
    have hmem := List.mem_of_find?_eq_some hfind
    have hkeyed : found.Everywhere Selection.WellKeyed :=
      (Selection.everywhereAll_iff.1 hk found hmem).and (fun _ h _ => h.keyed)
        (Selection.everywhereAll_iff.1 hk found hmem)
    have hsame : selection.same found = true := Selection.same_symm hkeyed (hf found hfind)
    have hsub : used ∈ selection.variableUses → used ∈ Selection.usesInAll before := fun hu =>
      Selection.mem_usesInAll.2 ⟨found, hmem, Selection.uses_of_same hsame hu⟩
    simpa using hsub

mutual
theorem mem_uses_rebuilds {selection : Selection} {scope : Scope} {before after : List Selection}
    (hs : selection.Everywhere (Selection.Sparing names))
    (hb : Selection.EverywhereAll (Selection.Sparing names) before)
    (h : scope.Rebuilds selection before after) :
    used ∈ Selection.usesInAll after ↔
      used ∈ Selection.usesInAll before ∨ used ∈ selection.variableUses := by
  cases selection with
  | leaf field =>
    unfold Rebuilds at h
    rw [h.2, mem_uses_settled hb h.1.2]
  | composite field typeName selections =>
    unfold Rebuilds at h
    obtain ⟨type, inner, htakes, hi, rfl⟩ := h
    have hinner : used ∈ Selection.usesInAll inner ↔ used ∈ Selection.usesInAll selections := by
      simpa [Selection.usesInAll] using mem_uses_rebuildsAll hs.2 (by trivial) hi
    rw [mem_uses_settled hb htakes.2.2, Selection.variableUses, Selection.variableUses,
      List.mem_append, List.mem_append, hinner]
  | inlineFragment condition typeName selections =>
    unfold Rebuilds at h
    obtain ⟨target, inner, -, hi, -, rfl⟩ := h
    have hinner : used ∈ Selection.usesInAll inner ↔ used ∈ Selection.usesInAll selections := by
      simpa [Selection.usesInAll] using mem_uses_rebuildsAll hs.2 (by trivial) hi
    simp [Selection.usesInAll_append, Selection.usesInAll, Selection.variableUses, hinner]
  | spread serial name condition typeName selections =>
    unfold Rebuilds at h
    -- A spread may be left out for another of the name, which makes no difference without variables.
    have hnone : Selection.usesInAll selections = [] :=
      hs.1.closed ⟨serial, name, condition, ⟨typeName, selections⟩⟩ rfl
    rw [h.2, spreadBeside]
    split <;> simp [Selection.usesInAll_append, Selection.usesInAll, Selection.variableUses,
      Selection.ofFragment, hnone]

theorem mem_uses_rebuildsAll {selections : List Selection} {scope : Scope}
    {before after : List Selection}
    (hs : Selection.EverywhereAll (Selection.Sparing names) selections)
    (hb : Selection.EverywhereAll (Selection.Sparing names) before)
    (h : scope.RebuildsAll selections before after) :
    used ∈ Selection.usesInAll after ↔
      used ∈ Selection.usesInAll before ∨ used ∈ Selection.usesInAll selections := by
  cases selections with
  | nil =>
    unfold RebuildsAll at h
    simp [h, Selection.usesInAll]
  | cons selection rest =>
    unfold RebuildsAll at h
    obtain ⟨between, hfirst, hrest⟩ := h
    have hbetween := everywhere_rebuilds (Selection.shallow_sparing names) hs.1 hb hfirst
    rw [mem_uses_rebuildsAll hs.2 hbetween hrest, mem_uses_rebuilds hs.1 hb hfirst,
      Selection.usesInAll, List.mem_append, or_assoc]
end

end Scope

namespace Selection

/-- What a field uses where keys lead by it, if `below` tells what the set uses in which they go on. The
cursor argument of a field at the end of the keys does not count. -/
def usesOnWay (key : String) (last : Bool) (below : List Selection → List String) :
    Selection → List String
  | .leaf field =>
    if field.responseKey = key ∧ last then field.usesBeside else Value.usesInFields field.arguments
  | .composite field typeName inner =>
    if field.responseKey = key then
      if last then field.usesBeside ++ usesInAll inner
      else Value.usesInFields field.arguments ++
        if field.connection then
          usesInAll (replaceNodes ⟨"", []⟩ inner) ++
            (SelectionSet.nodeSet? ⟨typeName, inner⟩).elim [] fun nodes => below nodes.selections
        else below inner
    else Value.usesInFields field.arguments ++ usesInAll inner
  | fragment => fragment.variableUses

/-- The variables that selections use, but for those that stand only in cursor arguments at the ends of
the keys. -/
def usesApart : List String → List Selection → List String
  | [], selections => usesInAll selections
  | key :: rest, selections =>
    (openedAll selections).flatMap (usesOnWay key rest.isEmpty (usesApart rest))

variable {used key cursor : String} {rest : List String}

theorem mem_uses_replaceSet {set other : SelectionSet} {selections : List Selection}
    (h : used ∈ usesInAll (replaceSet key set selections)) :
    used ∈ usesInAll (replaceSet key other selections) ∨ used ∈ usesInAll set.selections := by
  obtain ⟨selection, hs, hu⟩ := mem_usesInAll.1 h
  obtain ⟨old, ho, rfl⟩ := List.mem_map.1 hs
  have hnew : (if old.answers key then old.withSet other else old) ∈ replaceSet key other selections :=
    List.mem_map_of_mem ho
  by_cases ha : old.answers key = true
  · rw [if_pos ha] at hu hnew
    have hold : used ∈ (old.withSet other).variableUses ∨ used ∈ usesInAll set.selections := by
      cases old with
      | leaf field => exact (List.mem_append.1 hu).imp_left (List.mem_append_left _)
      | composite field typeName inner =>
        exact (List.mem_append.1 hu).imp_left (List.mem_append_left _)
      | _ => exact .inl hu
    exact hold.imp_left fun hu => mem_usesInAll.2 ⟨_, hnew, hu⟩
  · rw [if_neg ha] at hu hnew
    exact .inl (mem_usesInAll.2 ⟨_, hnew, hu⟩)

theorem uses_subset_replaceSet {set below : SelectionSet} {selections : List Selection}
    (h : SelectionSet.below? ⟨"", selections⟩ key = some below) :
    usesInAll set.selections ⊆ usesInAll (replaceSet key set selections) := by
  intro used hu
  obtain ⟨found, hfind, hset⟩ := Option.bind_eq_some_iff.1 h
  have hnew : (if found.answers key then found.withSet set else found) ∈ replaceSet key set selections :=
    List.mem_map_of_mem (List.mem_of_find?_eq_some hfind)
  rw [if_pos (List.find?_some hfind)] at hnew
  refine mem_usesInAll.2 ⟨_, hnew, ?_⟩
  cases found with
  | composite field typeName inner => exact List.mem_append_right _ hu
  | _ => cases hset

theorem mem_uses_replaceNodes {nodes : SelectionSet} {selections : List Selection}
    (h : used ∈ usesInAll (replaceNodes nodes selections)) :
    used ∈ usesInAll (replaceNodes ⟨"", []⟩ selections) ∨ used ∈ usesInAll nodes.selections := by
  unfold replaceNodes at h ⊢
  cases hedges : SelectionSet.below? ⟨"", selections⟩ "edges" with
  | none =>
    simp only [hedges] at h
    exact .inl h
  | some edges =>
    simp only [hedges] at h
    rcases mem_uses_replaceSet h with hold | hnew
    · exact .inl hold
    · rcases mem_uses_replaceSet hnew with hold | hnodes
      · exact .inl (uses_subset_replaceSet hedges hold)
      · exact .inr hnodes

/-- What is kept along further keys uses nothing but what the set uses apart from their ends. -/
def KeepsApart (cursor : String) (rest : List String) : Prop :=
  ∀ next more, rest = next :: more → ∀ selections : List Selection, EverywhereAll WellKeyed selections →
    ∀ kept ∈ pruneEach cursor next more selections, kept.1.variableUses ⊆ usesApart rest selections

theorem mem_uses_keptIfFound {typeName : String} {kept : List (Selection × Bool)} {set : SelectionSet}
    {apart : List String} (hall : ∀ pair ∈ kept, pair.1.variableUses ⊆ apart)
    (h : keptIfFound typeName kept = some set) : usesInAll set.selections ⊆ apart := by
  intro used hu
  rw [eq_of_keptIfFound h] at hu
  obtain ⟨selection, hs, hu⟩ := mem_usesInAll.1 hu
  obtain ⟨pair, hp, rfl⟩ := List.mem_map.1 hs
  exact hall pair hp hu

/-- A field on the way uses what it did, and below it what is kept there. -/
theorem uses_pruneOne_through {next typeName : String} {more : List String} {field : Field}
    {selections : List Selection} {kept : Selection × Bool} (ih : KeepsApart cursor (next :: more))
    (hk : EverywhereAll WellKeyed selections) (hkey : field.responseKey = key)
    (hp : KeptThrough cursor next more field typeName selections kept) :
    kept.1.variableUses ⊆
      usesOnWay key false (usesApart (next :: more)) (.composite field typeName selections) := by
  rw [usesOnWay, if_pos hkey, if_neg (by simp)]
  intro used hu
  obtain ⟨hc, set, hset, rfl⟩ | ⟨hc, old, nodes, hold, hkept, rfl⟩ := hp
  · refine List.mem_append.2 ((List.mem_append.1 hu).imp_right fun hu => ?_)
    rw [if_neg (by simp [hc])]
    exact mem_uses_keptIfFound (ih next more rfl selections hk) hset hu
  · have hall : EverywhereAll WellKeyed (SelectionSet.mk typeName selections).selections := hk
    have hkeyed := everywhere_nodeSet? hall hold
    refine List.mem_append.2 ((List.mem_append.1 hu).imp_right fun hu => ?_)
    rw [if_pos hc, hold]
    refine List.mem_append.2 ((mem_uses_replaceNodes hu).imp_right fun hu => ?_)
    exact mem_uses_keptIfFound (ih next more rfl old.selections hkeyed) hkept hu

mutual
theorem uses_pruneOne {selection : Selection} {kept : Selection × Bool} (ih : KeepsApart cursor rest)
    (hk : selection.Everywhere WellKeyed) (hp : pruneOne cursor key rest selection = some kept) :
    kept.1.variableUses ⊆
      selection.opened.flatMap (usesOnWay key rest.isEmpty (usesApart rest)) := by
  cases selection with
  | leaf field =>
    rw [opened, List.flatMap_singleton, usesOnWay]
    obtain ⟨hkey, rfl, rfl⟩ | ⟨hkey, -, rfl⟩ := pruneOne_leaf_cases hp
    · rw [if_pos ⟨hkey, rfl⟩]
      exact Field.uses_withCursor (hk field rfl) cursor
    · rw [if_neg fun h => hkey h.1]
      exact List.Subset.refl _
  | composite field typeName selections =>
    rw [opened, List.flatMap_singleton]
    obtain ⟨hkey, ⟨rfl, rfl⟩ | ⟨next, more, rfl, hthrough⟩⟩ := pruneOne_composite_cases hp
    · rw [usesOnWay, if_pos hkey]
      intro used hu
      refine List.mem_append.2 ((List.mem_append.1 hu).imp_left fun hu => ?_)
      exact Field.uses_withCursor (hk.1 field rfl) cursor hu
    · exact uses_pruneOne_through ih hk.2 hkey hthrough
  | inlineFragment condition typeName selections =>
    obtain ⟨set, hset, rfl⟩ := Option.map_eq_some_iff.1 hp
    exact mem_uses_keptIfFound (uses_pruneEach ih hk.2) hset
  | spread serial name condition typeName selections =>
    obtain ⟨set, hset, rfl⟩ := Option.map_eq_some_iff.1 hp
    exact mem_uses_keptIfFound (uses_pruneEach ih hk.2) hset

theorem uses_pruneEach {selections : List Selection} (ih : KeepsApart cursor rest)
    (hk : EverywhereAll WellKeyed selections) : ∀ kept ∈ pruneEach cursor key rest selections,
      kept.1.variableUses ⊆
        (openedAll selections).flatMap (usesOnWay key rest.isEmpty (usesApart rest)) := by
  cases selections with
  | nil => exact fun _ h => absurd h List.not_mem_nil
  | cons selection others =>
    intro kept hkept used hu
    rw [openedAll, List.flatMap_append]
    rcases List.mem_append.1 hkept with hkept | hkept
    · exact List.mem_append_left _ (uses_pruneOne ih hk.1 (Option.mem_toList.1 hkept) hu)
    · exact List.mem_append_right _ (uses_pruneEach ih hk.2 kept hkept hu)
end

theorem keepsApart (cursor : String) (keys : List String) : KeepsApart cursor keys := by
  induction keys with
  | nil => exact fun _ _ h => absurd h (List.cons_ne_nil _ _).symm
  | cons key rest ih =>
    rintro _ _ ⟨⟩ selections hk
    exact uses_pruneEach ih hk

end Selection

/-- What is kept of a set uses nothing that stood only in the cursor arguments at the ends of the
keys. -/
theorem SelectionSet.uses_prune {set kept : SelectionSet} {keys : List String} {cursor : String}
    (hk : Selection.EverywhereAll Selection.WellKeyed set.selections)
    (h : set.prune keys cursor = some kept) :
    Selection.usesInAll kept.selections ⊆ Selection.usesApart keys set.selections := by
  obtain ⟨key, rest, rfl⟩ := SelectionSet.keys_of_prune h
  exact Selection.mem_uses_keptIfFound
    (Selection.keepsApart cursor (key :: rest) key rest rfl set.selections hk) h

namespace Scope

theorem uses_opening (scope : Scope) : Selection.usesInAll scope.opening = [] := by
  unfold opening
  split <;> split <;> rfl

theorem mem_uses_fetches {scope : Scope} {names : List String} {id typeName used : String}
    {set : SelectionSet} {after : List Selection}
    (h : scope.Fetches id typeName set scope.opening after)
    (hs : Selection.EverywhereAll (Selection.Sparing names) set.selections) :
    used ∈ Selection.usesInAll after ↔ used ∈ Selection.usesInAll set.selections := by
  obtain ⟨nodeType, target, inner, -, -, hrebuilds, -, -, rfl⟩ := h
  have hinner : used ∈ Selection.usesInAll inner ↔ used ∈ Selection.usesInAll [] ∨
      used ∈ Selection.usesInAll set.selections := mem_uses_rebuildsAll hs (by trivial) hrebuilds
  have hid : Value.usesInFields (fetching id).arguments = [] := rfl
  rw [settled_first (by decide) (by decide)]
  simpa [Selection.usesInAll_append, Selection.usesInAll, Selection.variableUses, uses_opening,
    narrowed, hid] using hinner

end Scope

namespace FollowUp

/-- The query has the directives of the operation it came from, declares those of its variables that it
uses, and has the values that were sent for them. -/
structure Exact (source : Source) (next : FollowUp) : Prop where
  directives : next.operation.directives = source.operation.directives
  declarations : next.operation.declarations =
    source.operation.declarations.filter fun definition =>
      next.operation.references.contains definition.name
  declared : ∀ used ∈ next.operation.references,
    ∃ definition ∈ next.operation.declarations, definition.name = used
  distinct : (Keyed.names next.values).Nodup
  values : ∀ name value, (name, value) ∈ next.values ↔
    (∃ definition ∈ next.operation.declarations, definition.name = name) ∧
      Keyed.find? name source.values = some value

theorem mem_usedVariables {operation : Operation} {values : List (String × Json)} {name : String}
    {value : Json} : (name, value) ∈ usedVariables operation values ↔
      (∃ definition ∈ operation.declarations, definition.name = name) ∧
        Keyed.find? name values = some value := by
  simp only [usedVariables, List.mem_filterMap, Option.map_eq_some_iff, Prod.mk.injEq]
  constructor
  · rintro ⟨definition, hd, found, hf, rfl, rfl⟩
    exact ⟨⟨definition, hd, rfl⟩, hf⟩
  · rintro ⟨⟨definition, hd, rfl⟩, hf⟩
    exact ⟨definition, hd, value, hf, rfl, rfl⟩

theorem nodup_usedVariables {operation : Operation} (values : List (String × Json))
    (h : (operation.declarations.map (·.name)).Nodup) :
    (Keyed.names (usedVariables operation values)).Nodup := by
  have hnames : Keyed.names (usedVariables operation values) =
      (operation.declarations.filter fun definition =>
        (Keyed.find? definition.name values).isSome).map (·.name) := by
    rw [Keyed.names, usedVariables, List.map_filterMap, ← List.filterMap_eq_map, List.filterMap_filter]
    refine List.filterMap_congr fun definition _ => ?_
    cases Keyed.find? definition.name values <;> rfl
  rw [hnames]
  exact h.sublist (List.filter_sublist.map _)

variable {source : Source} {kind : OperationKind} {name : Option String} {set : SelectionSet}
  {program : List Step} {path : List String} {next : FollowUp}

theorem Exact.not_declared {used : String} (h : next.Exact source)
    (hd : used ∉ source.operation.directiveUses)
    (hs : used ∉ Selection.usesInAll next.operation.set.selections) :
    used ∉ next.operation.declarations.map (·.name) := by
  intro hmem
  rw [h.declarations] at hmem
  obtain ⟨definition, hdefinition, rfl⟩ := List.mem_map.1 hmem
  have hreferred := List.contains_iff_mem.1 (List.mem_filter.1 hdefinition).2
  rw [Operation.references, List.mem_eraseDups, List.mem_append, Operation.directiveUses,
    h.directives] at hreferred
  exact hreferred.elim hd hs

theorem Exact.not_sent {used : String} (h : next.Exact source)
    (hn : used ∉ next.operation.declarations.map (·.name)) : used ∉ Keyed.names next.values := by
  intro hmem
  obtain ⟨⟨name, value⟩, he, rfl⟩ := List.mem_map.1 hmem
  obtain ⟨definition, hd, hname⟩ := ((h.values name value).1 he).1
  exact hn (List.mem_map.2 ⟨definition, hd, hname⟩)

/-- What a draft declares is exact if the query uses what the set uses, and all of that is declared. -/
theorem exact_of_ofDraft (hd : source.operation.Declares source.bundle)
    (h : ofDraft source (draft source.operation kind name set program) path = .ok next)
    (hu : ∀ used, used ∈ Selection.usesInAll next.operation.set.selections ↔
      used ∈ Selection.usesInAll set.selections)
    (hn : Selection.usesInAll set.selections ⊆ source.operation.declarations.map (·.name)) :
    next.Exact source := by
  obtain ⟨-, -, hvalues⟩ := ofDraft_eq_ok h
  have hoperation := operation_of_ofDraft hd h
  have hdirectives : next.operation.directives = source.operation.directives := by rw [hoperation]
  have hreferences : ∀ used, used ∈ next.operation.references ↔
      used ∈ set.references ++ source.operation.directiveUses := by
    intro used
    rw [Operation.references, List.mem_eraseDups, List.mem_append, List.mem_append,
      Operation.directiveUses, hdirectives, hu, SelectionSet.references, List.mem_eraseDups, or_comm]
    rfl
  have hdeclarations : next.operation.declarations = declared source.operation set := by
    rw [hoperation]
  refine ⟨hdirectives, ?_, fun used hused => ?_, ?_, fun name value => ?_⟩
  · rw [hdeclarations, declared]
    refine List.filter_congr fun definition _ => ?_
    rw [Bool.eq_iff_iff, List.contains_iff_mem, List.contains_iff_mem, hreferences]
  · have hmem := (hreferences used).1 hused
    obtain ⟨definition, hdefinition, rfl⟩ :
        ∃ definition ∈ source.operation.declarations, definition.name = used := by
      rcases List.mem_append.1 hmem with hset | hdirective
      · exact List.mem_map.1 (hn (List.mem_eraseDups.1 hset))
      · exact hd.directives used hdirective
    refine ⟨definition, ?_, rfl⟩
    rw [hdeclarations]
    exact List.mem_filter.2 ⟨hdefinition, by simpa using hmem⟩
  · rw [hvalues]
    refine nodup_usedVariables _ ?_
    rw [hdeclarations]
    exact (hd.declared.filter _).distinct
  · rw [hvalues]
    exact mem_usedVariables

theorem exact_extend (hd : source.operation.Declares source.bundle)
    (hs : Selection.EverywhereAll
      (Selection.Sparing (source.operation.declarations.map (·.name))) set.selections)
    (h : ofDraft source (draft source.operation kind name set [.extend set]) path = .ok next) :
    next.Exact source ∧ ∀ used, used ∈ Selection.usesInAll next.operation.set.selections ↔
      used ∈ Selection.usesInAll set.selections := by
  obtain ⟨scope, -, -, -, -, hrebuilds⟩ := OperationDraft.set_of_build
    (fun scope => Scope.runs_extend scope set scope.opening) (ofDraft_eq_ok h).1
  have huses : ∀ used, used ∈ Selection.usesInAll next.operation.set.selections ↔
      used ∈ Selection.usesInAll set.selections := by
    intro used
    have hopening := Scope.everywhere_opening
      (Selection.shallow_sparing (source.operation.declarations.map (·.name))).plain scope
    rw [Scope.mem_uses_rebuildsAll hs hopening hrebuilds, Scope.uses_opening]
    simp
  exact ⟨exact_of_ofDraft hd h huses hs.uses, huses⟩

theorem exact_fetch {id typeName : String} (hd : source.operation.Declares source.bundle)
    (hs : Selection.EverywhereAll
      (Selection.Sparing (source.operation.declarations.map (·.name))) set.selections)
    (h : fetch source name id typeName set path = .ok next) :
    next.Exact source ∧ ∀ used, used ∈ Selection.usesInAll next.operation.set.selections ↔
      used ∈ Selection.usesInAll set.selections := by
  obtain ⟨scope, -, -, -, -, hfetches⟩ := OperationDraft.set_of_build
    (fun scope => Scope.runs_nodeProgram scope id typeName set scope.opening) (ofDraft_eq_ok h).1
  have huses : ∀ used, used ∈ Selection.usesInAll next.operation.set.selections ↔
      used ∈ Selection.usesInAll set.selections := fun _ => Scope.mem_uses_fetches hfetches hs
  exact ⟨exact_of_ofDraft hd h huses hs.uses, huses⟩

end FollowUp

/-- The keys that lead to the next page, and the set that they start from. -/
def PageMark.start (mark : PageMark) : List String × SelectionSet :=
  match mark.usableAnchor? with
  | some anchor => (mark.path.drop anchor.depth, anchor.set)
  | none => (mark.path, mark.source.operation.set)

theorem PageMark.exact_nextPage {mark : PageMark} {next : FollowUp}
    (hd : mark.source.operation.Declares mark.source.bundle)
    (hs : Selection.EverywhereAll
      (Selection.Sparing (mark.source.operation.declarations.map (·.name))) mark.start.2.selections)
    (h : mark.nextPage = .ok next) :
    next.Exact mark.source ∧ Selection.usesInAll next.operation.set.selections ⊆
      Selection.usesApart mark.start.1 mark.start.2.selections := by
  have hkeyed : Selection.EverywhereAll Selection.WellKeyed mark.start.2.selections :=
    hs.and (fun _ h _ => h.keyed) hs
  obtain ⟨anchor, kept, hu, hp, h⟩ | ⟨hu, kept, hp, h⟩ := nextPage_cases h
  · simp only [start, hu] at hs hkeyed ⊢
    have hkept := SelectionSet.everywhere_prune (Selection.shallow_sparing _) hs hp
    obtain ⟨hexact, huses⟩ := FollowUp.exact_fetch hd hkept h
    exact ⟨hexact, fun used hu => SelectionSet.uses_prune hkeyed hp ((huses used).1 hu)⟩
  · simp only [start, hu] at hs hkeyed ⊢
    have hkept := SelectionSet.everywhere_prune (Selection.shallow_sparing _) hs hp
    obtain ⟨hexact, huses⟩ := FollowUp.exact_extend hd hkept h
    exact ⟨hexact, fun used hu => SelectionSet.uses_prune hkeyed hp ((huses used).1 hu)⟩

namespace Decoder

variable {decoder : Decoder} {program : OperationDraft} {data : Json} {address : List Move}

/-- A built operation whose fragments were defined uses declared variables, and none in fragments. -/
theorem sparing_of_build
    (hd : ∀ fragment ∈ Step.fragmentsOfAll program.program, fragment.DefinedOver decoder.bundle)
    (ho : (program.build decoder.bundle).result = .ok decoder.source.operation)
    (hk : Selection.EverywhereAll Selection.WellKeyed decoder.source.operation.set.selections) :
    Selection.EverywhereAll
      (Selection.Sparing (decoder.source.operation.declarations.map (·.name)))
      decoder.source.operation.set.selections := by
  obtain ⟨root, -, -, hvalid⟩ := (OperationDraft.valid_of_validOver (fun fragment hm =>
    Fragment.validOver_of_definedOver (hd fragment hm)) ho).root
  exact Selection.sparingAll_of_validOn hvalid hk

/-- The next page after a decoded connection or node, and a decoded object once more, are asked for with
those variables of the operation that the query uses, in their order, and with the values that were
sent for them. A variable that stood only in cursor arguments at the ends of the keys, and not in a
directive, is neither declared nor sent. -/
theorem followUp_exact
    (hd : ∀ fragment ∈ Step.fragmentsOfAll program.program, fragment.DefinedOver decoder.bundle)
    (ho : (program.build decoder.bundle).result = .ok decoder.source.operation)
    (hk : Selection.EverywhereAll Selection.WellKeyed decoder.source.operation.set.selections)
    {decoded : Decoded} (ha : (Decoded.object (decoder.decode data)).at? address = some decoded) :
    (∀ next, decoded.nextPage? = some (.ok next) → next.Exact decoder.source ∧
      ∃ mark, decoded.mark? = some mark ∧ ∀ used ∉ decoder.source.operation.directiveUses,
        used ∉ Selection.usesApart mark.start.1 mark.start.2.selections →
          used ∉ next.operation.declarations.map (·.name) ∧ used ∉ Keyed.names next.values) ∧
    ∀ model next, decoded = .object model → model.refetch = .ok next → next.Exact decoder.source := by
  have hsparing := sparing_of_build hd ho hk
  have hdeclares : decoder.source.operation.Declares decoder.source.bundle :=
    OperationDraft.declares_of_build ho
  have heach : ∀ spot, decoder.follow? (decoder.root data) address = some spot →
      spot.Each (Throughout _) decoder := fun spot => follow?_throughout hsparing
  refine ⟨fun next hnext => ?_, ?_⟩
  · obtain ⟨mark, hmark, hnext⟩ := Decoded.nextPage?_eq_ok hnext
    obtain ⟨hsource, hanchor⟩ := anchor_of_mark? heach (by rw [ha]; exact hmark)
    have hstart : Selection.EverywhereAll
        (Selection.Sparing (decoder.source.operation.declarations.map (·.name)))
        mark.start.2.selections := by
      unfold PageMark.start
      split
      · rename_i anchor hu
        have hm : mark.anchor = some anchor := (Option.filter_eq_some_iff.1 hu).1
        obtain ⟨-, static, parts, entries, hall, -, -, -, hset⟩ := hanchor anchor hm
        rw [hset]
        exact hall
      · rw [hsource]
        exact hsparing
    rw [← hsource] at hdeclares hstart ⊢
    obtain ⟨hexact, huses⟩ := PageMark.exact_nextPage hdeclares hstart hnext
    refine ⟨hexact, mark, hmark, fun used hdirective hapart => ?_⟩
    have hnot := hexact.not_declared hdirective fun hu => hapart (huses hu)
    exact ⟨hnot, hexact.not_sent hnot⟩
  · rintro model next rfl hnext
    have hsource := source_of_at? ha
    rw [at?_decode] at ha
    obtain ⟨spot, hspot, hread⟩ := Option.map_eq_some_iff.1 ha
    obtain ⟨static, parts, entries, hshape, -, hmodel⟩ := of_read_eq_object hread
    have hset : Selection.EverywhereAll
        (Selection.Sparing (decoder.source.operation.declarations.map (·.name)))
        model.head.set.selections := by
      have hall := (heach spot hspot).shape
      rw [hshape] at hall
      rw [hmodel]
      exact hall
    obtain ⟨id, -, hfetch⟩ := Model.fetch_of_refetch hnext
    rw [hsource] at hfetch
    exact (FollowUp.exact_fetch hdeclares hset hfetch).1

end Decoder

/-- A page of products, its length and its start both variables. -/
def startedDraft : OperationDraft :=
  ⟨.query, some "Products",
    [⟨"start", .ok (.named "String"), none⟩, ⟨"count", .ok (.named "Int"), some (.int 5)⟩],
    [⟨"cached", [("pages", .var "count")]⟩],
    [.object "shop" .none
      [.connection "products" ⟨none, [("first", .var "count"), ("after", .var "start")]⟩
        [.spread sampleFragment]]]⟩

abbrev startedDecoder : Decoder :=
  ⟨⟨sampleBundle, startedDraft.built sampleBundle, [("start", .str "c0"), ("count", .int 1)]⟩, none⟩

/-- The query for the next page refers to the count alone, as the start is only where the cursor
goes. -/
def startedRequested : Bool :=
  match (Decoded.object (startedDecoder.decode pagedData)).at? [.key "shop", .key "products"] with
  | some (.connection nodes info (some mark)) =>
    (Decoded.connection nodes info (some mark)).nextPage?.any
        (·.toOption.any (·.operation.references == ["count"])) &&
      !(Selection.usesApart mark.start.1 mark.start.2.selections).contains "start"
  | _ => false

theorem started_variables :
    ∃ decoded next, (Decoded.object (startedDecoder.decode pagedData)).at?
        [.key "shop", .key "products"] = some decoded ∧
      decoded.nextPage? = some (.ok next) ∧ next.Exact startedDecoder.source ∧
      next.operation.references = ["count"] ∧
      next.operation.declarations = [⟨"count", .named "Int", some (.int 5)⟩] ∧
      Keyed.find? "count" next.values = some (.int 1) ∧
      "start" ∉ next.operation.declarations.map (·.name) ∧ "start" ∉ Keyed.names next.values := by
  have h : startedRequested = true := by decide +kernel
  unfold startedRequested at h
  split at h
  · rename_i nodes info mark hc
    obtain ⟨hany, happart⟩ := Bool.and_eq_true_iff.1 h
    obtain ⟨result, hresult, hrefers⟩ := Option.any_eq_true _ _ |>.1 hany
    cases result with
    | error e => cases hrefers
    | ok next =>
      have hreferences : next.operation.references = ["count"] := eq_of_beq hrefers
      have hdefined : ∀ fragment ∈ Step.fragmentsOfAll startedDraft.program,
          fragment.DefinedOver sampleBundle := by
        intro fragment hf
        obtain rfl : fragment = sampleFragment := by
          simpa [startedDraft, Step.fragmentsOfAll, Step.fragments] using hf
        exact sampleFragment_definedOver
      obtain ⟨hexact, mark', hmark, hgone⟩ := (Decoder.followUp_exact hdefined
        (OperationDraft.build_eq_built (by decide +kernel)) (by decide +kernel) hc).1 next hresult
      obtain rfl := Option.some.inj hmark
      obtain ⟨hdeclared, hsent⟩ := hgone "start" (by decide +kernel) (by simpa using happart)
      have hcount : next.operation.declarations = [⟨"count", .named "Int", some (.int 5)⟩] := by
        rw [hexact.declarations, hreferences]
        cbv
      have hvalue : ("count", .int 1) ∈ next.values :=
        (hexact.values "count" (.int 1)).2 ⟨⟨_, hcount ▸ List.mem_cons_self, rfl⟩, rfl⟩
      exact ⟨_, next, hc, hresult, hexact, hreferences, hcount,
        Keyed.find?_of_mem hexact.distinct hvalue, hdeclared, hsent⟩
  · cases h

end GraphQLClient
