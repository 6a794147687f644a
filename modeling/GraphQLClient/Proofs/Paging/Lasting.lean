import GraphQLClient.Proofs.Building.Making
import GraphQLClient.Proofs.Paging.Repruning

set_option autoImplicit false

/-!
# What is kept lasts

A selection lasts if pruning it for some keys leaves it as it is. What a scope makes of a lasting
selection lasts as well: the types below may change, and fields may fall together, but each key still
leads on.
-/

namespace GraphQLClient

namespace Selection

variable {cursor key : String} {rest : List String}

/-- Pruning for the keys leaves the selection as it is. -/
def Lasting (cursor key : String) (rest : List String) (selection : Selection) : Prop :=
  ∃ leads, pruneOne cursor key rest selection = some (selection, leads)

/-- The selection leads along the key: it answers to it, or it is a fragment. -/
def Leading (key : String) (selection : Selection) : Prop :=
  selection.key? = none ∨ selection.key? = some key

/-- What is kept for the keys is kept as it is. -/
theorem pruneOne_of_pruneOne {selection : Selection} {kept : Selection × Bool}
    (h : pruneOne cursor key rest selection = some kept) :
    pruneOne cursor key rest kept.1 = some kept := by
  have hagain : ((pruneOne cursor key rest selection).bind fun kept =>
      pruneOne cursor key rest kept.1) = pruneOne cursor key rest selection :=
    pruneOne_pruneOne (overrides cursor cursor rest) selection
  rw [h, Option.bind_some] at hagain
  exact hagain

theorem lasting_of_pruneEach {selections : List Selection} {kept : Selection × Bool}
    (h : kept ∈ pruneEach cursor key rest selections) : Lasting cursor key rest kept.1 := by
  obtain ⟨selection, -, hkept⟩ := mem_pruneEach.1 h
  exact ⟨kept.2, pruneOne_of_pruneOne hkept⟩

theorem leads_iff {selection : Selection} {kept : Selection × Bool}
    (h : pruneOne cursor key rest selection = some kept) : kept.2 = true ↔ selection.Leading key := by
  cases selection with
  | leaf field =>
    obtain ⟨hkey, -, rfl⟩ | ⟨hkey, -, rfl⟩ := pruneOne_leaf_cases h
    · exact iff_of_true rfl (by simp [Leading, key?, field?, hkey])
    · exact iff_of_false Bool.false_ne_true (by simp [Leading, key?, field?, hkey])
  | composite field typeName selections =>
    obtain ⟨hkey, hkept⟩ := pruneOne_composite_cases h
    have hleading : (Selection.composite field typeName selections).Leading key := by
      simp [Leading, key?, field?, hkey]
    obtain ⟨-, rfl⟩ | ⟨_, _, -, ⟨-, _, -, rfl⟩ | ⟨-, _, _, -, -, rfl⟩⟩ := hkept
    · exact iff_of_true rfl hleading
    · exact iff_of_true rfl hleading
    · exact iff_of_true rfl hleading
  | inlineFragment condition typeName selections =>
    obtain ⟨set, -, rfl⟩ := Option.map_eq_some_iff.1 h
    exact iff_of_true rfl (.inl rfl)
  | spread serial name condition typeName selections =>
    obtain ⟨set, -, rfl⟩ := Option.map_eq_some_iff.1 h
    exact iff_of_true rfl (.inl rfl)

/-- A set whose selections all last, and one of which leads on, is kept as it is. -/
theorem keptIfFound_eq_self_iff {typeName : String} {selections : List Selection} :
    keptIfFound typeName (pruneEach cursor key rest selections) = some ⟨typeName, selections⟩ ↔
      (∀ selection ∈ selections, selection.Lasting cursor key rest) ∧
        ∃ selection ∈ selections, selection.Leading key := by
  constructor
  · intro h
    have hset := eq_of_keptIfFound h
    have hsame : (pruneEach cursor key rest selections).map Prod.fst = selections :=
      (SelectionSet.mk.inj hset).2.symm
    refine ⟨fun selection hs => ?_, ?_⟩
    · rw [← hsame] at hs
      obtain ⟨kept, hkept, rfl⟩ := List.mem_map.1 hs
      exact lasting_of_pruneEach hkept
    · rw [keptIfFound] at h
      split at h
      · rename_i hany
        obtain ⟨kept, hkept, hleads⟩ := List.any_eq_true.1 hany
        refine ⟨kept.1, hsame ▸ List.mem_map_of_mem hkept, ?_⟩
        obtain ⟨selection, -, hpruned⟩ := mem_pruneEach.1 hkept
        exact (leads_iff (pruneOne_of_pruneOne hpruned)).1 hleads
      · cases h
  · rintro ⟨hlasting, first, hfirst, hleading⟩
    have hall : ∀ selections : List Selection,
        (∀ selection ∈ selections, selection.Lasting cursor key rest) →
          (pruneEach cursor key rest selections).map Prod.fst = selections := by
      intro selections
      induction selections with
      | nil => exact fun _ => rfl
      | cons selection others ih =>
        intro h
        obtain ⟨leads, hself⟩ := h selection List.mem_cons_self
        rw [pruneEach, hself, List.map_append, ih fun other ho => h other (List.mem_cons_of_mem _ ho)]
        rfl
    obtain ⟨leads, hself⟩ := hlasting first hfirst
    have hleads : (pruneEach cursor key rest selections).any (·.2) = true :=
      List.any_eq_true.2 ⟨_, mem_pruneEach.2 ⟨_, hfirst, hself⟩, (leads_iff hself).2 hleading⟩
    rw [keptIfFound_eq_some hleads, hall selections hlasting]

/-- Replacing the nodes of a connection by themselves changes nothing. -/
theorem replaceNodes_self {typeName : String} {selections : List Selection} {nodes : SelectionSet}
    (hd : Distinct selections)
    (hi : ∀ field name inner, .composite field name inner ∈ selections → Distinct inner)
    (h : SelectionSet.nodeSet? ⟨typeName, selections⟩ = some nodes) :
    replaceNodes nodes selections = selections := by
  have hself : ∀ {answer : String} {selections : List Selection} {below : SelectionSet},
      Distinct selections → SelectionSet.below? ⟨"", selections⟩ answer = some below →
        replaceSet answer below selections = selections := by
    intro answer selections below hd hb
    obtain ⟨found, hfound, hset⟩ := Option.bind_eq_some_iff.1 hb
    refine (List.map_congr_left fun selection hs => ?_).trans (List.map_id _)
    split
    · rename_i hanswers
      obtain rfl := hd.eq_of_answers hfound hs hanswers
      cases found with
      | composite field name inner =>
        obtain rfl := Option.some.inj hset
        rfl
      | _ => cases hset
    · rfl
  obtain ⟨edges, hedges, hnode⟩ := Option.bind_eq_some_iff.1 h
  have hbelow : SelectionSet.below? ⟨"", selections⟩ "edges" = some edges := hedges
  obtain ⟨found, hfound, hset⟩ := Option.bind_eq_some_iff.1 hedges
  have hinner : Distinct edges.selections := by
    cases found with
    | composite field name inner =>
      obtain rfl := Option.some.inj hset
      exact hi field name inner (List.mem_of_find?_eq_some hfound)
    | _ => cases hset
  rw [replaceNodes, hbelow]
  change replaceSet "edges" ⟨edges.typeName, replaceSet "node" nodes edges.selections⟩ selections = _
  rw [hself hinner hnode]
  exact hself hd hbelow

theorem Leading.of_key? {selection other : Selection} (h : selection.Leading key)
    (hk : other.key? = selection.key?) : other.Leading key := by
  rw [Leading, hk]
  exact h

/-- The set below a field or a fragment, if it is kept as it is for the keys. -/
theorem lasting_through {next typeName : String} {more : List String} {field : Field}
    {selections : List Selection} (hkey : field.responseKey = key) (hc : field.connection = false) :
    Lasting cursor key (next :: more) (.composite field typeName selections) ↔
      keptIfFound typeName (pruneEach cursor next more selections) = some ⟨typeName, selections⟩ := by
  rw [Lasting, pruneOne_through typeName selections next more hkey hc]
  constructor
  · rintro ⟨leads, h⟩
    obtain ⟨set, hset, heq⟩ := Option.map_eq_some_iff.1 h
    obtain ⟨-, hn, hs⟩ := Selection.composite.inj (Prod.mk.inj heq).1
    rw [hset, ← hn, ← hs]
  · intro h
    exact ⟨true, by rw [h]; rfl⟩

theorem lasting_inlineFragment {condition typeName : String} {selections : List Selection} :
    Lasting cursor key rest (.inlineFragment condition typeName selections) ↔
      keptIfFound typeName (pruneEach cursor key rest selections) = some ⟨typeName, selections⟩ := by
  rw [Lasting, pruneOne]
  constructor
  · rintro ⟨leads, h⟩
    obtain ⟨set, hset, heq⟩ := Option.map_eq_some_iff.1 h
    obtain ⟨-, hn, hs⟩ := Selection.inlineFragment.inj (Prod.mk.inj heq).1
    rw [hset, ← hn, ← hs]
  · intro h
    exact ⟨true, by rw [h]; rfl⟩

theorem lasting_nodes {next typeName : String} {more : List String} {field : Field}
    {selections : List Selection} (hkey : field.responseKey = key) (hc : field.connection = true) :
    Lasting cursor key (next :: more) (.composite field typeName selections) ↔
      ∃ nodes, SelectionSet.nodeSet? ⟨typeName, selections⟩ = some nodes ∧
        keptIfFound nodes.typeName (pruneEach cursor next more nodes.selections) = some nodes ∧
        replaceNodes nodes selections = selections := by
  rw [Lasting, pruneOne_nodes typeName selections next more hkey hc]
  constructor
  · rintro ⟨leads, h⟩
    obtain ⟨nodes, hnodes, heq⟩ := Option.map_eq_some_iff.1 h
    obtain ⟨old, hold, hkept⟩ := Option.bind_eq_some_iff.1 hnodes
    have hsame : replaceNodes nodes selections = selections :=
      (Selection.composite.inj (Prod.mk.inj heq).1).2.2
    -- The nodes that are put in are those that stand there then.
    have hself := (nodeSet?_replaceNodes nodes hold).1
    rw [hsame, hold] at hself
    obtain rfl := Option.some.inj hself
    exact ⟨old, hold, hkept, hsame⟩
  · rintro ⟨nodes, hnodes, hkept, hsame⟩
    exact ⟨true, by rw [hnodes, Option.bind_some, hkept, Option.map_some, hsame]⟩

/-- What scopes make of lasting selections lasts for the keys. -/
def Survives (cursor : String) (keys : List String) : Prop :=
  ∀ key rest, keys = key :: rest → ∀ (scope : Scope) (bundle : Bundle) (selection made : Selection),
    selection.Lasting cursor key rest → scope.Makes selection made →
      made.Everywhere (Framed bundle) → made.Lasting cursor key rest

/-- A set that is kept whole is kept whole again once a scope has made it anew. -/
theorem keptIfFound_rebuilt {typeName typeName' : String} {scope : Scope} {bundle : Bundle}
    {selections after : List Selection}
    (hmade : ∀ selection ∈ selections, ∀ made, selection.Lasting cursor key rest →
      scope.Makes selection made → made.Everywhere (Framed bundle) → made.Lasting cursor key rest)
    (h : keptIfFound typeName (pruneEach cursor key rest selections) = some ⟨typeName, selections⟩)
    (hr : scope.RebuildsAll selections [] after) (hf : EverywhereAll (Framed bundle) after) :
    keptIfFound typeName' (pruneEach cursor key rest after) = some ⟨typeName', after⟩ := by
  obtain ⟨hlasting, first, hfirst, hleading⟩ := keptIfFound_eq_self_iff.1 h
  obtain ⟨⟨added, rfl, hadded⟩, hkeys⟩ := hr.added
  refine keptIfFound_eq_self_iff.2 ⟨fun made hm => ?_, ?_⟩
  · obtain ⟨selection, hs, hmakes⟩ := hadded made hm
    exact hmade selection hs made (hlasting selection hs) hmakes (everywhereAll_iff.1 hf made hm)
  · obtain ⟨made, hm, hkey⟩ := hkeys first hfirst
    exact ⟨made, hm, hleading.of_key? hkey⟩

theorem survives_through {next typeName : String} {more : List String} {field : Field}
    {selections : List Selection} {scope : Scope} {bundle : Bundle} {made : Selection}
    (ih : Survives cursor (next :: more)) (hkey : field.responseKey = key)
    (hl : Lasting cursor key (next :: more) (.composite field typeName selections))
    (hm : scope.Makes (.composite field typeName selections) made)
    (hf : made.Everywhere (Framed bundle)) : made.Lasting cursor key (next :: more) := by
  obtain ⟨type, inner, hinner, rfl⟩ := hm.of_composite
  cases hc : field.connection with
  | false =>
    rw [lasting_through hkey hc] at hl ⊢
    exact keptIfFound_rebuilt (fun selection _ made => ih next more rfl _ bundle selection made) hl
      hinner hf.2
  | true =>
    rw [lasting_nodes hkey hc] at hl ⊢
    obtain ⟨nodes, hnodes, hkept, -⟩ := hl
    obtain ⟨edges, hedges, hnode⟩ := Option.bind_eq_some_iff.1 hnodes
    obtain ⟨_, edges', hedges', hrebuilt⟩ := Scope.RebuildsAll.below? hinner hedges type.name
    obtain ⟨child, nodes', hnodes', hagain⟩ :=
      Scope.RebuildsAll.below? hrebuilt hnode edges'.typeName
    have hfound : SelectionSet.nodeSet? ⟨type.name, inner⟩ = some nodes' := by
      rw [SelectionSet.nodeSet?, hedges']
      exact hnodes'
    have hset : EverywhereAll (Framed bundle) (SelectionSet.mk type.name inner).selections := hf.2
    have hframed : EverywhereAll (Framed bundle) nodes'.selections :=
      everywhere_nodeSet? hset hfound
    obtain ⟨⟨-, -, hdistinct, -⟩, hall⟩ := hf
    refine ⟨nodes', hfound, ?_, replaceNodes_self hdistinct (fun other name below hs => ?_) hfound⟩
    · exact keptIfFound_rebuilt (fun selection _ made => ih next more rfl child bundle selection made)
        hkept hagain hframed
    · obtain ⟨⟨-, -, hbelow, -⟩, -⟩ := everywhereAll_iff.1 hall _ hs
      exact hbelow

mutual
theorem lasting_of_makes {scope : Scope} {bundle : Bundle} (ih : Survives cursor rest)
    (selection made : Selection) (hl : selection.Lasting cursor key rest)
    (hm : scope.Makes selection made) (hf : made.Everywhere (Framed bundle)) :
    made.Lasting cursor key rest := by
  cases selection with
  | leaf field =>
    rw [hm.of_leaf]
    exact hl
  | composite field typeName selections =>
    by_cases hkey : field.responseKey = key
    · cases rest with
      | nil =>
        obtain ⟨type, inner, -, rfl⟩ := hm.of_composite
        obtain ⟨leads, hself⟩ := hl
        rw [pruneOne_end typeName selections hkey] at hself
        have hsame : field.withCursor cursor = field :=
          (Selection.composite.inj (Prod.mk.inj (Option.some.inj hself)).1).1
        exact ⟨true, by rw [pruneOne_end type.name inner hkey, hsame]⟩
      | cons next more => exact survives_through ih hkey hl hm hf
    · obtain ⟨leads, hself⟩ := hl
      rw [pruneOne_of_ne typeName selections rest hkey] at hself
      cases hself
  | inlineFragment condition typeName selections =>
    obtain ⟨target, inner, hinner, rfl⟩ := hm.of_inlineFragment
    rw [lasting_inlineFragment] at hl ⊢
    exact keptIfFound_rebuilt (lasting_of_makesEach ih selections) hl hinner hf.2
  | spread serial name condition typeName selections =>
    obtain ⟨leads, hself⟩ := hl
    obtain ⟨set, -, heq⟩ := Option.map_eq_some_iff.1 hself
    cases heq

theorem lasting_of_makesEach {scope : Scope} {bundle : Bundle} (ih : Survives cursor rest)
    (selections : List Selection) :
    ∀ selection ∈ selections, ∀ made, selection.Lasting cursor key rest →
      scope.Makes selection made → made.Everywhere (Framed bundle) → made.Lasting cursor key rest := by
  cases selections with
  | nil => exact fun _ hs => absurd hs List.not_mem_nil
  | cons first others =>
    intro selection hs made hl hm hf
    rcases List.mem_cons.1 hs with hfirst | hs
    · rw [hfirst] at hl hm
      exact lasting_of_makes ih first made hl hm hf
    · exact lasting_of_makesEach ih others selection hs made hl hm hf
end

theorem survives (cursor : String) (keys : List String) : Survives cursor keys := by
  induction keys with
  | nil => exact fun _ _ h => absurd h (List.cons_ne_nil _ _).symm
  | cons key rest ih =>
    rintro _ _ ⟨⟩ scope bundle selection made hl hm hf
    exact lasting_of_makes ih selection made hl hm hf

end Selection

/-- What a scope makes of a set that pruning keeps whole is kept whole as well. -/
theorem SelectionSet.prune_rebuilt {scope : Scope} {bundle : Bundle} {set : SelectionSet}
    {after : List Selection} {keys : List String} {cursor : String}
    (h : set.prune keys cursor = some set) (hr : scope.RebuildsAll set.selections [] after)
    (hf : Selection.EverywhereAll (Selection.Framed bundle) after) (typeName : String) :
    SelectionSet.prune ⟨typeName, after⟩ keys cursor = some ⟨typeName, after⟩ := by
  obtain ⟨key, rest, rfl⟩ := SelectionSet.keys_of_prune h
  exact Selection.keptIfFound_rebuilt
    (fun selection _ made => Selection.survives cursor (key :: rest) key rest rfl scope bundle selection
      made) h hr hf

end GraphQLClient
