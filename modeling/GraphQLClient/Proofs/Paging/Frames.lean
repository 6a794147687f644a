import GraphQLClient.Proofs.Building.Acceptance
import GraphQLClient.Proofs.Paging.PrunedValidity
import GraphQLClient.Proofs.Paging.Refetching

set_option autoImplicit false

/-!
# Sets that are framed

In a framed set every field, however deep, is declared by the type that it is selected on with the type
that its own set names. Valid sets are framed, and unlike validity this says nothing of the type that
the set as a whole is selected on, of arguments or of variables: it stays with all that is decoded,
merged or pruned. Where a scope declares the outermost fields alike, it makes of a framed set what it
was.
-/

namespace GraphQLClient

namespace Selection

/-- The type of the set below is known, and the set asks for each key once and for fields as they are
declared. -/
def Framed (bundle : Bundle) : Selection → Prop
  | .leaf _ => True
  | .composite _ typeName inner => ∃ type, bundle.get? typeName = some type ∧ Distinct inner ∧
      ∀ selection ∈ inner, selection.DeclaredBy type
  | .inlineFragment condition typeName inner => typeName = condition ∧
      ∃ type, bundle.get? condition = some type ∧ Distinct inner ∧
        ∀ selection ∈ inner, selection.DeclaredBy type
  | .spread _ _ condition typeName inner => typeName = condition ∧
      ∃ type, bundle.get? condition = some type ∧ Distinct inner ∧
        ∀ selection ∈ inner, selection.DeclaredBy type

theorem ValidOn.declaredBy {scope : Scope} {selection : Selection} (h : selection.ValidOn scope) :
    selection.DeclaredBy scope.type := by
  cases selection with
  | composite field typeName inner =>
    unfold ValidOn at h
    obtain ⟨type, ⟨⟨-, declared, hdeclared, hget, -⟩, -⟩, ⟨hname, -⟩, -⟩ := h
    obtain rfl : typeName = type.name := hname
    rw [DeclaredBy, hdeclared, Option.map_some, Bundle.get?_name hget]
  | _ => trivial

theorem AllValidOn.declaredBy {scope : Scope} {selections : List Selection}
    (h : AllValidOn scope selections) : ∀ selection ∈ selections, selection.DeclaredBy scope.type :=
  fun selection hs => (allValidOn_iff.1 h selection hs).declaredBy

mutual
theorem framed_of_validOn {scope : Scope} {selection : Selection} (h : selection.ValidOn scope) :
    selection.Everywhere (Framed scope.bundle) := by
  cases selection with
  | leaf field => trivial
  | composite field typeName inner =>
    unfold ValidOn at h
    obtain ⟨type, ⟨⟨-, declared, -, hget, -⟩, -⟩, ⟨hname, -, hdistinct⟩, hi⟩ := h
    obtain rfl : typeName = type.name := hname
    have hall : EverywhereAll (Framed (scope.within type).bundle) inner := framed_of_allValidOn hi
    exact ⟨⟨type, Bundle.get?_self hget, hdistinct, hi.declaredBy⟩, hall⟩
  | inlineFragment condition typeName inner =>
    unfold ValidOn at h
    obtain ⟨target, ha, ⟨hname, -, hdistinct⟩, hi⟩ := h
    obtain rfl : typeName = target.name := hname
    have hall : EverywhereAll (Framed (scope.within target).bundle) inner := framed_of_allValidOn hi
    exact ⟨⟨Bundle.get?_name ha.1, target, ha.1, hdistinct, hi.declaredBy⟩, hall⟩
  | spread serial name condition typeName inner =>
    unfold ValidOn at h
    obtain ⟨target, ha, ⟨hname, -, hdistinct⟩, hi⟩ := h
    obtain rfl : typeName = target.name := hname
    have hall : EverywhereAll (Framed (⟨scope.bundle, [], target⟩ : Scope).bundle) inner :=
      framed_of_allValidOn hi
    exact ⟨⟨Bundle.get?_name ha.1, target, ha.1, hdistinct, hi.declaredBy⟩, hall⟩

/-- Valid sets are framed. -/
theorem framed_of_allValidOn {scope : Scope} {selections : List Selection}
    (h : AllValidOn scope selections) : EverywhereAll (Framed scope.bundle) selections := by
  cases selections with
  | nil => trivial
  | cons selection rest => exact ⟨framed_of_validOn h.1, framed_of_allValidOn h.2⟩
end

end Selection

namespace Scope

mutual
theorem Rebuilds.eq_of_framed {scope : Scope} {selection : Selection}
    {before selections after : List Selection} (hf : selection.Everywhere (Selection.Framed scope.bundle))
    (hd : selection.DeclaredBy scope.type)
    (hdistinct : Selection.Distinct (before ++ selection :: selections))
    (h : scope.Rebuilds selection before after) : after = before ++ [selection] := by
  cases selection with
  | leaf field =>
    unfold Rebuilds at h
    rw [h.2, Selection.settled_of_find?_eq_none (hdistinct.free_key rfl)]
  | composite field typeName inner =>
    unfold Rebuilds at h
    obtain ⟨⟨type, hget, hinner, hdeclared⟩, hall⟩ := hf
    obtain ⟨type', inner', ht, hr, rfl⟩ := h
    have htype := ht.1.1.typeOf?
    rw [typeOf?_of_declaredBy hd, hget] at htype
    obtain rfl := Option.some.inj htype
    have hbelow : Selection.EverywhereAll (Selection.Framed (scope.within type).bundle) inner := hall
    have hsame : inner' = [] ++ inner := RebuildsAll.eq_of_framed hbelow hdeclared hinner hr
    rw [Selection.settled_of_find?_eq_none (hdistinct.free_key rfl), hsame, Bundle.get?_name hget]
    rfl
  | inlineFragment condition typeName inner =>
    unfold Rebuilds at h
    obtain ⟨⟨rfl, type, hget, hinner, hdeclared⟩, hall⟩ := hf
    obtain ⟨target, inner', ha, hr, -, rfl⟩ := h
    obtain rfl := Option.some.inj (ha.1.symm.trans hget)
    have hbelow : Selection.EverywhereAll (Selection.Framed (scope.within target).bundle) inner :=
      hall
    have hsame : inner' = [] ++ inner := RebuildsAll.eq_of_framed hbelow hdeclared hinner hr
    rw [hsame, Bundle.get?_name hget]
    rfl
  | spread serial name condition typeName inner =>
    unfold Rebuilds at h
    have hfree := hdistinct.free_spread rfl
    rw [h.2, spreadBeside, if_neg (by rw [hfree]; exact Bool.false_ne_true)]
    rfl

/-- What a scope makes of a framed set whose fields it declares alike is the set itself. -/
theorem RebuildsAll.eq_of_framed {scope : Scope} {selections before after : List Selection}
    (hf : Selection.EverywhereAll (Selection.Framed scope.bundle) selections)
    (hd : ∀ selection ∈ selections, selection.DeclaredBy scope.type)
    (hdistinct : Selection.Distinct (before ++ selections))
    (h : scope.RebuildsAll selections before after) : after = before ++ selections := by
  cases selections with
  | nil =>
    unfold RebuildsAll at h
    rw [h, List.append_nil]
  | cons selection rest =>
    unfold RebuildsAll at h
    obtain ⟨between, hfirst, hrest⟩ := h
    obtain rfl := Rebuilds.eq_of_framed hf.1 (hd _ List.mem_cons_self) hdistinct hfirst
    have hmore := RebuildsAll.eq_of_framed hf.2 (fun other ho => hd other (List.mem_cons_of_mem _ ho))
      hdistinct.tail hrest
    rw [hmore, List.append_assoc]
    rfl
end

/-- By itself a framed selection stays as it is. -/
theorem Makes.eq_of_framed {scope : Scope} {selection made : Selection}
    (hf : selection.Everywhere (Selection.Framed scope.bundle)) (hd : selection.DeclaredBy scope.type)
    (h : scope.Makes selection made) : made = selection :=
  List.singleton_inj.1 (Rebuilds.eq_of_framed hf hd (distinct_singleton selection) h)

end Scope

namespace Selection

theorem mem_beside {before : List Selection} {made selection : Selection}
    (h : selection ∈ beside before made) : selection ∈ before ∨ selection = made := by
  rcases beside_cases before made with hbeside | ⟨hbeside, -⟩ <;> rw [hbeside] at h
  · simpa using h
  · exact .inl h

end Selection

/-- A scope that declares the fields of a framed set alike adds nothing to it. -/
theorem Scope.RebuildsAll.mem_of_framed {scope : Scope} {selections before after : List Selection}
    (hf : Selection.EverywhereAll (Selection.Framed scope.bundle) selections)
    (hd : ∀ selection ∈ selections, selection.DeclaredBy scope.type)
    (h : scope.RebuildsAll selections before after) :
    ∀ selection ∈ after, selection ∈ before ∨ selection ∈ selections := by
  induction selections generalizing before with
  | nil =>
    unfold RebuildsAll at h
    exact fun selection hs => .inl (h ▸ hs)
  | cons first rest ih =>
    unfold RebuildsAll at h
    obtain ⟨between, hfirst, hrest⟩ := h
    obtain ⟨made, hmade, -, rfl⟩ := rebuilds_iff.1 hfirst
    obtain rfl := hmade.eq_of_framed hf.1 (hd _ List.mem_cons_self)
    intro selection hs
    rcases ih hf.2 (fun other ho => hd other (List.mem_cons_of_mem _ ho)) hrest selection hs with hs | hs
    · rcases Selection.mem_beside hs with hs | rfl
      · exact .inl hs
      · exact .inr List.mem_cons_self
    · exact .inr (List.mem_cons_of_mem _ hs)

/-! ## What is left of a set -/

namespace Selection

/-- What is left of selections for the keys of a path: no key and no fragment comes anew, fields keep the
types of their sets, and no leaf is lost that tells objects apart, unless its key is on the path. -/
structure LeftOf (path : List String) (selections left : List Selection) : Prop where
  keys : (left.filterMap key?).Sublist (selections.filterMap key?)
  spreads : (left.filterMap spreadName?).Sublist (selections.filterMap spreadName?)
  fields : ∀ field typeName inner, .composite field typeName inner ∈ left →
    ∃ field' inner', .composite field' typeName inner' ∈ selections ∧ field'.name = field.name
  identities : ∀ name, name = "id" ∨ name = typenameField → name ∉ path →
    .leaf (.plain name) ∈ selections → .leaf (.plain name) ∈ left

theorem LeftOf.refl (path : List String) (selections : List Selection) :
    LeftOf path selections selections :=
  ⟨.refl _, .refl _, fun field _ inner hm => ⟨field, inner, hm, rfl⟩, fun _ _ _ hm => hm⟩

theorem LeftOf.distinct {path : List String} {selections left : List Selection}
    (h : LeftOf path selections left)
    (hd : Distinct selections) : Distinct left :=
  ⟨hd.1.sublist h.keys, hd.2.sublist h.spreads⟩

theorem LeftOf.distinct_beside {path : List String} {before selections left : List Selection}
    (h : LeftOf path selections left) (hd : Distinct (before ++ selections)) :
    Distinct (before ++ left) := by
  simp only [Distinct, List.filterMap_append] at hd ⊢
  exact ⟨hd.1.sublist ((List.Sublist.refl _).append h.keys),
    hd.2.sublist ((List.Sublist.refl _).append h.spreads)⟩

theorem LeftOf.declaredBy {path : List String} {selections left : List Selection}
    {type : TypeDescriptor} (h : LeftOf path selections left)
    (hd : ∀ selection ∈ selections, selection.DeclaredBy type) :
    ∀ selection ∈ left, selection.DeclaredBy type := by
  intro selection hs
  cases selection with
  | composite field typeName inner =>
    obtain ⟨field', inner', hm, hname⟩ := h.fields field typeName inner hs
    have hdeclared := hd _ hm
    rw [DeclaredBy, hname] at hdeclared
    exact hdeclared
  | _ => trivial

/-- A property that a field keeps when less is left below it for the keys of a path. -/
structure Hereditary (path : List String) (P : Selection → Prop) : Prop where
  leaf : ∀ field, P (.leaf field)
  distinct : ∀ field typeName inner, P (.composite field typeName inner) → Distinct inner
  composite : ∀ field field' typeName inner left, P (.composite field typeName inner) →
    LeftOf path inner left → P (.composite field' typeName left)
  inlineFragment : ∀ condition typeName inner left, P (.inlineFragment condition typeName inner) →
    LeftOf path inner left → P (.inlineFragment condition typeName left)
  spread : ∀ serial name condition typeName inner, P (.spread serial name condition typeName inner) →
    P (.inlineFragment condition typeName inner)

theorem hereditary_framed (path : List String) (bundle : Bundle) :
    Hereditary path (Framed bundle) where
  leaf := fun _ => trivial
  distinct := by
    rintro field typeName inner ⟨type, -, hdistinct, -⟩
    exact hdistinct
  composite := by
    rintro field field' typeName inner left ⟨type, hget, hdistinct, hd⟩ hleft
    exact ⟨type, hget, hleft.distinct hdistinct, hleft.declaredBy hd⟩
  inlineFragment := by
    rintro condition typeName inner left ⟨hname, type, hget, hdistinct, hd⟩ hleft
    exact ⟨hname, type, hget, hleft.distinct hdistinct, hleft.declaredBy hd⟩
  spread := fun _ _ _ _ _ h => h

variable {P : Selection → Prop} {cursor key : String} {rest path : List String}

theorem field_pruneOne {selection : Selection} {field : Field} {typeName : String}
    {inner : List Selection} {leads : Bool}
    (h : pruneOne cursor key rest selection = some (.composite field typeName inner, leads)) :
    ∃ field' inner', selection = .composite field' typeName inner' ∧ field'.name = field.name := by
  cases selection with
  | leaf other => obtain ⟨-, -, heq⟩ | ⟨-, -, heq⟩ := pruneOne_leaf_cases h <;> cases heq
  | composite other otherName selections =>
    obtain ⟨-, ⟨-, heq⟩ | ⟨next, more, -, hthrough⟩⟩ := pruneOne_composite_cases h
    · cases heq
      exact ⟨other, _, rfl, rfl⟩
    · obtain ⟨-, set, hset, heq⟩ | ⟨-, old, nodes, -, -, heq⟩ := hthrough
      · rw [eq_of_keptIfFound hset] at heq
        cases heq
        exact ⟨_, selections, rfl, rfl⟩
      · cases heq
        exact ⟨_, selections, rfl, rfl⟩
  | inlineFragment condition otherName selections =>
    obtain ⟨set, -, heq⟩ := Option.map_eq_some_iff.1 h
    cases heq
  | spread serial name condition otherName selections =>
    obtain ⟨set, -, heq⟩ := Option.map_eq_some_iff.1 h
    cases heq

/-- What tells objects apart is kept beside any other key. -/
theorem pruneOne_identity {name : String} (hn : name = "id" ∨ name = typenameField) (hk : name ≠ key) :
    pruneOne cursor key rest (.leaf (.plain name)) = some (.leaf (.plain name), false) := by
  have hkey : ((Field.plain name).responseKey == key) = false := beq_eq_false_iff_ne.2 hk
  have hidentity : isIdentity (Field.plain name) = true := by
    rcases hn with rfl | rfl <;> rfl
  rw [pruneOne, hkey, hidentity]
  rfl

theorem leftOf_pruneEach (hk : key ∈ path) (selections : List Selection) :
    LeftOf path selections ((pruneEach cursor key rest selections).map Prod.fst) := by
  refine ⟨keys_pruneEach selections, ?_, fun field typeName inner hm => ?_,
    fun name hname hpath hm => ?_⟩
  · have hnone : ((pruneEach cursor key rest selections).map Prod.fst).filterMap spreadName? = [] := by
      rw [List.filterMap_eq_nil_iff]
      intro selection hs
      obtain ⟨kept, hkept, rfl⟩ := List.mem_map.1 hs
      obtain ⟨old, -, hold⟩ := mem_pruneEach.1 hkept
      exact (key?_pruneOne hold).2
    rw [hnone]
    exact List.nil_sublist _
  · obtain ⟨⟨kept, leads⟩, hkept, rfl⟩ := List.mem_map.1 hm
    obtain ⟨old, ho, hold⟩ := mem_pruneEach.1 hkept
    obtain ⟨field', inner', rfl, hname⟩ := field_pruneOne hold
    exact ⟨field', inner', ho, hname⟩
  · have hne : name ≠ key := fun heq => hpath (heq ▸ hk)
    exact List.mem_map.2 ⟨_, mem_pruneEach.2 ⟨_, hm, pruneOne_identity hname hne⟩, rfl⟩

section

variable {answer : String} {below set : SelectionSet} {selections : List Selection}

/-- A set may be replaced by another one on the same type, as long as only one field has it. -/
theorem leftOf_replaceSet (hd : Distinct selections)
    (hb : SelectionSet.below? ⟨"", selections⟩ answer = some below)
    (ha : answer ≠ "id" ∧ answer ≠ typenameField) (hn : set.typeName = below.typeName) :
    LeftOf path selections (replaceSet answer set selections) := by
  obtain ⟨found, hfind, hset⟩ := Option.bind_eq_some_iff.1 hb
  refine ⟨?_, ?_, fun field typeName inner hm => ?_, fun name hname _ hm => ?_⟩
  · rw [filterMap_replaceSet key? set fun selection => (key?_withSet set selection).1]
  · rw [filterMap_replaceSet spreadName? set fun selection => (key?_withSet set selection).2]
  · obtain ⟨old, ho, hsame⟩ := List.mem_map.1 hm
    split at hsame
    · rename_i hanswers
      obtain rfl := hd.eq_of_answers hfind ho hanswers
      cases found with
      | composite other otherName selections =>
        obtain rfl := Option.some.inj hset
        cases hsame
        exact ⟨_, selections, hn ▸ ho, rfl⟩
      | _ => cases hset
    · exact ⟨field, inner, hsame ▸ ho, rfl⟩
  · refine List.mem_map.2 ⟨_, hm, if_neg fun hanswers => ?_⟩
    have hkey : name = answer := beq_iff_eq.1 hanswers
    rcases hname with rfl | rfl
    · exact ha.1 hkey.symm
    · exact ha.2 hkey.symm

theorem everywhere_replaced (hP : Hereditary path P) (hd : Distinct selections)
    (hall : EverywhereAll P selections)
    (hb : SelectionSet.below? ⟨"", selections⟩ answer = some below)
    (hn : set.typeName = below.typeName) (hleft : LeftOf path below.selections set.selections)
    (hset : EverywhereAll P set.selections) : EverywhereAll P (replaceSet answer set selections) := by
  obtain ⟨found, hfind, hfound⟩ := Option.bind_eq_some_iff.1 hb
  refine everywhereAll_iff.2 fun selection hs => ?_
  obtain ⟨old, ho, rfl⟩ := List.mem_map.1 hs
  split
  · rename_i hanswers
    obtain rfl := hd.eq_of_answers hfind ho hanswers
    cases found with
    | composite field typeName inner =>
      obtain rfl := Option.some.inj hfound
      have hself : P (.composite field typeName inner) := (everywhereAll_iff.1 hall _ ho).1
      exact ⟨hn ▸ hP.composite field field typeName inner _ hself hleft, hset⟩
    | _ => cases hfound
  · exact everywhereAll_iff.1 hall old ho

end

/-- What the nodes of a connection are replaced by stays below it. -/
theorem replaceNodes_hereditary {typeName : String} {selections : List Selection}
    {nodes kept : SelectionSet} (hP : Hereditary path P) (hd : Distinct selections)
    (hall : EverywhereAll P selections)
    (hnodes : SelectionSet.nodeSet? ⟨typeName, selections⟩ = some nodes)
    (hn : kept.typeName = nodes.typeName) (hleft : LeftOf path nodes.selections kept.selections)
    (hkept : EverywhereAll P kept.selections) :
    LeftOf path selections (replaceNodes kept selections) ∧
      EverywhereAll P (replaceNodes kept selections) := by
  obtain ⟨edges, hedges, hnode⟩ := Option.bind_eq_some_iff.1 hnodes
  have hbelow : SelectionSet.below? ⟨"", selections⟩ "edges" = some edges := hedges
  have hinner : SelectionSet.below? ⟨"", edges.selections⟩ "node" = some nodes := hnode
  have hedgesAll : EverywhereAll P edges.selections :=
    everywhere_below? (show EverywhereAll P (SelectionSet.mk "" selections).selections from hall) hbelow
  obtain ⟨found, hfind, hfound⟩ := Option.bind_eq_some_iff.1 hbelow
  have hedgesDistinct : Distinct edges.selections := by
    have hself := everywhereAll_iff.1 hall found (List.mem_of_find?_eq_some hfind)
    cases found with
    | composite field name inner =>
      obtain rfl := Option.some.inj hfound
      exact hP.distinct _ _ _ hself.1
    | _ => cases hfound
  rw [replaceNodes, hbelow]
  have hnodeLeft : LeftOf path edges.selections (replaceSet "node" kept edges.selections) :=
    leftOf_replaceSet hedgesDistinct hinner (by decide) hn
  have hnodeAll := everywhere_replaced hP hedgesDistinct hedgesAll hinner hn hleft hkept
  exact ⟨leftOf_replaceSet hd hbelow (by decide) rfl,
    everywhere_replaced hP hd hall hbelow rfl hnodeLeft hnodeAll⟩

theorem everywhere_pruneOne_through {next typeName : String} {more : List String} {field : Field}
    {selections : List Selection} {kept : Selection × Bool} (hP : Hereditary path P)
    (ih : KeepsEverywhere P cursor (next :: more)) (hnext : next ∈ path)
    (h : Everywhere P (.composite field typeName selections))
    (hk : KeptThrough cursor next more field typeName selections kept) : kept.1.Everywhere P := by
  obtain ⟨hself, hall⟩ := h
  obtain ⟨-, set, hset, rfl⟩ | ⟨-, old, nodes, hold, hkept, rfl⟩ := hk
  · have hinner := everywhere_keptIfFound (ih next more rfl selections hall) hset
    obtain rfl := eq_of_keptIfFound hset
    exact ⟨hP.composite _ _ _ _ _ hself (leftOf_pruneEach hnext selections), hinner⟩
  · have hset : EverywhereAll P (SelectionSet.mk typeName selections).selections := hall
    have hinner := everywhere_keptIfFound
      (ih next more rfl old.selections (everywhere_nodeSet? hset hold)) hkept
    have hname : nodes.typeName = old.typeName := by rw [eq_of_keptIfFound hkept]
    have hnodesLeft : LeftOf path old.selections nodes.selections := by
      rw [eq_of_keptIfFound hkept]
      exact leftOf_pruneEach hnext old.selections
    obtain ⟨hleft, hreplaced⟩ := replaceNodes_hereditary hP (hP.distinct _ _ _ hself) hall hold hname
      hnodesLeft hinner
    exact ⟨hP.composite _ _ _ _ _ hself hleft, hreplaced⟩

mutual
theorem hereditary_pruneOne {selection : Selection} {kept : Selection × Bool} (hP : Hereditary path P)
    (ih : KeepsEverywhere P cursor rest) (hrest : key :: rest ⊆ path) (h : selection.Everywhere P)
    (hk : pruneOne cursor key rest selection = some kept) : kept.1.Everywhere P := by
  have hkey := hrest List.mem_cons_self
  cases selection with
  | leaf field =>
    obtain ⟨-, -, rfl⟩ | ⟨-, -, rfl⟩ := pruneOne_leaf_cases hk
    · exact hP.leaf _
    · exact hP.leaf _
  | composite field typeName selections =>
    obtain ⟨-, ⟨-, rfl⟩ | ⟨next, more, rfl, hthrough⟩⟩ := pruneOne_composite_cases hk
    · exact ⟨hP.composite _ _ _ _ _ h.1 (.refl _ _), h.2⟩
    · exact everywhere_pruneOne_through hP ih (hrest (List.mem_cons_of_mem _ List.mem_cons_self)) h
        hthrough
  | inlineFragment condition typeName selections =>
    obtain ⟨set, hset, rfl⟩ := Option.map_eq_some_iff.1 hk
    have hinner := everywhere_keptIfFound (hereditary_pruneEach hP ih hrest h.2) hset
    obtain rfl := eq_of_keptIfFound hset
    exact ⟨hP.inlineFragment _ _ _ _ h.1 (leftOf_pruneEach hkey selections), hinner⟩
  | spread serial name condition typeName selections =>
    obtain ⟨set, hset, rfl⟩ := Option.map_eq_some_iff.1 hk
    have hinner := everywhere_keptIfFound (hereditary_pruneEach hP ih hrest h.2) hset
    obtain rfl := eq_of_keptIfFound hset
    exact ⟨hP.inlineFragment _ _ _ _ (hP.spread _ _ _ _ _ h.1) (leftOf_pruneEach hkey selections),
      hinner⟩

theorem hereditary_pruneEach {selections : List Selection} (hP : Hereditary path P)
    (ih : KeepsEverywhere P cursor rest) (hrest : key :: rest ⊆ path)
    (h : EverywhereAll P selections) :
    ∀ kept ∈ pruneEach cursor key rest selections, kept.1.Everywhere P := by
  cases selections with
  | nil => exact fun _ hk => absurd hk List.not_mem_nil
  | cons selection others =>
    intro kept hk
    rw [pruneEach] at hk
    rcases List.mem_append.1 hk with hk | hk
    · exact hereditary_pruneOne hP ih hrest h.1 (Option.mem_toList.1 hk)
    · exact hereditary_pruneEach hP ih hrest h.2 kept hk
end

theorem keepsEverywhere (hP : Hereditary path P) (cursor : String) {keys : List String}
    (hk : keys ⊆ path) : KeepsEverywhere P cursor keys := by
  induction keys with
  | nil => exact fun _ _ h => absurd h (List.cons_ne_nil _ _).symm
  | cons key rest ih =>
    rintro _ _ ⟨⟩ selections h
    exact hereditary_pruneEach hP (ih fun _ ho => hk (List.mem_cons_of_mem _ ho)) hk h

end Selection

/-- What is kept of a set is left of it, and a property that goes with less holds everywhere in it. -/
theorem SelectionSet.hereditary_prune {P : Selection → Prop} {set kept : SelectionSet}
    {keys : List String} {cursor : String} (hP : Selection.Hereditary keys P)
    (h : Selection.EverywhereAll P set.selections) (hp : set.prune keys cursor = some kept) :
    Selection.LeftOf keys set.selections kept.selections ∧ Selection.EverywhereAll P kept.selections := by
  obtain ⟨key, rest, rfl⟩ := SelectionSet.keys_of_prune hp
  refine ⟨?_, Selection.everywhere_keptIfFound
    (Selection.keepsEverywhere hP cursor (List.Subset.refl _) key rest rfl set.selections h) hp⟩
  rw [SelectionSet.prune_eq_some hp]
  exact Selection.leftOf_pruneEach List.mem_cons_self set.selections

end GraphQLClient
