import GraphQLClient.Proofs.Paging.Drilling
import GraphQLClient.Proofs.Paging.Lanes

set_option autoImplicit false

/-!
# Pruned sets are valid

What is kept of a valid set is valid on the same type, as long as all fields that may stand at the end
of the keys take a cursor.
-/

namespace GraphQLClient

/-- The type declares the field with an argument for the cursor. -/
def TypeDescriptor.resumable (type : TypeDescriptor) (name : String) : Bool :=
  name != typenameField &&
    (type.field? name).any fun declared => Keyed.contains cursorArgument declared.arguments

namespace Selection

mutual
/-- The fields of a selection on whatever type, each with the type that it is selected on. -/
def typedFields (bundle : Bundle) (type : TypeDescriptor) :
    Selection → List (TypeDescriptor × Selection)
  | .leaf field => [(type, .leaf field)]
  | .composite field typeName selections => [(type, .composite field typeName selections)]
  | .inlineFragment condition _ selections =>
    typedFieldsOfAll bundle (bundle.narrow type condition) selections
  | .spread _ _ condition _ selections =>
    typedFieldsOfAll bundle (bundle.narrow type condition) selections

def typedFieldsOfAll (bundle : Bundle) (type : TypeDescriptor) :
    List Selection → List (TypeDescriptor × Selection)
  | [] => []
  | selection :: others => typedFields bundle type selection ++ typedFieldsOfAll bundle type others
end

/-- All fields at the end of the keys, whatever fragments and nodes they stand in, take a cursor. -/
def resumes (bundle : Bundle) : List String → TypeDescriptor → List Selection → Bool
  | [], _, _ => true
  | key :: rest, type, selections =>
    (typedFieldsOfAll bundle type selections).all fun (type, selection) =>
      !selection.answers key ||
        match rest, selection with
        | [], selection => selection.field?.any fun field => type.resumable field.name
        | _ :: _, .composite field typeName inner =>
          if field.connection then
            (SelectionSet.nodeSet? ⟨typeName, inner⟩).all fun nodes =>
              resumes bundle rest (bundle.narrow default nodes.typeName) nodes.selections
          else resumes bundle rest (bundle.below type field.name) inner
        | _ :: _, _ => true

variable {bundle : Bundle} {type : TypeDescriptor} {key : String} {rest : List String}
  {cursor : String}

theorem typedFieldsOfAll_append (before after : List Selection) :
    typedFieldsOfAll bundle type (before ++ after) =
      typedFieldsOfAll bundle type before ++ typedFieldsOfAll bundle type after := by
  induction before with
  | nil => rfl
  | cons selection others ih =>
    rw [List.cons_append, typedFieldsOfAll, typedFieldsOfAll, ih, List.append_assoc]

theorem resumes_cons (keys : List String) (selection : Selection) (others : List Selection) :
    resumes bundle keys type (selection :: others) =
      (resumes bundle keys type [selection] && resumes bundle keys type others) := by
  cases keys with
  | nil => rfl
  | cons key rest =>
    rw [resumes, resumes, resumes, ← List.all_append, ← typedFieldsOfAll_append]
    rfl

theorem resumes_inlineFragment (keys : List String) (condition typeName : String)
    (selections : List Selection) :
    resumes bundle keys type [.inlineFragment condition typeName selections] =
      resumes bundle keys (bundle.narrow type condition) selections := by
  cases keys with
  | nil => rfl
  | cons key rest =>
    have hfields : typedFieldsOfAll bundle type [.inlineFragment condition typeName selections] =
        typedFieldsOfAll bundle (bundle.narrow type condition) selections := List.append_nil _
    rw [resumes, resumes, hfields]

theorem resumes_spread (keys : List String) (serial : Nat) (name condition typeName : String)
    (selections : List Selection) :
    resumes bundle keys type [.spread serial name condition typeName selections] =
      resumes bundle keys (bundle.narrow type condition) selections := by
  cases keys with
  | nil => rfl
  | cons key rest =>
    have hfields : typedFieldsOfAll bundle type [.spread serial name condition typeName selections] =
        typedFieldsOfAll bundle (bundle.narrow type condition) selections := List.append_nil _
    rw [resumes, resumes, hfields]

theorem pages_of_resumable {name : String} (h : type.resumable name = true) :
    name ≠ typenameField ∧ type.Pages name := by
  rw [TypeDescriptor.resumable, Bool.and_eq_true, Option.any_eq_true] at h
  obtain ⟨hname, declared, hdeclared, hcontains⟩ := h
  exact ⟨by simpa using hname, declared, hdeclared, hcontains⟩

/-- A field at the end of the keys takes a cursor. -/
theorem resumable_of_resumes {selection : Selection} {field : Field}
    (h : resumes bundle [key] type [selection] = true) (hf : selection.field? = some field)
    (hk : field.responseKey = key) : type.resumable field.name = true := by
  cases selection <;> cases hf <;>
    simpa [resumes, typedFieldsOfAll, typedFields, answers, field?, hk] using h

theorem resumes_inner {next typeName : String} {more : List String} {field : Field}
    {inner : List Selection}
    (h : resumes bundle (key :: next :: more) type [.composite field typeName inner] = true)
    (hk : field.responseKey = key) (hc : field.connection = false) :
    resumes bundle (next :: more) (bundle.below type field.name) inner = true := by
  rw [resumes] at h
  simpa [typedFieldsOfAll, typedFields, answers, field?, hk, hc] using h

theorem resumes_nodes {next typeName : String} {more : List String} {field : Field}
    {inner : List Selection} {nodes : SelectionSet}
    (h : resumes bundle (key :: next :: more) type [.composite field typeName inner] = true)
    (hk : field.responseKey = key) (hc : field.connection = true)
    (hn : SelectionSet.nodeSet? ⟨typeName, inner⟩ = some nodes) :
    resumes bundle (next :: more) (bundle.narrow default nodes.typeName) nodes.selections = true := by
  rw [resumes] at h
  simpa [typedFieldsOfAll, typedFields, answers, field?, hk, hc, hn] using h

/-! ## Keys and names of what is kept -/

theorem key?_pruneOne {selection : Selection} {kept : Selection × Bool}
    (h : pruneOne cursor key rest selection = some kept) :
    kept.1.key? = selection.key? ∧ kept.1.spreadName? = none := by
  cases selection with
  | leaf field =>
    obtain ⟨-, -, rfl⟩ | ⟨-, -, rfl⟩ := pruneOne_leaf_cases h
    · exact ⟨rfl, rfl⟩
    · exact ⟨rfl, rfl⟩
  | composite field typeName selections =>
    obtain ⟨-, ⟨-, rfl⟩ | ⟨_, _, -, ⟨-, _, -, rfl⟩ | ⟨-, _, _, -, -, rfl⟩⟩⟩ :=
      pruneOne_composite_cases h
    · exact ⟨rfl, rfl⟩
    · exact ⟨rfl, rfl⟩
    · exact ⟨rfl, rfl⟩
  | inlineFragment condition typeName selections =>
    obtain ⟨found, -, rfl⟩ := Option.map_eq_some_iff.1 h
    exact ⟨rfl, rfl⟩
  | spread serial name condition typeName selections =>
    obtain ⟨found, -, rfl⟩ := Option.map_eq_some_iff.1 h
    exact ⟨rfl, rfl⟩

theorem keys_pruneEach (selections : List Selection) :
    (((pruneEach cursor key rest selections).map Prod.fst).filterMap key?).Sublist
      (selections.filterMap key?) := by
  induction selections with
  | nil => exact List.Sublist.slnil
  | cons selection others ih =>
    rw [pruneEach, List.map_append, List.filterMap_append]
    cases h : pruneOne cursor key rest selection with
    | none => exact ih.trans ((List.sublist_cons_self _ _).filterMap key?)
    | some kept =>
      have hkey := (key?_pruneOne h).1
      have hfirst : (selection :: others).filterMap key? =
          ([kept.1].filterMap key?) ++ others.filterMap key? := by
        cases hs : selection.key? with
        | none => simp [hs, hkey.trans hs]
        | some found => simp [hs, hkey.trans hs]
      rw [hfirst]
      exact (List.Sublist.refl _).append ih

/-- What is kept brings no key twice, and no spreads. -/
theorem distinct_pruneEach {selections : List Selection} (h : Distinct selections) :
    Distinct ((pruneEach cursor key rest selections).map Prod.fst) := by
  refine ⟨h.1.sublist (keys_pruneEach selections), ?_⟩
  have hnone : ((pruneEach cursor key rest selections).map Prod.fst).filterMap spreadName? = [] := by
    rw [List.filterMap_eq_nil_iff]
    intro selection hs
    obtain ⟨kept, hk, rfl⟩ := List.mem_map.1 hs
    obtain ⟨old, -, hold⟩ := mem_pruneEach.1 hk
    exact (key?_pruneOne hold).2
  rw [hnone]
  exact List.nodup_nil

theorem ne_nil_of_keptIfFound {typeName : String} {kept : List (Selection × Bool)} {set : SelectionSet}
    (h : keptIfFound typeName kept = some set) : set.selections ≠ [] := by
  unfold keptIfFound at h
  split at h
  · rename_i hany
    obtain rfl := Option.some.inj h
    intro hnil
    rw [List.map_eq_nil_iff.1 hnil] at hany
    cases hany
  · cases h

theorem proper_keptIfFound {scope : Scope} {typeName : String} {selections : List Selection}
    {set : SelectionSet} (hp : SelectionSet.Proper scope ⟨typeName, selections⟩)
    (h : keptIfFound typeName (pruneEach cursor key rest selections) = some set) :
    set.Proper scope := by
  have hne := ne_nil_of_keptIfFound h
  obtain rfl := eq_of_keptIfFound h
  exact ⟨hp.1, hne, distinct_pruneEach hp.2.2⟩

/-! ## Nodes -/

theorem key?_withSet (set : SelectionSet) (selection : Selection) :
    (selection.withSet set).key? = selection.key? ∧
      (selection.withSet set).spreadName? = selection.spreadName? := by
  cases selection <;> exact ⟨rfl, rfl⟩

theorem filterMap_replaceSet {β : Type} (f : Selection → Option β) (set : SelectionSet)
    (h : ∀ selection : Selection, f (selection.withSet set) = f selection) (answer : String)
    (selections : List Selection) :
    (replaceSet answer set selections).filterMap f = selections.filterMap f := by
  rw [replaceSet, List.filterMap_map]
  refine List.filterMap_congr fun selection _ => ?_
  rw [Function.comp_apply]
  split
  · exact h selection
  · rfl

theorem Distinct.replaceSet {selections : List Selection} (h : Distinct selections) (answer : String)
    (set : SelectionSet) : Distinct (replaceSet answer set selections) := by
  rw [Distinct, filterMap_replaceSet key? set (fun selection => (key?_withSet set selection).1),
    filterMap_replaceSet spreadName? set fun selection => (key?_withSet set selection).2]
  exact h

/-- Where keys are distinct only one field answers to a key. -/
theorem Distinct.eq_of_answers {selections : List Selection} {answer : String} {a b : Selection}
    (h : Distinct selections) (hf : selections.find? (answers answer) = some a)
    (hb : b ∈ selections) (hanswers : b.answers answer = true) : a = b := by
  obtain ⟨ha, front, back, rfl, hnone⟩ := List.find?_eq_some_iff_append.1 hf
  rcases List.mem_append.1 hb with hb | hb
  · have hno := hnone b hb
    rw [hanswers] at hno
    cases hno
  · rcases List.mem_cons.1 hb with rfl | hb
    · rfl
    · have hnodup := h.1
      rw [List.filterMap_append, List.nodup_append] at hnodup
      have htail := hnodup.2.1
      rw [List.filterMap_cons_some (key?_of_answers ha), List.nodup_cons] at htail
      exact absurd (List.mem_filterMap.2 ⟨b, hb, key?_of_answers hanswers⟩) htail.1

/-- A set below a field may be replaced by another one on the same type. -/
theorem validOn_replaceSet (scope : Scope) {answer : String} {set below other : SelectionSet}
    (h : set.ValidOn scope) (hb : set.below? answer = some below)
    (hs : ∀ type, scope.bundle.get? type.name = some type → below.ValidOn (scope.within type) →
      other.ValidOn (scope.within type)) :
    SelectionSet.ValidOn scope ⟨set.typeName, replaceSet answer other set.selections⟩ := by
  obtain ⟨⟨hname, hne, hdistinct⟩, hvalid⟩ := h
  obtain ⟨found, hfind, hset⟩ := Option.bind_eq_some_iff.1 hb
  refine ⟨⟨hname, fun hnil => hne (List.map_eq_nil_iff.1 hnil), hdistinct.replaceSet answer other⟩,
    allValidOn_iff.2 fun selection hm => ?_⟩
  obtain ⟨old, hold, rfl⟩ := List.mem_map.1 hm
  have hself := allValidOn_iff.1 hvalid old hold
  split
  · rename_i hanswers
    obtain rfl := hdistinct.eq_of_answers hfind hold hanswers
    cases found with
    | composite field name inner =>
      obtain rfl := Option.some.inj hset
      unfold ValidOn at hself
      obtain ⟨type, ht, hp, hi⟩ := hself
      obtain ⟨-, declared, -, hget, -⟩ := ht.1
      obtain ⟨hp', hi'⟩ := hs type (Bundle.get?_self hget) ⟨hp, hi⟩
      change ValidOn scope (.composite field other.typeName other.selections)
      unfold ValidOn
      exact ⟨type, ht, hp', hi'⟩
    | _ => cases hset
  · exact hself

/-- The nodes of a connection may be replaced by others of the same type. -/
theorem validOn_replaceNodes (scope : Scope) {set nodes kept : SelectionSet} (h : set.ValidOn scope)
    (hn : set.nodeSet? = some nodes)
    (hs : ∀ type, scope.bundle.get? type.name = some type → nodes.ValidOn (scope.within type) →
      kept.ValidOn (scope.within type)) :
    SelectionSet.ValidOn scope ⟨set.typeName, replaceNodes kept set.selections⟩ := by
  obtain ⟨edges, hedges, hnode⟩ := Option.bind_eq_some_iff.1 hn
  have hbelow : SelectionSet.below? ⟨"", set.selections⟩ "edges" = some edges := hedges
  rw [replaceNodes, hbelow]
  exact validOn_replaceSet scope h hedges fun type _ hvalid =>
    validOn_replaceSet (scope.within type) hvalid hnode fun below hb hd => hs below hb hd

/-! ## What is kept -/

/-- What is kept for the keys of valid selections that take a cursor at their end is valid. -/
def KeepsValid (cursor : String) (keys : List String) : Prop :=
  ∀ key rest, keys = key :: rest → ∀ (scope : Scope) (selections : List Selection),
    AllValidOn scope selections → resumes scope.bundle keys scope.type selections = true →
    ∀ kept ∈ pruneEach cursor key rest selections, kept.1.ValidOn scope

theorem validOn_keptIfFound (scope : Scope) (set : SelectionSet) {kept : SelectionSet}
    (hall : ∀ found ∈ pruneEach cursor key rest set.selections, found.1.ValidOn scope)
    (hp : set.Proper scope)
    (hk : keptIfFound set.typeName (pruneEach cursor key rest set.selections) = some kept) :
    kept.ValidOn scope := by
  refine ⟨proper_keptIfFound hp hk, allValidOn_iff.2 fun selection hs => ?_⟩
  rw [eq_of_keptIfFound hk] at hs
  obtain ⟨pair, hpair, rfl⟩ := List.mem_map.1 hs
  exact hall pair hpair

/-- A field on the way is valid with what is kept below it. -/
theorem validOn_pruneOne_through {next typeName : String} {more : List String} {field : Field}
    {selections : List Selection} {scope : Scope} {kept : Selection × Bool}
    (ih : KeepsValid cursor (next :: more))
    (hv : ValidOn scope (.composite field typeName selections))
    (hr : resumes scope.bundle (key :: next :: more) scope.type
      [.composite field typeName selections] = true)
    (hkey : field.responseKey = key)
    (hk : KeptThrough cursor next more field typeName selections kept) : kept.1.ValidOn scope := by
  unfold ValidOn at hv
  obtain ⟨type, ht, hset⟩ := hv
  obtain ⟨hc, set, hkept, rfl⟩ | ⟨hc, old, nodes, hold, hkept, rfl⟩ := hk
  · have hinner := resumes_inner hr hkey hc
    rw [ht.1.below] at hinner
    obtain ⟨hp, hi⟩ := validOn_keptIfFound (scope.within type) ⟨typeName, selections⟩
      (ih next more rfl (scope.within type) selections hset.2 hinner) hset.1 hkept
    unfold ValidOn
    exact ⟨type, ht, hp, hi⟩
  · have hresumes := resumes_nodes hr hkey hc hold
    have hnew : ∀ nodeType, scope.bundle.get? nodeType.name = some nodeType →
        old.ValidOn (scope.within nodeType) → nodes.ValidOn (scope.within nodeType) := by
      intro nodeType hget hvalid
      have hnarrow : scope.bundle.narrow default old.typeName = nodeType := by
        have hname : old.typeName = nodeType.name := hvalid.1.1
        rw [Bundle.narrow, hname, hget]
        rfl
      rw [hnarrow] at hresumes
      exact validOn_keptIfFound (scope.within nodeType) old
        (ih next more rfl (scope.within nodeType) old.selections hvalid.2 hresumes) hvalid.1 hkept
    obtain ⟨hp, hi⟩ := validOn_replaceNodes (scope.within type) hset hold hnew
    unfold ValidOn
    exact ⟨type, ht, hp, hi⟩

mutual
theorem validOn_pruneOne {selection : Selection} {scope : Scope} {kept : Selection × Bool}
    (ih : KeepsValid cursor rest) (hv : selection.ValidOn scope)
    (hr : resumes scope.bundle (key :: rest) scope.type [selection] = true)
    (hk : pruneOne cursor key rest selection = some kept) : kept.1.ValidOn scope := by
  cases selection with
  | leaf field =>
    unfold ValidOn at hv
    obtain ⟨hkey, rfl, rfl⟩ | ⟨-, -, rfl⟩ := pruneOne_leaf_cases hk
    · obtain ⟨hname, hpages⟩ := pages_of_resumable (resumable_of_resumes hr rfl hkey)
      obtain ⟨hn, -⟩ | ⟨type, ht, hc⟩ := hv
      · exact absurd hn hname
      · unfold ValidOn
        exact .inr ⟨type, ht.withCursor hpages cursor, hc⟩
    · unfold ValidOn
      exact hv
  | composite field typeName selections =>
    obtain ⟨hkey, ⟨rfl, rfl⟩ | ⟨next, more, rfl, hthrough⟩⟩ := pruneOne_composite_cases hk
    · unfold ValidOn at hv
      obtain ⟨type, ht, hset⟩ := hv
      obtain ⟨-, hpages⟩ := pages_of_resumable (resumable_of_resumes hr rfl hkey)
      unfold ValidOn
      exact ⟨type, ⟨ht.1.withCursor hpages cursor, ht.2⟩, hset⟩
    · exact validOn_pruneOne_through ih hv hr hkey hthrough
  | inlineFragment condition typeName selections =>
    unfold ValidOn at hv
    obtain ⟨target, ha, hp, hi⟩ := hv
    obtain ⟨set, hset, rfl⟩ := Option.map_eq_some_iff.1 hk
    rw [resumes_inlineFragment, (ha.narrow scope.type).1] at hr
    have hkept : ∀ found ∈ pruneEach cursor key rest selections,
        found.1.ValidOn (scope.within target) := validOn_pruneEach ih hi hr
    unfold ValidOn
    exact ⟨target, ha, validOn_keptIfFound (scope.within target) ⟨typeName, selections⟩ hkept hp hset⟩
  | spread serial name condition typeName selections =>
    unfold ValidOn at hv
    obtain ⟨target, ha, hp, hi⟩ := hv
    obtain ⟨set, hset, rfl⟩ := Option.map_eq_some_iff.1 hk
    rw [resumes_spread, (ha.narrow scope.type).1] at hr
    have hkept : ∀ found ∈ pruneEach cursor key rest selections,
        found.1.ValidOn ⟨scope.bundle, [], target⟩ := validOn_pruneEach ih hi hr
    -- the body of a fragment uses no variables, so that it is valid with any
    have hlifted : ∀ found ∈ pruneEach cursor key rest selections,
        found.1.ValidOn (scope.within target) := by
      intro found hf
      have hsame : Scope.Alike ⟨scope.bundle, [], target⟩ (scope.within target) := ⟨rfl, rfl⟩
      refine Scope.validOn_of_declares hsame (fun used _ hd => ?_) (hkept found hf)
      cases hd
    unfold ValidOn
    exact ⟨target, ha,
      validOn_keptIfFound (scope.within target) ⟨typeName, selections⟩ hlifted hp hset⟩

theorem validOn_pruneEach {selections : List Selection} {scope : Scope}
    (ih : KeepsValid cursor rest) (hv : AllValidOn scope selections)
    (hr : resumes scope.bundle (key :: rest) scope.type selections = true) :
    ∀ kept ∈ pruneEach cursor key rest selections, kept.1.ValidOn scope := by
  cases selections with
  | nil => exact fun _ hk => absurd hk List.not_mem_nil
  | cons selection others =>
    intro kept hk
    rw [resumes_cons, Bool.and_eq_true] at hr
    rw [pruneEach] at hk
    rcases List.mem_append.1 hk with hk | hk
    · exact validOn_pruneOne ih hv.1 hr.1 (Option.mem_toList.1 hk)
    · exact validOn_pruneEach ih hv.2 hr.2 kept hk
end

theorem keepsValid (cursor : String) (keys : List String) : KeepsValid cursor keys := by
  induction keys with
  | nil => exact fun _ _ h => absurd h (List.cons_ne_nil _ _).symm
  | cons key rest ih =>
    rintro _ _ ⟨⟩ scope selections hv hr
    exact validOn_pruneEach ih hv hr

end Selection

theorem SelectionSet.ne_nil_of_prune {set kept : SelectionSet} {keys : List String} {cursor : String}
    (hk : set.prune keys cursor = some kept) : kept.selections ≠ [] := by
  obtain ⟨key, rest, rfl⟩ := SelectionSet.keys_of_prune hk
  exact Selection.ne_nil_of_keptIfFound hk

/-- Pruning leaves no spreads. -/
theorem SelectionSet.spreadName?_prune {set kept : SelectionSet} {keys : List String} {cursor : String}
    (hk : set.prune keys cursor = some kept) :
    ∀ selection ∈ kept.selections, selection.spreadName? = none := by
  obtain ⟨key, rest, rfl⟩ := SelectionSet.keys_of_prune hk
  intro selection hs
  rw [SelectionSet.prune_eq_some hk] at hs
  obtain ⟨pair, hpair, rfl⟩ := List.mem_map.1 hs
  obtain ⟨old, -, hold⟩ := Selection.mem_pruneEach.1 hpair
  exact (Selection.key?_pruneOne hold).2

/-- What is kept of valid selections that take a cursor at the end of the keys is valid. -/
theorem SelectionSet.allValidOn_prune {set kept : SelectionSet} {scope : Scope} {keys : List String}
    {cursor : String} (hv : Selection.AllValidOn scope set.selections)
    (hr : Selection.resumes scope.bundle keys scope.type set.selections = true)
    (hk : set.prune keys cursor = some kept) : Selection.AllValidOn scope kept.selections := by
  obtain ⟨key, rest, rfl⟩ := SelectionSet.keys_of_prune hk
  rw [SelectionSet.prune_eq_some hk, Selection.allValidOn_iff]
  intro selection hs
  obtain ⟨pair, hpair, rfl⟩ := List.mem_map.1 hs
  exact Selection.keepsValid cursor (key :: rest) key rest rfl scope set.selections hv hr pair hpair

end GraphQLClient
