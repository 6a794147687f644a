import GraphQLClient.Proofs.Decoding.PageMarks
import GraphQLClient.Proofs.Paging.Drilling
import GraphQLClient.Proofs.Paging.Turning

set_option autoImplicit false

/-!
# Page after page

Each follow-up query for a next page is made from the answer to the one before. Asked from the root, it is
always the query that the first mark has for the cursor of the page before: nothing but the text of the
cursor changes from page to page. Asked from the object that the query before has fetched, the set of that
object is fetched again inside one more fragment, so that the queries grow by the same size with every
page.
-/

namespace GraphQLClient

/-! ## Asking from the object -/

namespace Selection

theorem distinct_narrowed (bundle : Bundle) (type : TypeDescriptor) (condition : String)
    (inner : List Selection) :
    Distinct (bundle.opening type ++ [.inlineFragment condition condition inner]) := by
  unfold Bundle.opening Scope.opening
  split <;> split
  · exact ⟨show ["id", typenameField].Nodup by decide, List.nodup_nil⟩
  · exact ⟨show ["id"].Nodup by decide, List.nodup_nil⟩
  · exact ⟨show [typenameField].Nodup by decide, List.nodup_nil⟩
  · exact ⟨List.nodup_nil, List.nodup_nil⟩

theorem declaredBy_narrowed (bundle : Bundle) (type : TypeDescriptor) (condition : String)
    (inner : List Selection) (other : TypeDescriptor) :
    ∀ selection ∈ bundle.opening type ++ [.inlineFragment condition condition inner],
      selection.DeclaredBy other := by
  intro selection hs
  rcases List.mem_append.1 hs with hs | hs
  · obtain ⟨name, rfl⟩ := Scope.leaf_of_mem_opening hs
    trivial
  · obtain rfl := List.mem_singleton.1 hs
    trivial

theorem shallow_spreadsValid (bundle : Bundle) : Shallow (SpreadsValid bundle) where
  field := by
    intro a b field _ hb _
    cases b with
    | spread => cases hb
    | _ => trivial
  cursor := fun _ _ => trivial
  plain := fun _ => trivial
  inlineFragment := fun _ _ _ => trivial

end Selection

/-- What pruning for the keys keeps of the beginning of a set on the type. -/
def Bundle.openingAlong (bundle : Bundle) (type : TypeDescriptor) : List String → List Selection
  | [] => []
  | key :: rest => (Selection.pruneEach "" key rest (bundle.opening type)).map Prod.fst

/-- Pruning for the keys keeps all of the selections, for some cursor. -/
def Selection.Kept (keys : List String) (selections : List Selection) : Prop :=
  ∃ cursor, ∀ typeName, SelectionSet.prune ⟨typeName, selections⟩ keys cursor =
    some ⟨typeName, selections⟩

theorem Selection.kept_of_prune {set : SelectionSet} {keys : List String} {cursor : String}
    (h : set.prune keys cursor = some set) : Kept keys set.selections := by
  obtain ⟨key, rest, rfl⟩ := SelectionSet.keys_of_prune h
  refine ⟨cursor, fun typeName => ?_⟩
  have hsame : (pruneEach cursor key rest set.selections).map Prod.fst = set.selections :=
    (SelectionSet.prune_eq_some h).symm
  rw [SelectionSet.prune, keptIfFound] at h ⊢
  split at h
  · rename_i hany
    rw [if_pos hany, hsame]
  · cases h

/-- Pruning a set with a fragment that is kept whole keeps the fragment beside what it keeps of the
beginning. -/
theorem SelectionSet.size_prune_narrowed {bundle : Bundle} {type : TypeDescriptor}
    {condition typeName cursor : String} {inner : List Selection} {keys : List String}
    {kept : SelectionSet} (hi : Selection.Kept keys inner)
    (h : SelectionSet.prune ⟨typeName, bundle.opening type ++
      [.inlineFragment condition condition inner]⟩ keys cursor = some kept) :
    Selection.sizeAll kept.selections =
      Selection.sizeAll (bundle.openingAlong type keys) + (1 + Selection.sizeAll inner) := by
  obtain ⟨cursor', hinner⟩ := hi
  obtain ⟨key, rest, rfl⟩ := SelectionSet.keys_of_prune h
  have hfragment : Selection.pruneOne cursor' key rest (.inlineFragment condition condition inner) =
      some (.inlineFragment condition condition inner, true) := by
    have hwhole : Selection.keptIfFound condition (Selection.pruneEach cursor' key rest inner) =
      some ⟨condition, inner⟩ := hinner condition
    rw [Selection.pruneOne, hwhole]
    rfl
  have hkept : (Selection.pruneEach cursor' key rest
      (bundle.opening type ++ [.inlineFragment condition condition inner])).map Prod.fst =
        (Selection.pruneEach cursor' key rest (bundle.opening type)).map Prod.fst ++
          [.inlineFragment condition condition inner] := by
    rw [Selection.pruneEach_append, List.map_append, Selection.pruneEach, hfragment]
    rfl
  -- The size does not depend on the cursor.
  calc Selection.sizeAll kept.selections
      = Selection.sizeAll (Selection.blankAll ((Selection.pruneEach cursor key rest
          (bundle.opening type ++ [.inlineFragment condition condition inner])).map Prod.fst)) := by
        rw [SelectionSet.prune_eq_some h, Selection.sizeAll_blankAll]
    _ = Selection.sizeAll ((Selection.pruneEach cursor' key rest (bundle.opening type)).map Prod.fst ++
          [.inlineFragment condition condition inner]) := by
        rw [Selection.blankAll_pruneEach cursor cursor', Selection.sizeAll_blankAll, hkept]
    _ = Selection.sizeAll (Selection.blankAll
          ((Selection.pruneEach cursor' key rest (bundle.opening type)).map Prod.fst)) +
            (1 + Selection.sizeAll inner) := by
        rw [Selection.sizeAll_append, Selection.sizeAll_blankAll]
        rfl
    _ = _ := by
        rw [Selection.blankAll_pruneEach cursor' "", Selection.sizeAll_blankAll]
        rfl

/-- The query fetches an object and selects `inner` on it, inside a fragment. All of that is kept for
the keys. -/
structure FollowUp.Wraps (bundle : Bundle) (nodeType : TypeDescriptor) (keys : List String)
    (inner : List Selection) (next : FollowUp) : Prop where
  path : next.path = nodeFieldName :: keys
  set : ∃ id condition, next.operation.set = ⟨bundle.queryRoot.name, bundle.opening bundle.queryRoot ++
      [.composite (Scope.fetching id) nodeType.name
        (bundle.opening nodeType ++ [.inlineFragment condition condition inner])]⟩ ∧
    (Selection.inlineFragment condition condition inner).Everywhere (Selection.Framed bundle)
  kept : Selection.Kept keys inner

theorem FollowUp.Wraps.size {bundle : Bundle} {nodeType : TypeDescriptor} {keys : List String}
    {inner : List Selection} {next : FollowUp} (h : next.Wraps bundle nodeType keys inner) :
    Selection.sizeAll next.operation.set.selections =
      Selection.sizeAll (bundle.opening bundle.queryRoot) + Selection.sizeAll (bundle.opening nodeType) +
        2 + Selection.sizeAll inner := by
  obtain ⟨id, condition, hset, -⟩ := h.set
  rw [hset]
  simp only [Selection.sizeAll_append, Selection.sizeAll, Selection.size]
  omega

namespace PageMark

variable {mark : PageMark} {next : FollowUp} {anchor : NodeAnchor} {field : FieldDescriptor}
  {nodeType : TypeDescriptor}

/-- The query from an object selects what is kept of its set inside a fragment on its type. -/
theorem set_of_anchored (hu : mark.usableAnchor? = some anchor)
    (hf : mark.source.bundle.nodeField? = some field)
    (hn : mark.source.bundle.get? field.typeName = some nodeType) (hq : mark.nextPage = .ok next) :
    ∃ (kept : SelectionSet) (target : TypeDescriptor) (scope : Scope) (inner : List Selection),
      anchor.set.prune (mark.path.drop anchor.depth) mark.cursor = some kept ∧
      mark.source.bundle.get? target.name = some target ∧ scope.bundle = mark.source.bundle ∧
      scope.type = target ∧ scope.RebuildsAll kept.selections [] inner ∧
      next.path = nodeFieldName :: mark.path.drop anchor.depth ∧
      next.operation.set = ⟨mark.source.bundle.queryRoot.name,
        mark.source.bundle.opening mark.source.bundle.queryRoot ++
          [.composite (Scope.fetching anchor.id) nodeType.name (mark.source.bundle.opening nodeType ++
            [.inlineFragment target.name target.name inner])]⟩ := by
  obtain ⟨scope, kept, hbundle, hroot, hpath, hname, hkept, hfetches⟩ := nextPage_fetches hu hq
  have htarget : ∃ target, mark.source.bundle.get? anchor.typeName = some target := by
    obtain ⟨_, target, _, -, hadmits, -⟩ := hfetches
    exact ⟨target, hbundle ▸ hadmits.1⟩
  obtain ⟨target, htarget⟩ := htarget
  obtain ⟨inner, hrebuilds, hset⟩ := hfetches.known hbundle hroot hf hn htarget
  refine ⟨kept, target, scope.within target, inner, hkept, Bundle.get?_self htarget, hbundle, rfl,
    hrebuilds, hpath, ?_⟩
  calc next.operation.set = ⟨next.operation.set.typeName, next.operation.set.selections⟩ := rfl
    _ = ⟨scope.type.name, scope.opening ++ [.composite (Scope.fetching anchor.id) nodeType.name
          ((scope.within nodeType).narrowed target inner)]⟩ := by rw [hname, hset]
    _ = _ := by
      rw [hroot, hbundle, Scope.opening, hroot, hbundle]
      rfl

/-- The query that fetches an object for the first time. -/
theorem wraps_of_anchored
    (ha : Selection.EverywhereAll (Selection.SpreadsValid mark.source.bundle) anchor.set.selections)
    (hu : mark.usableAnchor? = some anchor) (hf : mark.source.bundle.nodeField? = some field)
    (hn : mark.source.bundle.get? field.typeName = some nodeType) (hq : mark.nextPage = .ok next) :
    ∃ inner, next.Wraps mark.source.bundle nodeType (mark.path.drop anchor.depth) inner := by
  obtain ⟨kept, target, scope, inner, hkept, -, -, -, hrebuilds, hpath, hset⟩ :=
    set_of_anchored hu hf hn hq
  have hvalid : next.operation.Valid mark.source.bundle := by
    obtain ⟨pruned, hpruned, hnext⟩ := nextPage_of_anchored hu hq
    exact FollowUp.valid_of_fetch
      (SelectionSet.everywhere_prune (Selection.shallow_spreadsValid _) ha hpruned) hnext
  obtain ⟨root, -, -, hall⟩ := hvalid.root
  have hframed := Selection.framed_of_allValidOn hall
  rw [hset] at hframed
  obtain ⟨-, ⟨-, hnode⟩, -⟩ := Selection.everywhereAll_append.1 hframed
  obtain ⟨-, hfragment, -⟩ := Selection.everywhereAll_append.1 hnode
  have hwhole := SelectionSet.prune_rebuilt ((SelectionSet.prune_prune mark.cursor hkept).trans hkept)
    hrebuilds hfragment.2 target.name
  exact ⟨inner, hpath, ⟨anchor.id, target.name, hset, hfragment⟩, Selection.kept_of_prune hwhole⟩

/-- The query that fetches the object of a query before once more has all of its set inside one more
fragment. -/
theorem wraps_again {current : FollowUp} {keys : List String} {inner : List Selection}
    (hc : current.Wraps mark.source.bundle nodeType keys inner)
    (hs : ∀ id selections, current.operation.set = ⟨mark.source.bundle.queryRoot.name,
      mark.source.bundle.opening mark.source.bundle.queryRoot ++
        [.composite (Scope.fetching id) nodeType.name selections]⟩ →
      anchor.set = ⟨nodeType.name, selections⟩)
    (hu : mark.usableAnchor? = some anchor) (hk : mark.path.drop anchor.depth = keys)
    (hf : mark.source.bundle.nodeField? = some field)
    (hn : mark.source.bundle.get? field.typeName = some nodeType) (hq : mark.nextPage = .ok next) :
    ∃ more, next.Wraps mark.source.bundle nodeType keys more ∧ Selection.sizeAll more =
      Selection.sizeAll (mark.source.bundle.openingAlong nodeType keys) +
        (1 + Selection.sizeAll inner) := by
  obtain ⟨id, condition, hcurrent, hfragment⟩ := hc.set
  have hanchor := hs id _ hcurrent
  obtain ⟨kept, target, scope, more, hkept, htarget, hbundle, htype, hrebuilds, hpath, hset⟩ :=
    set_of_anchored hu hf hn hq
  rw [hk, hanchor] at hkept
  rw [hk] at hpath
  have hwrapped : Selection.EverywhereAll (Selection.Framed mark.source.bundle)
      (mark.source.bundle.opening nodeType ++ [.inlineFragment condition condition inner]) :=
    Selection.everywhereAll_append.2 ⟨Scope.everywhere_opening (fun _ => trivial) _, hfragment, trivial⟩
  obtain ⟨hleft, hframed⟩ := SelectionSet.hereditary_prune
    (Selection.hereditary_framed keys mark.source.bundle) hwrapped hkept
  have hdistinct := hleft.distinct (Selection.distinct_narrowed _ _ _ _)
  have hdeclared : ∀ type : TypeDescriptor, ∀ selection ∈ kept.selections,
      selection.DeclaredBy type := fun type =>
    hleft.declaredBy (Selection.declaredBy_narrowed _ _ _ _ type)
  -- Nothing of what is kept falls together, and all of it is taken as it was.
  obtain rfl : more = [] ++ kept.selections :=
    Scope.RebuildsAll.eq_of_framed (hbundle ▸ hframed) (hdeclared _) hdistinct hrebuilds
  refine ⟨kept.selections, ⟨hpath, ⟨anchor.id, target.name, hset, ?_⟩, ?_⟩,
    SelectionSet.size_prune_narrowed hc.kept hkept⟩
  · exact ⟨⟨rfl, target, htarget, hdistinct, hdeclared target⟩, hframed⟩
  · exact Selection.kept_of_prune ((SelectionSet.prune_prune mark.cursor hkept).trans hkept)

end PageMark

/-! ## Marks of the pages that are fetched -/

/-- Of the beginnings of a way of keys one has a single key. -/
theorem Move.eq_of_prefix {before : List Move} {key : String} {rest : List String}
    (h : before <+: Move.key key :: rest.map .key) (hl : (keys before).length = 1) :
    before = [.key key] := by
  cases before with
  | nil => cases hl
  | cons move more =>
    obtain ⟨rfl, hmore⟩ := List.cons_prefix_cons.1 h
    cases more with
    | nil => rfl
    | cons second others =>
      obtain ⟨name, -, rfl⟩ := List.mem_map.1 (hmore.subset List.mem_cons_self)
      cases hl

/-- The set of an object is that of its group. -/
theorem Shape.parts_of_ofCollected {bundle : Bundle} {collected : Collected} {type : TypeDescriptor}
    {parts : List Part} (h : ofCollected bundle collected = .object type parts) :
    parts = collected.parts := by
  obtain hraw | ⟨_, _, _, -, -, hobject | ⟨_, _, -, -, -, hconnection⟩⟩ :=
    ofCollected_cases bundle collected
  · cases hraw.symm.trans h
  · exact (Shape.object.inj (hobject.symm.trans h)).2.symm
  · cases hconnection.symm.trans h

namespace Decoder

variable {decoder : Decoder} {data : Json}

/-- The mark of the connection that the keys lead to. -/
theorem mark_of_drill {path : List String} {nodes : List Model} {info : PageInfo} {mark : PageMark}
    (h : (decoder.decode data).drill path = some (.connection nodes info (some mark))) :
    mark.source = decoder.source ∧ mark.path = path ∧
      mark.anchor = decoder.anchorAround? data (path.map .key) := by
  cases path with
  | nil => cases h
  | cons key rest =>
    rw [drill_eq_at?] at h
    have hmark : ((Decoded.object (decoder.decode data)).at? ((key :: rest).map .key)).bind
        Decoded.mark? = some mark := by
      rw [h]
      rfl
    obtain ⟨hpath, hanchor, hsource⟩ := mark?_placed hmark
    have hkeys : Move.keys ((key :: rest).map .key) = key :: rest := by
      rw [Move.keys, List.filterMap_map]
      exact List.filterMap_some
    exact ⟨hsource, hpath.trans hkeys, hanchor⟩

/-- The object that a query fetches is decoded with its set in the query. -/
theorem set_of_fetched {model : Model} {id typeName : String} {nodeType : TypeDescriptor}
    {selections : List Selection}
    (hs : decoder.source.operation.set = ⟨typeName, decoder.bundle.opening decoder.bundle.queryRoot ++
      [.composite (Scope.fetching id) nodeType.name selections]⟩)
    (hm : (Decoded.object (decoder.decode data)).at? [.key nodeFieldName] = some (.object model)) :
    model.head.set = ⟨nodeType.name, selections⟩ := by
  rw [at?_decode] at hm
  obtain ⟨spot, hspot, hread⟩ := Option.map_eq_some_iff.1 hm
  obtain ⟨static, parts, entries, hshape, -, rfl⟩ := of_read_eq_object hread
  obtain ⟨next, hstep, hnext⟩ := Option.bind_eq_some_iff.1 hspot
  obtain rfl : next = spot := Option.some.inj hnext
  rw [step?_key rfl rfl] at hstep
  obtain ⟨collected, hjoined, hstep⟩ := Option.bind_eq_some_iff.1 hstep
  obtain ⟨json, -, rfl⟩ := Option.map_eq_some_iff.1 hstep
  let type := decoder.concreteType decoder.rootType (data.obj?.getD [])
  let roots : List Part := [.ofOperation decoder.source.operation.set]
  have hfields : ((Collected.fieldsOfParts decoder.bundle type roots).filter
      (·.key == nodeFieldName)).map Collected.selection =
        [.composite (Scope.fetching id) nodeType.name selections] := by
    let leg : Leg := ⟨type, nodeFieldName, ""⟩
    rw [Collected.filter_selections, Collected.selections_fieldsOfParts, Part.merged_singleton,
      Part.ofOperation, hs, Bundle.opening]
    change Selection.taken decoder.bundle leg _ = _
    exact Selection.taken_fetching _ id _ _ rfl
  obtain ⟨only, others, honly, hselection, hothers⟩ := List.map_eq_cons_iff.1 hfields
  obtain rfl := List.map_eq_nil_iff.1 hothers
  obtain rfl : only = collected := Option.some.inj ((congrArg Collected.joined honly).symm.trans hjoined)
  have hmem : only ∈ Collected.fieldsOfParts decoder.bundle type roots :=
    (List.mem_filter.1 (honly ▸ List.mem_cons_self)).1
  obtain ⟨made, found⟩ := only
  obtain hnil | ⟨pair, hpair⟩ := Collected.parts_fieldsOfParts _ _ hmem
  · obtain rfl : found = [] := hnil
    cases hselection
  · obtain ⟨rfl, rfl⟩ := Collected.mk.inj hpair
    obtain ⟨-, hname, hselections⟩ := Selection.composite.inj hselection
    have hgroup : Shape.ofCollected decoder.bundle ⟨pair.1, [pair.2]⟩ = .object static parts := hshape
    obtain rfl := Shape.parts_of_ofCollected hgroup
    change SelectionSet.mk pair.2.set.typeName (pair.2.set.selections ++ []) = _
    rw [List.append_nil, hname, hselections]

/-- The anchor at the object that a query fetches holds the set that the query selects on it. -/
theorem set_of_anchor {keys : List String} {nodes : List Model} {info : PageInfo} {mark : PageMark}
    {anchor : NodeAnchor} {id typeName : String} {nodeType : TypeDescriptor}
    {selections : List Selection}
    (hs : decoder.source.operation.set = ⟨typeName, decoder.bundle.opening decoder.bundle.queryRoot ++
      [.composite (Scope.fetching id) nodeType.name selections]⟩)
    (hm : (decoder.decode data).drill (nodeFieldName :: keys) =
      some (.connection nodes info (some mark)))
    (hu : mark.usableAnchor? = some anchor) (hd : anchor.depth = 1) :
    anchor.set = ⟨nodeType.name, selections⟩ := by
  obtain ⟨-, -, haround⟩ := mark_of_drill hm
  rw [Option.eq_some_of_filter_eq_some hu] at haround
  obtain ⟨before, hbefore, hat⟩ := List.exists_of_findSome?_eq_some haround.symm
  obtain ⟨model, entries, hmodel, hanchor⟩ : ∃ model entries,
      (Decoded.object (decoder.decode data)).at? before = some (.object model) ∧
        anchor = ⟨entries, model.type.name, model.head.set, (Move.keys before).length⟩ := by
    unfold anchorAt? at hat
    split at hat
    · rename_i model entries hmodel _
      split at hat
      · obtain ⟨id, -, rfl⟩ := Option.map_eq_some_iff.1 hat
        exact ⟨model, id, hmodel, rfl⟩
      · cases hat
    · cases hat
  have hprefix : before <+: Move.key nodeFieldName :: keys.map .key :=
    (List.mem_inits _ _).1 (List.mem_of_mem_dropLast (List.mem_reverse.1 hbefore))
  rw [hanchor] at hd
  obtain rfl : before = [.key nodeFieldName] := Move.eq_of_prefix hprefix hd
  rw [hanchor]
  exact set_of_fetched hs hmodel

/-! ## Runs over pages -/

/-- The marks of the connections that the answers hold one after the other, and the last query: each
query is answered by the next answer and leads to the query for the page after the connection it asked
for. -/
def turnPages (decoder : Decoder) : FollowUp → List Json → Option (List PageMark × FollowUp)
  | current, [] => some ([], current)
  | current, answer :: answers =>
    match ((decoder.forNext current).decode answer).drill current.path with
    | some (.connection _ _ (some mark)) =>
      match mark.nextPage with
      | .ok next => (turnPages decoder next answers).map fun turned => (mark :: turned.1, turned.2)
      | .error _ => none
    | _ => none

theorem turnPages_cons {current last : FollowUp} {answer : Json} {answers : List Json}
    {marks : List PageMark} (h : decoder.turnPages current (answer :: answers) = some (marks, last)) :
    ∃ nodes info mark next others,
      ((decoder.forNext current).decode answer).drill current.path =
        some (.connection nodes info (some mark)) ∧
      mark.nextPage = .ok next ∧ decoder.turnPages next answers = some (others, last) ∧
      marks = mark :: others := by
  rw [turnPages] at h
  split at h
  · rename_i nodes info mark hdrill
    split at h
    · rename_i next hnext
      obtain ⟨turned, hturned, heq⟩ := Option.map_eq_some_iff.1 h
      obtain ⟨rfl, rfl⟩ := Prod.mk.inj heq
      exact ⟨nodes, info, mark, next, turned.1, hdrill, hnext, hturned, rfl⟩
    · cases h
  · cases h

/-- Asked from the root, the last query is that of the first mark for the last cursor. -/
theorem turnPages_unanchored {mark : PageMark} {root : TypeDescriptor} {rest : List Selection}
    (hb : mark.source.operation.Begun decoder.bundle root rest)
    (hd : mark.source.operation.Declares decoder.bundle) (hs : mark.source.bundle = decoder.bundle)
    (hu : mark.usableAnchor? = none) {answers : List Json} {marks : List PageMark}
    {first last : FollowUp} (hq : mark.nextPage = .ok first)
    (hp : decoder.turnPages first answers = some (marks, last))
    (ha : ∀ later ∈ marks, later.usableAnchor? = none) :
    ({ mark with cursor := (marks.getLast?.map (·.cursor)).getD mark.cursor } : PageMark).nextPage =
      .ok last := by
  induction answers generalizing mark first marks with
  | nil =>
    obtain ⟨rfl, rfl⟩ := Prod.mk.inj (Option.some.inj hp)
    exact hq
  | cons answer answers ih =>
    obtain ⟨nodes, info, later, next, others, hdrill, hnext, hrest, rfl⟩ := turnPages_cons hp
    obtain ⟨hsource, hpath, -⟩ := mark_of_drill hdrill
    have hsame : later.source = ⟨mark.source.bundle, first.operation, first.values⟩ := by
      rw [hsource, hs]
      rfl
    have hturned := PageMark.nextPage_turned (hs ▸ hb) (hs ▸ hd) hu hq hsame hpath
      (ha later List.mem_cons_self)
    rw [hnext] at hturned
    have hlast := @ih { mark with cursor := later.cursor } hb hd hs hu others next hturned.symm hrest
      fun other ho => ha other (List.mem_cons_of_mem _ ho)
    cases others with
    | nil => exact hlast
    | cons other others => exact hlast

/-- Asked from the object that was fetched, each query adds the same to the set before. -/
theorem turnPages_anchored {field : FieldDescriptor} {nodeType : TypeDescriptor}
    (hf : decoder.bundle.nodeField? = some field)
    (hn : decoder.bundle.get? field.typeName = some nodeType) {keys : List String}
    {inner : List Selection} {answers : List Json} {marks : List PageMark} {first last : FollowUp}
    (hw : first.Wraps decoder.bundle nodeType keys inner)
    (hp : decoder.turnPages first answers = some (marks, last))
    (ha : ∀ later ∈ marks, ∃ anchor, later.usableAnchor? = some anchor ∧ anchor.depth = 1) :
    ∃ more, last.Wraps decoder.bundle nodeType keys more ∧ Selection.sizeAll more =
      Selection.sizeAll inner +
        marks.length * (1 + Selection.sizeAll (decoder.bundle.openingAlong nodeType keys)) := by
  induction answers generalizing first inner marks with
  | nil =>
    obtain ⟨rfl, rfl⟩ := Prod.mk.inj (Option.some.inj hp)
    exact ⟨inner, hw, by simp⟩
  | cons answer answers ih =>
    obtain ⟨nodes, info, later, next, others, hdrill, hnext, hrest, rfl⟩ := turnPages_cons hp
    obtain ⟨hsource, hpath, -⟩ := mark_of_drill hdrill
    obtain ⟨anchor, hu, hdepth⟩ := ha later List.mem_cons_self
    have hbundle : later.source.bundle = decoder.bundle := by rw [hsource]; rfl
    rw [hw.path] at hdrill hpath
    have hanchor : ∀ id selections, first.operation.set = ⟨decoder.bundle.queryRoot.name,
        decoder.bundle.opening decoder.bundle.queryRoot ++
          [.composite (Scope.fetching id) nodeType.name selections]⟩ →
        anchor.set = ⟨nodeType.name, selections⟩ := fun id selections hset =>
      @set_of_anchor (decoder.forNext first) answer keys nodes info later anchor id _ nodeType
        selections hset hdrill hu hdepth
    have hkeys : later.path.drop anchor.depth = keys := by rw [hpath, hdepth]; rfl
    rw [← hbundle] at hw hf hn hanchor
    obtain ⟨grown, hgrown, hsize⟩ := PageMark.wraps_again hw hanchor hu hkeys hf hn hnext
    rw [hbundle] at hgrown hf hn hsize
    obtain ⟨more, hmore, hrun⟩ := ih hgrown hrest fun other ho => ha other (List.mem_cons_of_mem _ ho)
    refine ⟨more, hmore, ?_⟩
    rw [hrun, hsize, List.length_cons, Nat.succ_mul]
    omega

/-- Page after page from the root the query stays as it is but for the texts of cursors: it is always that
of the first mark with the cursor of the page before. Page after page from the object that the query before
has fetched, every query puts all that the one before selects on the object into one more fragment, with
what is kept of the beginning of that set, and so no two of them are alike. -/
theorem queries_of_turnPages {program : OperationDraft} {address : List Move} {mark : PageMark}
    {first last : FollowUp} {answers : List Json} {marks : List PageMark}
    (hd : ∀ fragment ∈ Step.fragmentsOfAll program.program, fragment.DefinedOver decoder.bundle)
    (ho : (program.build decoder.bundle).result = .ok decoder.source.operation)
    (hm : ((Decoded.object (decoder.decode data)).at? address).bind Decoded.mark? = some mark)
    (hq : mark.nextPage = .ok first)
    (hp : decoder.turnPages first answers = some (marks, last)) :
    (mark.usableAnchor? = none → (∀ later ∈ marks, later.usableAnchor? = none) →
      ({ mark with cursor := (marks.getLast?.map (·.cursor)).getD mark.cursor } : PageMark).nextPage =
          .ok last ∧ last.blank = first.blank) ∧
    ∀ anchor field nodeType, mark.usableAnchor? = some anchor →
      decoder.bundle.nodeField? = some field → decoder.bundle.get? field.typeName = some nodeType →
      (∀ later ∈ marks, ∃ anchor, later.usableAnchor? = some anchor ∧ anchor.depth = 1) →
        last.path = first.path ∧
        Selection.sizeAll last.operation.set.selections =
          Selection.sizeAll first.operation.set.selections + marks.length *
            (1 + Selection.sizeAll (decoder.bundle.openingAlong nodeType first.path.tail)) ∧
        (last.blank = first.blank → marks = []) := by
  have hvalid := OperationDraft.valid_of_validOver
    (fun fragment hm => Fragment.validOver_of_definedOver (hd fragment hm)) ho
  obtain ⟨known, -, -, hall⟩ := hvalid.root
  have hspreads : Selection.EverywhereAll (Selection.SpreadsValid decoder.bundle)
      decoder.source.operation.set.selections := Selection.spreadsValid_of_allValidOn hall
  obtain ⟨hsource, hfrom⟩ := anchor_of_mark? (fun spot => follow?_throughout hspreads) hm
  have hbundle : mark.source.bundle = decoder.bundle := by rw [hsource]; rfl
  refine ⟨fun hu ha => ?_, fun anchor field nodeType hu hf hn ha => ?_⟩
  · obtain ⟨root, rest, hbegun⟩ := OperationDraft.begun_of_build hd ho
    have hdeclares := OperationDraft.declares_of_build ho
    rw [← hsource] at hbegun hdeclares
    have hlast := turnPages_unanchored hbegun hdeclares hbundle hu hq hp ha
    exact ⟨hlast, PageMark.blank_turned (hbundle ▸ hbegun) (hbundle ▸ hdeclares) hu hq hlast⟩
  · obtain ⟨-, static, parts, -, hparts, -, -, -, hset⟩ :=
      hfrom anchor (Option.eq_some_of_filter_eq_some hu)
    have hstart : Selection.EverywhereAll (Selection.SpreadsValid mark.source.bundle)
        anchor.set.selections := by
      rw [hset, hbundle]
      exact hparts
    obtain ⟨inner, hfirst⟩ := PageMark.wraps_of_anchored hstart hu (hbundle ▸ hf) (hbundle ▸ hn) hq
    rw [hbundle] at hfirst
    obtain ⟨more, hlast, hsize⟩ := turnPages_anchored hf hn hfirst hp ha
    have hgrown : Selection.sizeAll last.operation.set.selections =
        Selection.sizeAll first.operation.set.selections + marks.length *
          (1 + Selection.sizeAll (decoder.bundle.openingAlong nodeType first.path.tail)) := by
      rw [hlast.size, hfirst.size, hsize, hfirst.path, List.tail_cons]
      omega
    refine ⟨hlast.path.trans hfirst.path.symm, hgrown, fun hblank => ?_⟩
    have hsame := FollowUp.size_of_blank hblank
    rw [hgrown, Nat.add_eq_left, Nat.mul_eq_zero] at hsame
    exact List.length_eq_zero_iff.1 (hsame.resolve_right (by omega))

end Decoder

/-- The first query for more products, the marks of the further pages and the last query, if they are as
`check` says. -/
def pagedTurned (data : Json) (answers : List Json)
    (check : PageMark → FollowUp → List PageMark → FollowUp → Bool) : Bool :=
  match ((Decoded.object (pagedDecoder.decode data)).at?
    [.key "shop", .key "products"]).bind Decoded.mark? with
  | some mark =>
    match mark.nextPage with
    | .ok first => (pagedDecoder.turnPages first answers).any fun turned =>
        check mark first turned.1 turned.2
    | .error _ => false
  | none => false

theorem of_pagedTurned {data : Json} {answers : List Json}
    {check : PageMark → FollowUp → List PageMark → FollowUp → Bool}
    (h : pagedTurned data answers check = true) :
    ∃ mark first marks last,
      ((Decoded.object (pagedDecoder.decode data)).at?
        [.key "shop", .key "products"]).bind Decoded.mark? = some mark ∧
      mark.nextPage = .ok first ∧ pagedDecoder.turnPages first answers = some (marks, last) ∧
      check mark first marks last = true := by
  unfold pagedTurned at h
  split at h
  · rename_i mark hmark
    split at h
    · rename_i first hfirst
      obtain ⟨turned, hturned, hcheck⟩ := (Option.any_eq_true _ _).1 h
      exact ⟨mark, first, turned.1, turned.2, hmark, hfirst, hturned, hcheck⟩
    · cases h
  · cases h

/-- Without its id the shop cannot be fetched. -/
theorem paged_turned :
    (∃ mark first marks last,
      ((Decoded.object (pagedDecoder.decode gappedData)).at?
        [.key "shop", .key "products"]).bind Decoded.mark? = some mark ∧
      mark.nextPage = .ok first ∧
      pagedDecoder.turnPages first [gappedData, gappedData] = some (marks, last) ∧
      last.blank = first.blank) ∧
    ∃ mark first marks last nodeType,
      ((Decoded.object (pagedDecoder.decode pagedData)).at?
        [.key "shop", .key "products"]).bind Decoded.mark? = some mark ∧
      mark.nextPage = .ok first ∧
      pagedDecoder.turnPages first [pagedShopData, pagedShopData] = some (marks, last) ∧
      Selection.sizeAll last.operation.set.selections =
        Selection.sizeAll first.operation.set.selections + marks.length *
          (1 + Selection.sizeAll (sampleBundle.openingAlong nodeType first.path.tail)) := by
  have hdefined : ∀ fragment ∈ Step.fragmentsOfAll pagedDraft.program,
      fragment.DefinedOver sampleBundle := fun fragment hf => (paged_guidedOver fragment hf).definedOver
  constructor
  · obtain ⟨mark, first, marks, last, hm, hq, hp, hcheck⟩ := of_pagedTurned
      (show pagedTurned gappedData [gappedData, gappedData] (fun mark _ marks _ =>
        (mark :: marks).all (·.usableAnchor?.isNone)) = true by decide +kernel)
    rw [List.all_cons, Bool.and_eq_true, List.all_eq_true, Option.isNone_iff_eq_none] at hcheck
    obtain ⟨hrooted, -⟩ := @Decoder.queries_of_turnPages pagedDecoder gappedData pagedDraft _ mark first
      last _ marks hdefined paged_built hm hq hp
    exact ⟨mark, first, marks, last, hm, hq, hp,
      (hrooted hcheck.1 fun later hl => Option.isNone_iff_eq_none.1 (hcheck.2 later hl)).2⟩
  · obtain ⟨mark, first, marks, last, hm, hq, hp, hcheck⟩ := of_pagedTurned
      (show pagedTurned pagedData [pagedShopData, pagedShopData] (fun mark _ marks _ =>
        mark.usableAnchor?.isSome && marks.all (·.usableAnchor?.any (·.depth == 1))) = true by
          decide +kernel)
    rw [Bool.and_eq_true, List.all_eq_true, Option.isSome_iff_exists] at hcheck
    obtain ⟨⟨anchor, hanchor⟩, hmarks⟩ := hcheck
    have hall : ∀ later ∈ marks, ∃ anchor, later.usableAnchor? = some anchor ∧ anchor.depth = 1 := by
      intro later hl
      obtain ⟨found, hfound, hdepth⟩ := (Option.any_eq_true _ _).1 (hmarks later hl)
      exact ⟨found, hfound, beq_iff_eq.1 hdepth⟩
    obtain ⟨nodeType, hfetches⟩ := sampleBundle_fetchesById
    obtain ⟨field, hfield, hnode, -⟩ := hfetches.declared
    obtain ⟨-, hanchored⟩ := @Decoder.queries_of_turnPages pagedDecoder pagedData pagedDraft _ mark first
      last _ marks hdefined paged_built hm hq hp
    obtain ⟨-, hsize, -⟩ := hanchored anchor field nodeType hanchor hfield hnode hall
    exact ⟨mark, first, marks, last, nodeType, hm, hq, hp, hsize⟩

/-- The query for the third page of the products is larger than that for the second one. -/
theorem paged_queries_grow :
    (pagedDraft.build sampleBundle).result = .ok pagedDecoder.source.operation ∧
    ∃ mark first later last,
      ((Decoded.object (pagedDecoder.decode pagedData)).at?
        [.key "shop", .key "products"]).bind Decoded.mark? = some mark ∧
      mark.nextPage = .ok first ∧
      pagedDecoder.turnPages first [pagedShopData] = some ([later], last) ∧
      Selection.sizeAll first.operation.set.selections <
        Selection.sizeAll last.operation.set.selections ∧
      last.blank ≠ first.blank := by
  obtain ⟨mark, first, marks, last, hm, hq, hp, hcheck⟩ := of_pagedTurned
    (show pagedTurned pagedData [pagedShopData] (fun _ first _ last =>
      decide (Selection.sizeAll first.operation.set.selections <
        Selection.sizeAll last.operation.set.selections)) = true by decide +kernel)
  have hsize := of_decide_eq_true hcheck
  obtain ⟨_, _, later, _, others, -, -, hrest, rfl⟩ := Decoder.turnPages_cons hp
  obtain ⟨rfl, -⟩ := Prod.mk.inj (Option.some.inj hrest)
  refine ⟨paged_built, mark, first, later, last, hm, hq, hp, hsize, fun hblank => ?_⟩
  rw [FollowUp.size_of_blank hblank] at hsize
  exact Nat.lt_irrefl _ hsize

end GraphQLClient
