import GraphQLClient.Proofs.Decoding.Agreement
import GraphQLClient.Proofs.Decoding.Relocation
import GraphQLClient.Proofs.Decoding.Starts
import GraphQLClient.Proofs.Paging.FollowUps
import GraphQLClient.Proofs.Paging.Trimming
import GraphQLClient.Proofs.Paging.Walking

set_option autoImplicit false

/-!
# Follow-up queries select the page that they come from

The query for the next page selects the connection with the fields of the page before. Were it answered
with the data of that page, it would decode them to the same page once more.
-/

namespace GraphQLClient

namespace Selection

variable {bundle : Bundle} {leg : Leg} {rest : List Leg}

theorem taken_opening {scope : Scope} (hi : leg.key ≠ "id") (ht : leg.key ≠ typenameField) :
    taken bundle leg scope.opening = [] := by
  have hid : taken bundle leg [.leaf (.plain "id")] = [] := taken_leaf (Ne.symm hi)
  have hname : taken bundle leg [.leaf (.plain typenameField)] = [] := taken_leaf (Ne.symm ht)
  have hnil : taken bundle leg [] = [] := rfl
  unfold Scope.opening
  rw [taken_append]
  split <;> split <;> simp only [hid, hname, hnil, List.append_nil]

/-- A query for an object selects nothing else under the field that fetches the object. -/
theorem taken_fetching (scope : Scope) (id typeName : String) (selections : List Selection)
    (hk : leg.key = nodeFieldName) :
    taken bundle leg (scope.opening ++ [.composite (Scope.fetching id) typeName selections]) =
      [.composite (Scope.fetching id) typeName selections] := by
  have hfetching : (Scope.fetching id).responseKey = leg.key := hk.symm
  rw [taken_append, taken_opening (by rw [hk]; decide) (by rw [hk]; decide),
    taken_composite _ _ hfetching, List.nil_append]

/-- What is selected on an object under a key besides its `id` and type name comes from the set for its
type. -/
theorem taken_narrowed {scope : Scope} {target : TypeDescriptor} {inner : List Selection}
    (ha : Collected.applies bundle target.name leg.type = true) (hi : leg.key ≠ "id")
    (ht : leg.key ≠ typenameField) :
    taken bundle leg (scope.narrowed target inner) = taken bundle leg inner := by
  rw [Scope.narrowed, taken_append, taken_opening hi ht, taken_inlineFragment, if_pos ha,
    List.nil_append]

/-- A trail into an object goes on behind the field that fetches the object. -/
theorem along_fetched (scope : Scope) (id : String) {nodeType target : TypeDescriptor} {first : Leg}
    {inner : List Selection} (hk : first.key = nodeFieldName) (hn : first.typeName = nodeType.name)
    (ht : leg.type = target) (hi : leg.key ≠ "id") (hname : leg.key ≠ typenameField)
    (ha : Along bundle (leg :: rest) inner) :
    Along bundle (first :: leg :: rest) (scope.opening ++
        [.composite (Scope.fetching id) nodeType.name ((scope.within nodeType).narrowed target inner)]) ∧
      ends bundle (first :: leg :: rest) (scope.opening ++
        [.composite (Scope.fetching id) nodeType.name ((scope.within nodeType).narrowed target inner)]) =
        ends bundle (leg :: rest) inner := by
  have houter : taken bundle first (scope.opening ++ [.composite (Scope.fetching id) nodeType.name
      ((scope.within nodeType).narrowed target inner)]) =
      [.composite (Scope.fetching id) nodeType.name
        ((scope.within nodeType).narrowed target inner)] := taken_fetching scope id _ _ hk
  have happlies : Collected.applies bundle target.name leg.type = true := by
    simp [Collected.applies, ht]
  have hinner : taken bundle leg ((scope.within nodeType).narrowed target inner) =
      taken bundle leg inner := taken_narrowed happlies hi hname
  refine ⟨?_, ?_⟩
  · rw [Along, houter]
    intro selection hs
    obtain rfl := List.mem_singleton.1 hs
    exact ⟨⟨hn.symm, rfl⟩, (along_congr hinner).2 ha⟩
  · rw [ends_next, houter, List.flatMap_singleton]
    exact ends_congr hinner

/-- A set along a trail starts with nothing on the trail. -/
theorem taken_opening_of_along {scope : Scope} {selections : List Selection}
    (hp : scope.opening <+: selections) (ha : Along bundle (leg :: rest) selections) :
    taken bundle leg scope.opening = [] := by
  obtain ⟨others, rfl⟩ := hp
  rw [List.eq_nil_iff_forall_not_mem]
  intro selection hs
  have hfits := ((along_append.1 ha).1 selection hs).1
  have hleaf : ∃ field, selection = .leaf field := by
    have hall : ∀ field ∈ fieldsOnAll bundle leg.type scope.opening, ∃ f, field = .leaf f := by
      unfold Scope.opening
      split <;> split <;> simp [fieldsOnAll, fieldsOn]
    exact hall selection (List.mem_filter.1 hs).1
  obtain ⟨field, rfl⟩ := hleaf
  exact hfits

end Selection

/-- The field under a key is declared with one type by the type of the anchor and by the type that the
anchor was selected as. -/
def NodeAnchor.Conforms (anchor : NodeAnchor) (bundle : Bundle) (key : String) : Prop :=
  ∀ static concrete field typeName inner, bundle.get? anchor.set.typeName = some static →
    bundle.get? anchor.typeName = some concrete →
    Selection.composite field typeName inner ∈ anchor.set.selections → field.responseKey = key →
    (concrete.field? field.name).map FieldDescriptor.typeName =
      (static.field? field.name).map FieldDescriptor.typeName

theorem Part.key_ne_typename {operation : Operation} {bundle : Bundle}
    {table : Nat → Option SelectionSet} {static : TypeDescriptor} {parts : List Part} {leg : Leg}
    {rest : List Leg} (hs : ∀ part ∈ parts, part.Sound operation bundle table static)
    (ha : Selection.Along bundle (leg :: rest) (Part.merged parts).selections)
    (hne : Selection.taken bundle leg (Part.merged parts).selections ≠ []) :
    leg.key ≠ typenameField := by
  obtain ⟨hvalid, -, hplain⟩ := Part.Sound.merged hs
  obtain ⟨selection, hm⟩ := List.exists_mem_of_ne_nil _ hne
  obtain ⟨hfield, hanswers⟩ := List.mem_filter.1 hm
  have hunaliased := (Selection.everywhereAll_iff.1 (Selection.everywhere_fieldsOnAll hplain) _
    hfield).self.unaliased
  have hfits := (ha selection hm).1
  cases selection with
  | composite field typeName inner =>
    have hkey : field.responseKey = leg.key := by simpa [Selection.answers, Selection.field?] using hanswers
    have hnamed := (Selection.validOn_fieldsOnAll leg.type hvalid hfield).1
    rw [← hkey, Field.responseKey]
    cases halias : field.aliasName with
    | none => exact hnamed
    | some name =>
      intro he
      exact (hunaliased field rfl).2 (halias.trans (congrArg some he))
  | _ => exact hfits.elim

/-- An anchor that was selected as its own type. -/
theorem NodeAnchor.conforms_of_eq {anchor : NodeAnchor} {bundle : Bundle} {key : String}
    (h : anchor.set.typeName = anchor.typeName) : anchor.Conforms bundle key := by
  intro static concrete field typeName inner hs hc _ _
  rw [h, hc] at hs
  rw [Option.some.inj hs]

theorem NodeAnchor.Conforms.meetsOn {anchor : NodeAnchor} {bundle : Bundle} {key : String}
    {static concrete : TypeDescriptor} {scope scope' : Scope} (h : anchor.Conforms bundle key)
    (hs : bundle.get? anchor.set.typeName = some static)
    (hc : bundle.get? anchor.typeName = some concrete) (hb : scope.bundle = bundle)
    (ht : scope.type = static) (hb' : scope'.bundle = bundle) (ht' : scope'.type = concrete) :
    Selection.MeetsOn key anchor.set.selections scope scope' := by
  have htypeOf : ∀ (scope : Scope) (name : String), scope.typeOf? name =
      ((scope.type.field? name).map FieldDescriptor.typeName).bind scope.bundle.get? := by
    intro scope name
    unfold Scope.typeOf?
    cases scope.type.field? name <;> rfl
  intro field typeName inner hm hk
  rw [htypeOf, htypeOf, ht, ht', hb, hb', h static concrete field typeName inner hs hc hm hk]

namespace Decoder

variable {decoder : Decoder}

/-- The decoder for the answer to a follow-up query. -/
def forNext (decoder : Decoder) (next : FollowUp) : Decoder :=
  { decoder with source := ⟨decoder.bundle, next.operation, next.values⟩ }

theorem walks_forNext {next : FollowUp} {trail : List Leg} {static : TypeDescriptor}
    {entries found : List (String × Json)} :
    (decoder.forNext next).Walks trail static entries found ↔
      decoder.Walks trail static entries found := by
  induction trail generalizing static entries with
  | nil => rfl
  | cons leg rest ih =>
    simp only [Walks, ih]
    rfl

theorem connectionNodeSet?_withCursor (selection : Selection) (cursor : String) :
    (selection.withCursor cursor).connectionNodeSet? = selection.connectionNodeSet? := by
  cases selection <;> rfl

section

variable {next : FollowUp} {set : SelectionSet} {table : Nat → Option SelectionSet}
  {static nodeType : TypeDescriptor} {parts : List Part} {entries found : List (String × Json)}
  {leg : Leg} {rest : List Leg} {selection : Selection} {part : Part} {last : Spot}

/-- Where a walk through an answer ends at the nodes of a connection, the answer is decoded to a
connection with alike nodes. -/
theorem drill_of_walks {trail : List Leg} {nodes : List Model} {info : PageInfo}
    {mark : Option PageMark} {cursor : String} {answer : Json}
    (h : decoder.Arrives static parts entries trail selection found nodeType part last)
    (hp : part.Placed set table) (hread : decoder.read last = .connection nodes info mark)
    (hr : Selection.EverywhereAll (Selection.Registered table) next.operation.set.selections)
    (hw : decoder.Walks (leg :: rest) (decoder.forNext next).rootType (answer.obj?.getD []) found)
    (ha : Selection.Along decoder.bundle (leg :: rest) next.operation.set.selections)
    (he : (Selection.ends decoder.bundle (leg :: rest) next.operation.set.selections).head? =
      some (selection.withCursor cursor)) :
    ∃ nodes' mark', ((decoder.forNext next).decode answer).drill ((leg :: rest).map Leg.key) =
        some (.connection nodes' info mark') ∧
      nodes'.map Model.bare = nodes.map Model.bare := by
  have hmerged : (Part.merged [.ofOperation next.operation.set]).selections =
      next.operation.set.selections := List.append_nil _
  have hroot : ∀ other ∈ [Part.ofOperation next.operation.set],
      other.Placed next.operation.set table := by
    intro other ho
    obtain rfl := List.mem_singleton.1 ho
    exact ⟨rfl, hr⟩
  rw [← hmerged] at ha he
  have hstart : ((decoder.forNext next).root answer).shape =
    .object (decoder.forNext next).rootType [.ofOperation next.operation.set] := rfl
  have hwalks : (decoder.forNext next).Walks (leg :: rest) (decoder.forNext next).rootType
      (answer.obj?.getD []) found := walks_forNext.2 hw
  obtain ⟨last', type', parts', part', hlast, hjson, hshape, hset, hplaced⟩ :=
    follow?_connection hstart rfl hroot hwalks ha he
      ((connectionNodeSet?_withCursor selection cursor).trans h.nodes) h.known
  have hmoved := hp.moved hplaced hset.symm
  obtain ⟨type, parts'', hold⟩ := h.shape
  obtain ⟨shape, position, mark', json⟩ := last
  obtain ⟨shape', position', mark'', json'⟩ := last'
  obtain rfl : shape = _ := hold
  obtain rfl : json = _ := h.json
  obtain rfl : shape' = _ := hshape
  obtain rfl : json' = _ := hjson
  have hvalue : decoder.value (.connection type parts'' nodeType part) position (.obj found) =
    .connection nodes info mark := hread
  obtain ⟨nodes', mark', hvalue', hbare⟩ : ∃ nodes' mark',
      (decoder.forNext next).value (.connection type' parts' nodeType part') position'
        (.obj found) = .connection nodes' info mark' ∧
      nodes'.map Model.bare = nodes.map Model.bare := by
    have hbundle : (decoder.forNext next).bundle = decoder.bundle := rfl
    have hregistry : (decoder.forNext next).registry = decoder.registry := rfl
    obtain ⟨nodes', mark', h, hbare, -⟩ := bare_connection hbundle hregistry hmoved hvalue
    exact ⟨nodes', mark', h, hbare⟩
  refine ⟨nodes', mark', ?_, hbare⟩
  rw [List.map_cons, drill_eq_at?, at?_decode, ← List.map_cons (f := Leg.key), List.map_map]
  rw [show (Move.key ∘ Leg.key) = fun leg : Leg => Move.key leg.key from rfl, hlast, Option.map_some]
  exact congrArg some hvalue'

/-- An object that names its type is walked through below the field that fetches it as it was in its
place. -/
theorem walks_fetched {root interface : TypeDescriptor}
    (hw : decoder.Walks (leg :: rest) static entries found) (hname : leg.key ≠ typenameField)
    (hknown : decoder.bundle.get? interface.name = some interface)
    (hconcrete : decoder.bundle.get? (decoder.concreteType static entries).name =
      some (decoder.concreteType static entries))
    (hcan : interface.canBe (decoder.concreteType static entries).name = true) :
    ∃ first : Leg, first.key = nodeFieldName ∧ first.typeName = interface.name ∧
      decoder.Walks (first :: leg :: rest) root [(nodeFieldName, .obj (Keyed.insert typenameField
        (.str (decoder.concreteType static entries).name) entries))] found := by
  obtain ⟨htype, inner, below, hinner, hbelow, hrest⟩ := hw
  let object := Keyed.insert typenameField (.str (decoder.concreteType static entries).name) entries
  refine ⟨⟨decoder.concreteType root [(nodeFieldName, .obj object)], nodeFieldName, interface.name⟩,
    rfl, rfl, rfl, object, interface, by simp [Keyed.find?, object], hknown, ?_, inner, below, ?_, hbelow,
    hrest⟩
  · rw [htype]
    exact (concreteType_of_canBe hknown hconcrete hcan (Keyed.find?_insert_self _ _ _)).symm
  · rw [Keyed.find?_insert_of_ne (Ne.symm hname)]
    exact hinner

/-- The object where the keys to a connection start is its anchor, if these keys are what the path of
the connection leaves behind the anchor. -/
theorem anchor_of_connection {key : String} {keys : List String} {operation : Operation}
    {start : Spot} {nodes : List Model} {info : PageInfo} {mark : PageMark} {anchor : NodeAnchor}
    (hshape : start.shape = .object static parts) (hj : start.json = .obj entries)
    (hsound : start.Sound operation decoder.bundle table)
    (hf : decoder.follow? start ((key :: keys).map .key) = some last)
    (hread : decoder.read last = .connection nodes info (some mark))
    (hused : mark.usableAnchor? = some anchor) (hdrop : mark.path.drop anchor.depth = key :: keys) :
    ∃ id, Keyed.find? "id" entries = some (.str id) ∧
      anchor = ⟨id, (decoder.concreteType static entries).name, Part.merged parts,
        start.position.path.length⟩ := by
  obtain ⟨hpath, hanchor, -⟩ := mark_of_read hread
  have hmarked : last.position.anchor = some anchor := by
    rw [← hanchor]
    exact Option.eq_some_of_filter_eq_some hused
  exact anchor_of_follow? hshape hj hsound.2 hf hmarked (hpath ▸ hdrop)

end

section

variable {fragments : List Fragment} {data : Json} {next : FollowUp}

variable (hg : decoder.source.operation.Guided decoder.bundle fragments)
  (hr : decoder.bundle.Rooted)

section

variable {mark : PageMark} {leg : Leg} {rest : List Leg} {selection : Selection}
  (hsource : mark.source = decoder.source)

include hg hr hsource

/-- What a query from the root selects along a trail of its origin. -/
theorem selects_unanchored (hnone : mark.usableAnchor? = none)
    (hmark : mark.path = leg.key :: rest.map Leg.key) (hq : mark.nextPage = .ok next)
    (ha : Selection.Along decoder.bundle (leg :: rest) decoder.source.operation.set.selections)
    (he : (Selection.ends decoder.bundle (leg :: rest)
      decoder.source.operation.set.selections).head? = some selection) :
    next.path = (leg :: rest).map Leg.key ∧ (decoder.forNext next).rootType = decoder.rootType ∧
      Selection.EverywhereAll (Selection.Registered (Fragment.table fragments))
        next.operation.set.selections ∧
      Selection.Along decoder.bundle (leg :: rest) next.operation.set.selections ∧
      (Selection.ends decoder.bundle (leg :: rest) next.operation.set.selections).head? =
        some (selection.withCursor mark.cursor) := by
  obtain ⟨scope, hbundle, hkind, hnext, hname, hrebuilds⟩ :=
    PageMark.nextPage_unanchored hnone hmark hq
  rw [hsource] at hbundle hkind hrebuilds
  -- The root of the new query is that of the old one, and so is its opening.
  obtain ⟨root, hroot, ⟨hrootName, -, -⟩, hvalid⟩ := hg.valid.root
  obtain ⟨grown, hgrownBundle, hgrownRoot, -, hbegins⟩ := hg.grown
  have hsame : scope.type = root := Except.ok.inj ((hbundle ▸ hkind).symm.trans hroot)
  have hopening : scope.opening = grown.opening := by
    have htypes : grown.type = scope.type := by
      rw [hsame]
      exact Except.ok.inj (hgrownRoot.symm.trans hroot)
    simp only [Scope.opening, htypes]
  have htaken : Selection.taken decoder.bundle leg scope.opening = [] :=
    Selection.taken_opening_of_along (hopening ▸ hbegins) ha
  have halike : (⟨decoder.bundle, decoder.source.operation.declarations, root⟩ : Scope).Alike scope :=
    ⟨hbundle, hsame⟩
  have hfollows := Selection.follows_of_rebuildsAll halike.1 (Selection.meetsOn_of_alike halike) hvalid
    ha (Selection.along_of_taken_eq_nil htaken) hrebuilds
  have hold : decoder.rootType = root := rootType_eq (hr.get?_root hroot) hrootName
  refine ⟨hnext, ?_, ?_, hfollows.along, hfollows.head?_ends he htaken⟩
  · rw [hold]
    exact rootType_eq (hr.get?_root hroot) (hname.trans (congrArg TypeDescriptor.name hsame))
  · exact Scope.everywhere_rebuildsAll (Selection.shallow_registered _)
      (Selection.everywhere_kept (Selection.shallow_registered _) hg.registered)
      (Scope.everywhere_opening (Selection.shallow_registered _).plain scope) hrebuilds

omit hg hr

/-- What a query from an anchor selects along a trail of the set of the anchor. -/
theorem selects_anchored {parts : List Part} {static concrete nodeType : TypeDescriptor}
    {anchor : NodeAnchor} {field : FieldDescriptor} {first : Leg}
    (hs : ∀ part ∈ parts, part.Sound decoder.source.operation decoder.bundle
      (Fragment.table fragments) static) (hset : anchor.set = Part.merged parts)
    (hstatic : decoder.bundle.get? anchor.set.typeName = some static)
    (hconcrete : decoder.bundle.get? anchor.typeName = some concrete)
    (hdeclared : decoder.bundle.nodeField? = some field)
    (hknown : decoder.bundle.get? field.typeName = some nodeType)
    (hused : mark.usableAnchor? = some anchor)
    (hdrop : mark.path.drop anchor.depth = leg.key :: rest.map Leg.key)
    (hconforms : anchor.Conforms decoder.bundle leg.key) (hq : mark.nextPage = .ok next)
    (htype : leg.type = concrete) (hid : leg.key ≠ "id") (hname : leg.key ≠ typenameField)
    (hfirst : first.key = nodeFieldName) (hfirstType : first.typeName = nodeType.name)
    (ha : Selection.Along decoder.bundle (leg :: rest) (Part.merged parts).selections)
    (he : (Selection.ends decoder.bundle (leg :: rest) (Part.merged parts).selections).head? =
      some selection) :
    next.path = (first :: leg :: rest).map Leg.key ∧
      Selection.EverywhereAll (Selection.Registered (Fragment.table fragments))
        next.operation.set.selections ∧
      Selection.Along decoder.bundle (first :: leg :: rest) next.operation.set.selections ∧
      (Selection.ends decoder.bundle (first :: leg :: rest) next.operation.set.selections).head? =
        some (selection.withCursor mark.cursor) := by
  obtain ⟨scope, pruned, hbundle, hroot, hnext, -, hpruned, hfetches⟩ :=
    PageMark.nextPage_anchored hused hdrop hq
  rw [hsource] at hbundle
  obtain ⟨selections, hrebuilds, hselections⟩ :=
    hfetches.known hbundle hroot hdeclared hknown hconcrete
  -- What was kept of the set of the anchor is selected on the type of the anchor.
  obtain ⟨hvalid, hregistered, -⟩ := Part.Sound.merged hs
  have hmeets := hconforms.meetsOn hstatic hconcrete
    (show (⟨decoder.bundle, decoder.source.operation.declarations, static⟩ : Scope).bundle = _ from rfl)
    rfl (show (scope.within concrete).bundle = _ from hbundle) rfl
  rw [hset] at hmeets hpruned
  have hfollows := Selection.follows_of_rebuildsAll hbundle hmeets hvalid ha
    (Selection.along_of_taken_eq_nil rfl) (hpruned ▸ hrebuilds)
  obtain ⟨halong, hends⟩ := Selection.along_fetched scope anchor.id hfirst hfirstType htype hid hname
    hfollows.along
  rw [← hselections] at halong hends
  refine ⟨?_, ?_, halong, ?_⟩
  · rw [hnext, List.map_cons, hfirst]
    rfl
  · exact Scope.everywhere_fetches (Selection.shallow_registered _) trivial hfetches
      (hpruned ▸ Selection.everywhere_kept (Selection.shallow_registered _) hregistered)
  · rw [hends]
    exact hfollows.head?_ends he rfl

end

variable (hu : Selection.EverywhereAll Selection.Unaliased decoder.source.operation.set.selections)

include hg hr hu

theorem root_sound_of_guided : (decoder.root data).Sound decoder.source.operation decoder.bundle
    (Fragment.table fragments) :=
  root_sound rfl rfl hr hg.valid hg.registered
    (Selection.EverywhereAll.and (fun _ hf hn => ⟨hf, hn⟩) hg.furnished hu) data

variable (ha : decoder.Agrees (.object (decoder.decode data)))

include ha

/-- A query that starts at the root, answered with the data of its origin. -/
theorem drill_nextPage_unanchored {key : String} {keys : List String} {last : Spot}
    {nodes : List Model} {info : PageInfo} {mark : PageMark}
    (hf : decoder.follow? (decoder.root data) ((key :: keys).map .key) = some last)
    (hread : decoder.read last = .connection nodes info (some mark))
    (hnone : mark.usableAnchor? = none) (hq : mark.nextPage = .ok next) :
    ∃ nodes' mark', ((decoder.forNext next).decode data).drill next.path =
        some (.connection nodes' info mark') ∧
      nodes'.map Model.bare = nodes.map Model.bare := by
  have hsound : (decoder.root data).Sound decoder.source.operation decoder.bundle
    (Fragment.table fragments) := root_sound_of_guided hg hr hu
  obtain ⟨leg, rest, selection, found, nodeType, part, hkeys, harrives⟩ :=
    exists_arrives rfl rfl hsound ha hf hread
  obtain ⟨rfl, rfl⟩ := List.cons.inj hkeys
  obtain ⟨hpath, -, hsource⟩ := mark_of_read hread
  have hmerged : (Part.merged [.ofOperation decoder.source.operation.set]).selections =
      decoder.source.operation.set.selections := List.append_nil _
  obtain ⟨hnext, hroot, hregistered, halong, hends⟩ := selects_unanchored hg hr hsource hnone
    (hpath.trans (position_of_follow? hf).1) hq (hmerged ▸ harrives.along) (hmerged ▸ harrives.first)
  rw [hnext]
  exact drill_of_walks harrives (harrives.placed (follow?_sound hsound ha hf).1) hread hregistered
    (hroot ▸ harrives.walks) halong hends

/-- A query that starts at an anchor, answered with the data of the anchor. -/
theorem drill_nextPage_anchored {key : String} {keys : List String} {before : List Move}
    {start last : Spot} {entries : List (String × Json)} {nodes : List Model} {info : PageInfo}
    {mark : PageMark} {anchor : NodeAnchor} {field : FieldDescriptor} {nodeType : TypeDescriptor}
    (hb : decoder.follow? (decoder.root data) before = some start) (hj : start.json = .obj entries)
    (hf : decoder.follow? start ((key :: keys).map .key) = some last)
    (hread : decoder.read last = .connection nodes info (some mark))
    (hused : mark.usableAnchor? = some anchor) (hdrop : mark.path.drop anchor.depth = key :: keys)
    (hdeclared : decoder.bundle.nodeField? = some field)
    (hknown : decoder.bundle.get? field.typeName = some nodeType)
    (hcan : nodeType.canBe anchor.typeName = true) (hconforms : anchor.Conforms decoder.bundle key)
    (hq : mark.nextPage = .ok next) :
    ∃ nodes' mark', ((decoder.forNext next).decode (.obj [(nodeFieldName,
        .obj (Keyed.insert typenameField (.str anchor.typeName) entries))])).drill next.path =
        some (.connection nodes' info mark') ∧
      nodes'.map Model.bare = nodes.map Model.bare := by
  have hroot : (decoder.root data).Sound decoder.source.operation decoder.bundle
    (Fragment.table fragments) := root_sound_of_guided hg hr hu
  obtain ⟨hsound, hagrees⟩ := follow?_sound hroot ha hb
  obtain ⟨static, parts, hshape⟩ : ∃ static parts, start.shape = .object static parts := by
    obtain ⟨_, hstep, -⟩ := Option.bind_eq_some_iff.1 hf
    obtain ⟨static, parts, -, hs, -⟩ := shape_of_step hstep
    exact ⟨static, parts, hs⟩
  obtain ⟨leg, rest, selection, found, nodeType', part, hkeys, harrives⟩ :=
    exists_arrives hshape hj hsound hagrees hf hread
  obtain ⟨id, hid, rfl⟩ := anchor_of_connection hshape hj hsound hf hread hused hdrop
  obtain ⟨rfl, rfl⟩ := List.cons.inj hkeys
  obtain ⟨hne, hparts⟩ : parts ≠ [] ∧ ∀ part ∈ parts, part.Sound decoder.source.operation
      decoder.bundle (Fragment.table fragments) static := by
    have hs := hsound.1
    rw [hshape] at hs
    exact hs
  have hstatic : decoder.bundle.get? (Part.merged parts).typeName = some static := by
    obtain ⟨first, more, rfl⟩ := List.exists_cons_of_ne_nil hne
    exact (hparts first List.mem_cons_self).known
  have hconcrete : decoder.bundle.get? (decoder.concreteType static entries).name =
      some (decoder.concreteType static entries) := get?_concreteType (Bundle.get?_self hstatic)
  have hname := Part.key_ne_typename hparts harrives.along (Selection.taken_ne_nil harrives.first)
  obtain ⟨htype, inner, below, hinner, -, -⟩ := harrives.walks
  have hidKey : leg.key ≠ "id" := by
    rintro he
    rw [he, hid] at hinner
    cases hinner
  obtain ⟨first, hkey, htypeName, hwalks⟩ :=
    walks_fetched harrives.walks hname (Bundle.get?_self hknown) hconcrete hcan
  obtain ⟨hnext, hregistered, halong, hends⟩ := selects_anchored (mark_of_read hread).2.2 hparts rfl
    hstatic hconcrete hdeclared hknown hused hdrop hconforms hq htype hidKey hname hkey htypeName
    harrives.along harrives.first
  rw [hnext]
  exact drill_of_walks harrives (harrives.placed (follow?_sound hsound hagrees hf).1) hread
    hregistered hwalks halong hends

end

end Decoder

/-- The answer `answer` gives a follow-up query the data that its connection came from. It starts
where the query does: at the root, or at the anchor, to which `before` leads. -/
inductive PageMark.Replays (decoder : Decoder) (data : Json) (mark : PageMark) :
    List Move → List String → Json → Prop
  | root (unanchored : mark.usableAnchor? = none) : Replays decoder data mark [] mark.path data
  | anchor {anchor : NodeAnchor} {before : List Move} {entries : List (String × Json)}
      {field : FieldDescriptor} {nodeType : TypeDescriptor}
      (usable : mark.usableAnchor? = some anchor)
      (found : decoder.dataAt? data before = some (.obj entries))
      (declared : decoder.bundle.nodeField? = some field)
      (known : decoder.bundle.get? field.typeName = some nodeType)
      (canBe : nodeType.canBe anchor.typeName = true) :
      Replays decoder data mark before (mark.path.drop anchor.depth)
        (.obj [(nodeFieldName,
          .obj (Keyed.insert typenameField (.str anchor.typeName) entries))])

/-- A follow-up query that is answered with the data of its page gets that page again: a connection
with the same page info and with alike nodes. -/
theorem Decoder.drill_nextPage {decoder : Decoder} {draft : BundleDraft} {fragments : List Fragment}
    {data answer : Json} {before : List Move} {keys : List String} {nodes : List Model}
    {info : PageInfo} {mark : PageMark} {next : FollowUp}
    (hb : draft.build = .ok decoder.bundle)
    (hg : decoder.source.operation.Guided decoder.bundle fragments)
    (hu : Selection.EverywhereAll Selection.Unaliased decoder.source.operation.set.selections)
    (ha : decoder.Agrees (.object (decoder.decode data)))
    (hr : mark.Replays decoder data before keys answer)
    (hs : ∀ anchor key, mark.usableAnchor? = some anchor → keys.head? = some key →
      anchor.Conforms decoder.bundle key)
    (hc : (Decoded.object (decoder.decode data)).at? (before ++ keys.map .key) =
      some (.connection nodes info (some mark)))
    (hq : (⟨nodes, info, some mark⟩ : Connection).nextPage = .ok next) :
    ∃ nodes' mark', ((decoder.forNext next).decode answer).drill next.path =
        some (.connection nodes' info mark') ∧
      nodes'.map Model.bare = nodes.map Model.bare := by
  have hrooted := BundleDraft.rooted_of_build hb
  have hnext : mark.nextPage = .ok next := hq
  rw [Decoder.at?_decode] at hc
  obtain ⟨last, hf, hread⟩ := Option.map_eq_some_iff.1 hc
  cases hr with
  | root unanchored =>
    cases hp : mark.path with
    | nil =>
      rw [hp] at hf
      obtain rfl := Option.some.inj hf
      cases hread
    | cons key keys =>
      rw [hp] at hf
      exact drill_nextPage_unanchored hg hrooted hu ha hf hread unanchored hnext
  | anchor usable found declared known canBe =>
    rename_i anchor entries field nodeType
    obtain ⟨start, hstart, hjson⟩ := Option.map_eq_some_iff.1 found
    rw [follow?_append, hstart] at hf
    cases hd : mark.path.drop anchor.depth with
    | nil =>
      have hdepth := Option.filter_eq_some_iff.1 usable
      simp only [Bool.and_eq_true, decide_eq_true_eq] at hdepth
      have hlength := List.drop_eq_nil_iff.1 hd
      omega
    | cons key keys =>
      rw [hd] at hf
      exact drill_nextPage_anchored hg hrooted hu ha hstart hjson hf hread usable hd declared known
        canBe (hs anchor key usable (by rw [hd]; rfl)) hnext

def pagedDraft : OperationDraft :=
  .ofProgram .query
    [.object "shop" .none
      [.connection "products" ⟨none, [("first", .int 1)]⟩ [.spread sampleFragment]]]

abbrev pagedDecoder : Decoder := ⟨⟨sampleBundle, pagedDraft.built sampleBundle, []⟩, none⟩

def pagedData : Json :=
  .obj [("shop", .obj [("id", .str "s1"), ("products", .obj
    [("edges", .arr [.obj [("cursor", .str "c1"), ("node", .obj
        [("id", .str "p1"), ("title", .str "Bowler")])]]),
     ("pageInfo", .obj [("hasNextPage", .bool true), ("hasPreviousPage", .bool false)])])])]

theorem paged_built : (pagedDraft.build sampleBundle).result = .ok (pagedDraft.built sampleBundle) :=
  OperationDraft.build_eq_built (by decide +kernel)

/-- Only the title is spread. -/
theorem paged_fragment {fragment : Fragment} (h : fragment ∈ Step.fragmentsOfAll pagedDraft.program) :
    fragment = sampleFragment := by
  simpa [pagedDraft, OperationDraft.ofProgram, Step.fragmentsOfAll, Step.fragments] using h

theorem paged_guidedOver :
    ∀ fragment ∈ Step.fragmentsOfAll pagedDraft.program, fragment.GuidedOver sampleBundle := by
  intro fragment hf
  obtain rfl := paged_fragment hf
  exact sampleFragment_guidedOver

theorem paged_guided : (pagedDraft.built sampleBundle).Guided sampleBundle [sampleFragment] := by
  exact ⟨sampleFragment_defines, pagedDraft, by rfl,
    fun _ hf => List.mem_singleton.2 (paged_fragment hf), paged_built⟩

/-- The query for the next page of products fetches the shop. -/
def pagedRequested : Bool :=
  match (Decoded.object (pagedDecoder.decode pagedData)).at? [.key "shop", .key "products"],
    pagedDecoder.dataAt? pagedData [.key "shop"] with
  | some (.connection _ _ (some mark)), some (.obj _) =>
    match mark.usableAnchor?, mark.nextPage with
    | some anchor, .ok _ => decide (anchor.typeName = "Shop" ∧
        anchor.set.typeName = anchor.typeName ∧ mark.path.drop anchor.depth = ["products"])
    | _, _ => false
  | _, _ => false

theorem paged_again :
    ∃ nodes info mark next entries nodes' mark',
      (Decoded.object (pagedDecoder.decode pagedData)).at? [.key "shop", .key "products"] =
        some (.connection nodes info (some mark)) ∧
      pagedDecoder.dataAt? pagedData [.key "shop"] = some (.obj entries) ∧
      mark.nextPage = .ok next ∧
      ((pagedDecoder.forNext next).decode (.obj [(nodeFieldName,
        .obj (Keyed.insert typenameField (.str "Shop") entries))])).drill next.path =
          some (.connection nodes' info mark') ∧
      nodes'.map Model.bare = nodes.map Model.bare := by
  have h : pagedRequested = true := by decide +kernel
  unfold pagedRequested at h
  split at h
  · rename_i nodes info mark entries hc hentries
    split at h
    · rename_i anchor next hanchor hnext
      obtain ⟨hname, hset, hkeys⟩ := of_decide_eq_true h
      have hreplays : mark.Replays pagedDecoder pagedData [.key "shop"] (mark.path.drop anchor.depth) _ :=
        .anchor hanchor hentries rfl rfl (by rw [hname]; decide)
      rw [hkeys, hname] at hreplays
      have hagrees : pagedDecoder.Agrees (.object (pagedDecoder.decode pagedData)) :=
        Decoder.agrees_of_agreesOn (by decide +kernel)
      have hconforms : ∀ anchor' key, mark.usableAnchor? = some anchor' →
          ["products"].head? = some key → anchor'.Conforms pagedDecoder.bundle key := by
        intro anchor' key ha _
        obtain rfl := Option.some.inj (hanchor.symm.trans ha)
        exact NodeAnchor.conforms_of_eq hset
      obtain ⟨nodes', mark', hdrill, hbare⟩ := @Decoder.drill_nextPage pagedDecoder _ _ pagedData _ _
        _ _ _ _ _ sampleBundle_build paged_guided (by decide +kernel) hagrees hreplays hconforms hc
        hnext
      exact ⟨nodes, info, mark, next, entries, nodes', mark', hc, hentries, hnext, hdrill, hbare⟩
    · cases h
  · cases h

/-- A type whose field `sub` can be fewer objects than the interface says that it implements. -/
def narrowingBundle : Bundle :=
  let field (name typeName : String) := FieldDescriptor.mk name (.named typeName) []
  let object (name : String) (node : Bool) (fields : List FieldDescriptor) :=
    TypeDescriptor.mk name .object fields [] node []
  let interface (name : String) (fields : List FieldDescriptor) (types : List String) :=
    TypeDescriptor.mk name .interface fields types false []
  let items := FieldDescriptor.mk "items" (.named "Items") [("after", .named "String")]
  let query := object "Query" false
    [field "top" "Top", ⟨"node", .named "Node", [("id", .nonNull (.named "ID"))]⟩]
  ⟨query, none,
    ["ID", "String", "Boolean"].map (TypeDescriptor.ofKind · .scalar) ++
    [query, ⟨"Node", .interface, [field "id" "ID"], ["Page"], true, []⟩,
     interface "Top" [field "sub" "Wide"] ["Page"],
     object "Page" true [field "id" "ID", field "sub" "Narrow"],
     interface "Wide" [field "name" "String"] ["First", "Second"],
     interface "Narrow" [field "name" "String"] ["First"],
     interface "Listing" [items] ["First", "Second"],
     object "First" false [field "name" "String", items],
     object "Second" false [field "name" "String", items],
     object "Items" false [field "edges" "Edge", field "pageInfo" "PageInfo"],
     object "Edge" false [field "cursor" "String", field "node" "Item"],
     object "Item" false [field "name" "String"],
     object "PageInfo" false [field "hasNextPage" "Boolean", field "hasPreviousPage" "Boolean"]]⟩

def narrowingDraft : OperationDraft :=
  .ofProgram .query
    [.object "top" .none
      [.object "sub" .none
        [.fragmentOn "Listing" [.connection "items" .none [.field "name" .none]]]]]

abbrev narrowingDecoder : Decoder :=
  ⟨⟨narrowingBundle, narrowingDraft.built narrowingBundle, []⟩, none⟩

def narrowingData : Json :=
  .obj [("top", .obj [("__typename", .str "Page"), ("id", .str "p1"),
    ("sub", .obj [("__typename", .str "Second"), ("items", .obj
      [("edges", .arr [.obj [("cursor", .str "c1"), ("node", .obj [("name", .str "n1")])]]),
       ("pageInfo", .obj [("hasNextPage", .bool true), ("hasPreviousPage", .bool false)])])])])]

/-- The query for the next page fetches the object around the list, and the answer has no list. -/
def narrowedLoses : Bool :=
  match (Decoded.object (narrowingDecoder.decode narrowingData)).at?
      ([.key "top"] ++ ["sub", "items"].map .key),
    narrowingDecoder.dataAt? narrowingData [.key "top"] with
  | some (.connection _ _ (some mark)), some (.obj entries) =>
    match mark.usableAnchor?, mark.nextPage with
    | some anchor, .ok next => decide (anchor.typeName = "Page" ∧
        mark.path.drop anchor.depth = ["sub", "items"]) &&
        (((narrowingDecoder.forNext next).decode (.obj [(nodeFieldName,
          .obj (Keyed.insert typenameField (.str "Page") entries))])).drill next.path).isNone
    | _, _ => false
  | _, _ => false

/-- The second page of a list is not found where the object around it is no longer of its type. -/
theorem narrowed_page_lost :
    ∃ nodes info mark next answer,
      (⟨some "Query", none, narrowingBundle.types⟩ : BundleDraft).build =
        .ok narrowingDecoder.bundle ∧
      narrowingDecoder.source.operation.Guided narrowingDecoder.bundle [] ∧
      Selection.EverywhereAll Selection.Unaliased
        narrowingDecoder.source.operation.set.selections ∧
      narrowingDecoder.Agrees (.object (narrowingDecoder.decode narrowingData)) ∧
      mark.Replays narrowingDecoder narrowingData [.key "top"] ["sub", "items"] answer ∧
      (Decoded.object (narrowingDecoder.decode narrowingData)).at?
        ([.key "top"] ++ ["sub", "items"].map .key) = some (.connection nodes info (some mark)) ∧
      (⟨nodes, info, some mark⟩ : Connection).nextPage = .ok next ∧
      ((narrowingDecoder.forNext next).decode answer).drill next.path = none := by
  have hbuilt : (narrowingDraft.build narrowingBundle).result =
    .ok (narrowingDraft.built narrowingBundle) := OperationDraft.build_eq_built (by decide +kernel)
  have hguided : narrowingDecoder.source.operation.Guided narrowingDecoder.bundle [] := by
    refine ⟨.nil, narrowingDraft, by rfl, ?_, hbuilt⟩
    simp [narrowingDraft, OperationDraft.ofProgram, Step.fragmentsOfAll, Step.fragments]
  have h : narrowedLoses = true := by decide +kernel
  unfold narrowedLoses at h
  split at h
  · rename_i nodes info mark entries hc hentries
    split at h
    · rename_i anchor next hanchor hnext
      obtain ⟨hkeys, hnone⟩ := Bool.and_eq_true_iff.1 h
      obtain ⟨hname, hkeys⟩ := of_decide_eq_true hkeys
      have hreplays : mark.Replays narrowingDecoder narrowingData [.key "top"]
          (mark.path.drop anchor.depth) _ :=
        .anchor hanchor hentries rfl rfl (by rw [hname]; decide)
      rw [hkeys, hname] at hreplays
      exact ⟨nodes, info, mark, next, _, rfl, hguided, by decide +kernel,
        Decoder.agrees_of_agreesOn (by decide +kernel), hreplays, hc, hnext,
        Option.isNone_iff_eq_none.1 hnone⟩
    · cases h
  · cases h

end GraphQLClient
