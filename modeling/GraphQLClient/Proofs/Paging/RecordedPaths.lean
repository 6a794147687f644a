import GraphQLClient.Proofs.Paging.LeadingChains
import GraphQLClient.Proofs.Paging.Roots

set_option autoImplicit false

/-!
# Recorded paths

Decoding goes by the fields that apply to the type of an object, and puts the sets of one key together;
pruning goes by the fields in all fragments, and looks at each set alone. Even so each set that an object
is decoded with is found at the end of the keys recorded for it: a group of fields with one key consists
of single fields of the sets before.
-/

namespace GraphQLClient

namespace Selection

/-- A field with the key, whatever fragments it stands in, has the selections `below`; those of a
connection are the ones of its nodes. -/
inductive Hop (key : String) (selections : List Selection) : List Selection → Prop
  | object {field : Field} {typeName : String} {inner : List Selection}
      (opened : .composite field typeName inner ∈ openedAll selections)
      (answers : field.responseKey = key)
      (single : field.connection = false) :
      Hop key selections inner
  | nodes {field : Field} {typeName : String} {inner : List Selection} {nodes : SelectionSet}
      (opened : .composite field typeName inner ∈ openedAll selections)
      (answers : field.responseKey = key)
      (paged : field.connection = true)
      (shows : SelectionSet.nodeSet? ⟨typeName, inner⟩ = some nodes) :
      Hop key selections nodes.selections

/-- The keys lead from some selections to others, one field for each key. -/
inductive Route : List Selection → List String → List Selection → Prop
  | here (selections : List Selection) : Route selections [] selections
  | hop {selections between below : List Selection} {key : String} {keys : List String}
      (first : Hop key selections between) (further : Route between keys below) :
      Route selections (key :: keys) below

variable {selections between below : List Selection} {key cursor : String} {keys rest : List String}

theorem Hop.route (h : Hop key selections below) : Route selections [key] below :=
  .hop h (.here below)

theorem Route.snoc (h : Route selections keys between) (hop : Hop key between below) :
    Route selections (keys ++ [key]) below := by
  induction h with
  | here _ => exact hop.route
  | hop first _ ih => exact .hop first (ih hop)

/-! ## Routes are found by pruning -/

mutual
theorem pruneOne_of_opened {selection found : Selection} (hm : found ∈ opened selection)
    (h : ∃ kept, pruneOne cursor key rest found = some (kept, true)) :
    ∃ kept, pruneOne cursor key rest selection = some (kept, true) := by
  cases selection with
  | leaf field =>
    obtain rfl := List.mem_singleton.1 hm
    exact h
  | composite field typeName selections =>
    obtain rfl := List.mem_singleton.1 hm
    exact h
  | inlineFragment condition typeName selections =>
    rw [pruneOne, keptIfFound_eq_some (pruneEach_of_opened hm h)]
    exact ⟨_, rfl⟩
  | spread serial name condition typeName selections =>
    rw [pruneOne, keptIfFound_eq_some (pruneEach_of_opened hm h)]
    exact ⟨_, rfl⟩

/-- A field that leads along the keys does so inside all fragments around it. -/
theorem pruneEach_of_opened {selections : List Selection} {found : Selection}
    (hm : found ∈ openedAll selections)
    (h : ∃ kept, pruneOne cursor key rest found = some (kept, true)) :
    (pruneEach cursor key rest selections).any (·.2) = true := by
  cases selections with
  | nil => cases hm
  | cons selection others =>
    rw [pruneEach, List.any_append, Bool.or_eq_true]
    rcases List.mem_append.1 hm with hm | hm
    · obtain ⟨kept, hkept⟩ := pruneOne_of_opened hm h
      exact .inl (by rw [hkept]; rfl)
    · exact .inr (pruneEach_of_opened hm h)
end

section

variable {field : Field} {typeName next : String} {inner : List Selection}

theorem pruneOne_of_object (hk : field.responseKey = key) (hc : field.connection = false)
    (h : (pruneEach cursor next rest inner).any (·.2) = true) :
    ∃ kept, pruneOne cursor key (next :: rest) (.composite field typeName inner) =
      some (kept, true) := by
  rw [pruneOne_through typeName inner next rest hk hc, keptIfFound_eq_some h]
  exact ⟨_, rfl⟩

theorem pruneOne_of_nodes {nodes : SelectionSet} (hk : field.responseKey = key)
    (hc : field.connection = true) (hn : SelectionSet.nodeSet? ⟨typeName, inner⟩ = some nodes)
    (h : (pruneEach cursor next rest nodes.selections).any (·.2) = true) :
    ∃ kept, pruneOne cursor key (next :: rest) (.composite field typeName inner) =
      some (kept, true) := by
  rw [pruneOne_nodes typeName inner next rest hk hc, hn, Option.bind_some, keptIfFound_eq_some h]
  exact ⟨_, rfl⟩

end

theorem Route.leads (h : Route selections (key :: rest) below) :
    (pruneEach cursor key rest selections).any (·.2) = true := by
  induction rest generalizing key selections with
  | nil =>
    cases h with
    | hop first _ =>
      cases first with
      | object opened answers _ => exact pruneEach_of_opened opened ⟨_, pruneOne_end _ _ answers⟩
      | nodes opened answers _ _ => exact pruneEach_of_opened opened ⟨_, pruneOne_end _ _ answers⟩
  | cons next rest ih =>
    cases h with
    | hop first further =>
      cases first with
      | object opened answers single =>
        exact pruneEach_of_opened opened (pruneOne_of_object answers single (ih further))
      | nodes opened answers paged shows =>
        exact pruneEach_of_opened opened (pruneOne_of_nodes answers paged shows (ih further))

end Selection

theorem SelectionSet.prune_of_route {set : SelectionSet} {keys : List String} {cursor : String}
    {below : List Selection} (hk : keys ≠ []) (h : Selection.Route set.selections keys below) :
    ∃ kept, set.prune keys cursor = some kept := by
  cases keys with
  | nil => exact absurd rfl hk
  | cons key rest => exact ⟨_, Selection.keptIfFound_eq_some h.leads⟩

/-- A chain of the set answers the path, so that pruning to the path gives a set. -/
structure SelectionSet.Finds (set : SelectionSet) (path : List String) (cursor : String) : Prop where
  pruned : ∃ kept, set.prune path cursor = some kept
  answered : Selection.chains path set.selections ≠ []

theorem SelectionSet.finds_of_route {bundle : Bundle} {set : SelectionSet} {keys : List String}
    {cursor : String} {below : List Selection}
    (hf : Selection.EverywhereAll (Selection.Furnished bundle) set.selections) (hk : keys ≠ [])
    (h : Selection.Route set.selections keys below) : set.Finds keys cursor := by
  have hpruned : ∃ kept, set.prune keys cursor = some kept := prune_of_route hk h
  exact ⟨hpruned, (isSome_prune_of_furnished hf keys cursor).1 (Option.isSome_iff_exists.2 hpruned)⟩

/-! ## The fields of an object -/

namespace Selection

variable {key : String} {below : List Selection} {bundle : Bundle} {type : TypeDescriptor}

theorem openedAll_flatMap {α : Type} (f : α → List Selection) (items : List α) :
    openedAll (items.flatMap f) = items.flatMap fun item => openedAll (f item) := by
  induction items with
  | nil => rfl
  | cons item rest ih => rw [List.flatMap_cons, openedAll_append, ih, List.flatMap_cons]

theorem Hop.of_merged {parts : List Part} (h : Hop key (Part.merged parts).selections below) :
    ∃ part ∈ parts, Hop key part.set.selections below := by
  have hopened : ∀ found ∈ openedAll (Part.merged parts).selections,
      ∃ part ∈ parts, found ∈ openedAll part.set.selections := by
    intro found hm
    rw [Part.merged, openedAll_flatMap] at hm
    exact List.mem_flatMap.1 hm
  cases h with
  | object opened answers single =>
    obtain ⟨part, hp, hm⟩ := hopened _ opened
    exact ⟨part, hp, .object hm answers single⟩
  | nodes opened answers paged shows =>
    obtain ⟨part, hp, hm⟩ := hopened _ opened
    exact ⟨part, hp, .nodes hm answers paged shows⟩

mutual
theorem fieldsOn_subset_opened (selection : Selection) :
    fieldsOn bundle type selection ⊆ opened selection := by
  cases selection with
  | leaf field => exact List.Subset.refl _
  | composite field typeName selections => exact List.Subset.refl _
  | inlineFragment condition typeName selections =>
    rw [fieldsOn]
    split
    · exact fieldsOnAll_subset_openedAll selections
    · exact List.nil_subset _
  | spread serial name condition typeName selections =>
    rw [fieldsOn]
    split
    · exact fieldsOnAll_subset_openedAll selections
    · exact List.nil_subset _

theorem fieldsOnAll_subset_openedAll (selections : List Selection) :
    fieldsOnAll bundle type selections ⊆ openedAll selections := by
  cases selections with
  | nil => exact List.Subset.refl _
  | cons selection rest =>
    exact List.append_subset.2
      ⟨List.subset_append_of_subset_left _ (fieldsOn_subset_opened selection),
        List.subset_append_of_subset_right _ (fieldsOnAll_subset_openedAll rest)⟩
end

/-- In the shape that the builder gives it a connection shows nodes, of a type that the bundle knows. -/
theorem Furnished.shows {field : Field} {typeName : String} {inner : List Selection}
    (h : (Selection.composite field typeName inner).Furnished bundle) (hc : field.connection = true) :
    ∃ nodes nodeType, SelectionSet.nodeSet? ⟨typeName, inner⟩ = some nodes ∧
      bundle.get? nodes.typeName = some nodeType := by
  obtain ⟨child, edges, node, info, nodes, rfl, -, hconnects, rfl⟩ := h hc
  obtain ⟨-, declared, -, hget, -⟩ := hconnects.offersNode.1
  exact ⟨_, node, Decoder.nodeSet?_connectionSet child edges node info typeName nodes,
    Bundle.get?_self hget⟩

end Selection

/-- The selections that objects inside are decoded with are as `P` says. -/
def Shape.Inside (P : List Selection → Prop) : Shape → Prop
  | .raw => True
  | .object _ parts => parts ≠ [] ∧ ∀ part ∈ parts, P part.set.selections
  | .connection _ _ _ nodes => P nodes.set.selections

theorem Shape.Inside.mono {P Q : List Selection → Prop} {shape : Shape} (h : shape.Inside P)
    (hpq : ∀ selections, P selections → Q selections) : shape.Inside Q := by
  cases shape with
  | raw => trivial
  | object type parts => exact ⟨h.1, fun part hp => hpq _ (h.2 part hp)⟩
  | connection type parts nodeType nodes => exact hpq _ h

/-- A hop goes on from one of the sets that are put together. -/
theorem Shape.Inside.snoc {start : List Selection} {keys : List String} {key : String}
    {static : TypeDescriptor} {parts : List Part} {shape : Shape}
    (h : (Shape.object static parts).Inside (Selection.Route start keys))
    (hop : shape.Inside (Selection.Hop key (Part.merged parts).selections)) :
    shape.Inside (Selection.Route start (keys ++ [key])) := by
  refine hop.mono fun selections hop => ?_
  obtain ⟨part, hp, hop⟩ := hop.of_merged
  exact (h.2 part hp).snoc hop

theorem Shape.connection_of_ofCollected {bundle : Bundle} {collected : Collected}
    {type nodeType : TypeDescriptor} {parts : List Part} {nodes : Part}
    (h : ofCollected bundle collected = .connection type parts nodeType nodes) :
    collected.field.connection = true ∧ collected.parts ≠ [] := by
  obtain hraw | ⟨_, _, _, hparts, -, hobject | ⟨_, _, hc, -, -, -⟩⟩ := ofCollected_cases bundle collected
  · cases hraw.symm.trans h
  · cases hobject.symm.trans h
  · exact ⟨hc, hparts ▸ List.cons_ne_nil _ _⟩

namespace Collected

variable {bundle : Bundle} {type : TypeDescriptor} {parts : List Part} {name : String}
  {collected : Collected}

theorem exists_joined {selection : Selection} {field : Field}
    (hm : selection ∈ Selection.fieldsOnAll bundle type (Part.merged parts).selections)
    (hf : selection.field? = some field) :
    ∃ collected, joined ((fieldsOfParts bundle type parts).filter (·.key == field.responseKey)) =
      some collected := by
  rw [← selections_fieldsOfParts] at hm
  obtain ⟨found, hfound, rfl⟩ := List.mem_map.1 hm
  have hfield : found.selection.field? = some found.field := by
    unfold Collected.selection
    cases found.parts.head? <;> rfl
  obtain rfl := Option.some.inj (hfield.symm.trans hf)
  have hgroup : found ∈ (fieldsOfParts bundle type parts).filter (·.key == found.field.responseKey) :=
    List.mem_filter.2 ⟨hfound, beq_self_eq_true _⟩
  cases hg : (fieldsOfParts bundle type parts).filter (·.key == found.field.responseKey) with
  | nil =>
    rw [hg] at hgroup
    cases hgroup
  | cons first rest => exact ⟨_, rfl⟩

/-- Where the fields agree, each set of a group stands under a field of the key, and all of these are
connections or none is. -/
theorem field_of_mem
    (ha : Selection.Agree (Selection.fieldsOnAll bundle type (Part.merged parts).selections))
    (hj : joined ((fieldsOfParts bundle type parts).filter (·.key == name)) = some collected)
    {part : Part} (hp : part ∈ collected.parts) :
    ∃ field : Field, field.responseKey = name ∧ field.connection = collected.field.connection ∧
      Selection.composite field part.set.typeName part.set.selections ∈
        Selection.fieldsOnAll bundle type (Part.merged parts).selections := by
  obtain hnil | ⟨field, rest, hleaf⟩ | ⟨pair, pairs, hpairs, hsame⟩ := group_cases name ha
  · rw [hnil] at hj
    cases hj
  · rw [hleaf, joined_leaf rest rfl] at hj
    obtain rfl := Option.some.inj hj
    cases hp
  · rw [hpairs, joined_ofPair] at hj
    obtain rfl := Option.some.inj hj
    have hm := kept_subset _ _ part hp
    rw [← List.map_cons (f := Prod.snd)] at hm
    obtain ⟨other, ho, rfl⟩ := List.mem_map.1 hm
    have hfield := List.mem_map_of_mem (f := ofPair) ho
    rw [← hpairs] at hfield
    obtain ⟨hfield, hkey⟩ := List.mem_filter.1 hfield
    exact ⟨other.1, beq_iff_eq.1 hkey, (hsame other ho).1, mem_fieldsOn hfield⟩

/-- Where the fields of an object agree, each set inside a value is one hop away. -/
theorem inside_hop
    (ha : Selection.Agree (Selection.fieldsOnAll bundle type (Part.merged parts).selections))
    (hf : Selection.EverywhereAll (Selection.Furnished bundle) (Part.merged parts).selections)
    (hj : joined ((fieldsOfParts bundle type parts).filter (·.key == name)) = some collected) :
    (Shape.ofCollected bundle collected).Inside
      (Selection.Hop name (Part.merged parts).selections) := by
  have hopened : ∀ part ∈ collected.parts, ∃ field : Field, field.responseKey = name ∧
      field.connection = collected.field.connection ∧
      (Selection.composite field part.set.typeName part.set.selections).Furnished bundle ∧
      Selection.composite field part.set.typeName part.set.selections ∈
        Selection.openedAll (Part.merged parts).selections := by
    intro part hp
    obtain ⟨field, hkey, hc, hm⟩ := field_of_mem ha hj hp
    have hself := Selection.everywhereAll_iff.1 (Selection.everywhere_fieldsOnAll hf) _ hm
    exact ⟨field, hkey, hc, hself.self, Selection.fieldsOnAll_subset_openedAll _ hm⟩
  obtain ⟨field, found⟩ := collected
  cases found with
  | nil => trivial
  | cons first more =>
    cases ht : bundle.get? first.set.typeName with
    | none =>
      simp only [Shape.ofCollected, ht]
      trivial
    | some below =>
      by_cases hc : field.connection = true
      · -- Every connection has its shape, so the nodes are those of the first set.
        obtain ⟨f, hkey, hfc, hfurnished, hm⟩ := hopened first List.mem_cons_self
        have hpaged : f.connection = true := hfc.trans hc
        obtain ⟨nodes, nodeType, hshows, hnode⟩ := hfurnished.shows hpaged
        obtain ⟨origin, hnodes⟩ := Part.nodes?_cons more hshows
        simp only [Shape.ofCollected, ht, hc, hnodes, hnode, if_true]
        exact .nodes hm hkey hpaged hshows
      · simp only [Shape.ofCollected, ht, hc, Bool.false_eq_true, if_false]
        refine ⟨List.cons_ne_nil _ _, fun part hp => ?_⟩
        obtain ⟨f, hkey, hfc, -, hm⟩ := hopened part hp
        exact .object hm hkey (hfc.trans (by simpa using hc))

end Collected

/-! ## Places with their paths -/

/-- The keys that are recorded at a place lead to the sets inside it, from the root and from the anchor. -/
structure Spot.Recorded (operation : Operation) (spot : Spot) : Prop where
  root : spot.shape.Inside (Selection.Route operation.set.selections spot.position.path)
  anchor : ∀ anchor, spot.position.anchor = some anchor →
    anchor.depth < spot.position.path.length ∧
      spot.shape.Inside (Selection.Route anchor.set.selections (spot.position.path.drop anchor.depth))
  below : spot.position.path = [] → spot.mark = none ∧ ∃ type parts, spot.shape = .object type parts
  single : ∀ type parts nodeType nodes items,
    spot.shape = .connection type parts nodeType nodes → spot.json ≠ .arr items

/-- No connection among the fields is answered with a list. -/
def Selection.Unlisted (fields : List Selection) (entries : List (String × Json)) : Prop :=
  ∀ selection ∈ fields, ∀ field, selection.field? = some field → field.connection = true →
    ∀ items, Keyed.find? field.responseKey entries ≠ some (.arr items)

namespace Decoder

variable {decoder : Decoder} {operation : Operation} {data : Json} {address : List Move}
  {spot next last : Spot}

/-- Of an object that is decoded here the fields agree, and no connection is a list. -/
def Regular (decoder : Decoder) (spot : Spot) : Prop :=
  ∀ static parts entries, spot.shape = .object static parts → spot.json = .obj entries →
    let fields := Selection.fieldsOnAll decoder.bundle (decoder.concreteType static entries)
      (Part.merged parts).selections
    Selection.Agree fields ∧ Selection.Unlisted fields entries

theorem recorded_root (data : Json) : (decoder.root data).Recorded decoder.source.operation where
  root := ⟨List.cons_ne_nil _ _, fun part hp => by
    obtain rfl := List.mem_singleton.1 hp
    exact .here _⟩
  anchor _ ha := nomatch ha
  below _ := ⟨rfl, _, _, rfl⟩
  single _ _ _ _ _ hs := nomatch hs

theorem recorded_child {static : TypeDescriptor} {parts : List Part} {entries : List (String × Json)}
    {name : String} {collected : Collected} {json : Json} (h : spot.Recorded operation)
    (he : spot.Each (Throughout (Selection.Furnished decoder.bundle)) decoder)
    (hr : decoder.Regular spot) (hshape : spot.shape = .object static parts)
    (hjson : spot.json = .obj entries)
    (hj : Collected.joined ((Collected.fieldsOfParts decoder.bundle
      (decoder.concreteType static entries) parts).filter (·.key == name)) = some collected)
    (hk : Keyed.find? name entries = some json) :
    Spot.Recorded operation ⟨.ofCollected decoder.bundle collected,
      (enter spot.position (decoder.concreteType static entries) (Part.merged parts) entries).child
        name, none, json⟩ := by
  obtain ⟨hagree, hunlisted⟩ := hr static parts entries hshape hjson
  have hfurnished := he.shape
  rw [hshape] at hfurnished
  have hhop := Collected.inside_hop hagree hfurnished hj
  have hroute : ∀ start keys, spot.shape.Inside (Selection.Route start keys) →
      (Shape.ofCollected decoder.bundle collected).Inside (Selection.Route start (keys ++ [name])) :=
    fun start keys hinside => Shape.Inside.snoc (hshape ▸ hinside) hhop
  have hpath := path_enter_child spot.position (decoder.concreteType static entries)
    (Part.merged parts) entries name
  refine ⟨?_, fun anchor ha => ?_, fun hnil => ?_, ?_⟩
  · rw [hpath]
    exact hroute _ _ h.root
  · rw [hpath, List.length_append]
    change (enter spot.position _ (Part.merged parts) entries).anchor = some anchor at ha
    rcases (enter_cases spot.position (decoder.concreteType static entries) (Part.merged parts)
      entries).2 with hold | ⟨id, -, -, hnew⟩
    · obtain ⟨hdepth, hinside⟩ := h.anchor anchor (hold.symm.trans ha)
      rw [List.drop_append_of_le_length hdepth.le]
      exact ⟨by omega, hroute _ _ hinside⟩
    · -- The object itself is the anchor, and the key is all that is left.
      obtain rfl := Option.some.inj (hnew.symm.trans ha)
      rw [List.drop_left]
      exact ⟨Nat.lt_succ_self _, hhop.mono fun _ hop => hop.route⟩
  · rw [hpath] at hnil
    exact absurd hnil (List.append_ne_nil_of_right_ne_nil _ (List.cons_ne_nil _ _))
  · rintro type found nodeType nodes items hconnection rfl
    obtain ⟨hc, hne⟩ := Shape.connection_of_ofCollected hconnection
    obtain ⟨part, hp⟩ := List.exists_mem_of_ne_nil _ hne
    obtain ⟨field, rfl, hfield, hm⟩ := Collected.field_of_mem hagree hj hp
    exact hunlisted _ hm field rfl (hfield.trans hc) items hk

theorem step?_recorded {move : Move} (h : spot.Recorded operation)
    (he : spot.Each (Throughout (Selection.Furnished decoder.bundle)) decoder)
    (hr : decoder.Regular spot) (hs : decoder.step? spot move = some next) :
    next.Recorded operation := by
  cases steps_of_step? hs with
  | field hj hk => exact recorded_child h he hr rfl rfl hj hk
  | @node type nodeType parts nodes position mark entries index found _ =>
    have hnodes : ∀ start keys,
        (Shape.connection type parts nodeType nodes).Inside (Selection.Route start keys) →
          (Shape.object nodeType [nodes]).Inside (Selection.Route start keys) :=
      fun start keys hinside => ⟨List.cons_ne_nil _ _, fun part hp => by
        obtain rfl := List.mem_singleton.1 hp
        exact hinside⟩
    refine ⟨hnodes _ _ h.root, fun anchor ha => ?_, fun hnil => ?_, fun _ _ _ _ _ hs => nomatch hs⟩
    · obtain ⟨hdepth, hinside⟩ := h.anchor anchor ha
      exact ⟨hdepth, hnodes _ _ hinside⟩
    · obtain ⟨-, _, _, hobject⟩ := h.below hnil
      cases hobject
  | object _ => exact ⟨h.root, h.anchor, fun _ => ⟨rfl, _, _, rfl⟩, fun _ _ _ _ _ hs => nomatch hs⟩
  -- In a list of connections edges and nodes would be keys of the path.
  | @connection type nodeType parts nodes position mark items index json _ =>
    exact absurd rfl (h.single type parts nodeType nodes items rfl)

/-- Along an address through regular places the recorded path leads to what is decoded with. -/
theorem follow?_recorded (h : spot.Recorded operation)
    (he : spot.Each (Throughout (Selection.Furnished decoder.bundle)) decoder)
    (hr : ∀ before between, decoder.follow? spot before = some between → decoder.Regular between)
    (hs : decoder.follow? spot address = some last) : last.Recorded operation := by
  induction address generalizing spot with
  | nil => exact Option.some.inj hs ▸ h
  | cons move rest ih =>
    obtain ⟨after, hb, hs⟩ := Option.bind_eq_some_iff.1 hs
    refine ih (step?_recorded h he (hr [] spot rfl) hb)
      (step?_each he (passes_throughout _ spot) hb) (fun before between hf => ?_) hs
    refine hr (move :: before) between ?_
    rw [follow?, hb]
    exact hf

/-- No connection field of a decoded object has a list for its value in the response. -/
def Unlisted (decoder : Decoder) (data : Json) : Prop :=
  ∀ address model entries,
    (Decoded.object (decoder.decode data)).at? address = some (.object model) →
    decoder.dataAt? data address = some (.obj entries) →
    Selection.Unlisted (Selection.fieldsOnAll decoder.bundle model.type model.head.set.selections) entries

theorem regular_of_follow? (ha : decoder.Agrees (.object (decoder.decode data)))
    (hu : decoder.Unlisted data) (hs : decoder.follow? (decoder.root data) address = some spot) :
    decoder.Regular spot := by
  intro static parts entries hshape hjson
  have hat : (Decoded.object (decoder.decode data)).at? address =
      some (.object (decoder.object static parts spot.mark spot.position entries)) := by
    rw [at?_decode, hs, Option.map_some, read, hshape, hjson]
  have hdata : decoder.dataAt? data address = some (.obj entries) := by
    rw [dataAt?, hs, Option.map_some, hjson]
  exact ⟨ha address _ hat, hu address _ entries hat hdata⟩

/-- A place with a mark lies below the root and has something inside. -/
theorem inside_of_mark? {mark : PageMark} (h : spot.Recorded operation)
    (hm : (decoder.read spot).mark? = some mark) :
    spot.position.path ≠ [] ∧ ∀ P, spot.shape.Inside P → ∃ selections, P selections := by
  cases hread : decoder.read spot with
  | connection nodes info found =>
    obtain ⟨_, _, _, part, _, hshape, -⟩ := of_read_eq_connection hread
    refine ⟨fun hnil => ?_, fun P hinside => ?_⟩
    · obtain ⟨-, _, _, hobject⟩ := h.below hnil
      rw [hshape] at hobject
      cases hobject
    · rw [hshape] at hinside
      exact ⟨_, hinside⟩
  | object model =>
    obtain ⟨static, parts, entries, hshape, -, rfl⟩ := of_read_eq_object hread
    rw [hread] at hm
    refine ⟨fun hnil => ?_, fun P hinside => ?_⟩
    · have hmark : spot.mark = some mark := hm
      rw [(h.below hnil).1] at hmark
      cases hmark
    · rw [hshape] at hinside
      obtain ⟨part, hp⟩ := List.exists_mem_of_ne_nil _ hinside.1
      exact ⟨_, hinside.2 part hp⟩
  | _ => rw [hread] at hm; cases hm

theorem finds_of_recorded {mark : PageMark} (h : spot.Recorded operation)
    (hf : Selection.EverywhereAll (Selection.Furnished decoder.bundle) operation.set.selections)
    (he : spot.Each (Throughout (Selection.Furnished decoder.bundle)) decoder)
    (hm : (decoder.read spot).mark? = some mark) :
    operation.set.Finds mark.path mark.cursor ∧ ∀ anchor, mark.anchor = some anchor →
      anchor.set.Finds (mark.path.drop anchor.depth) mark.cursor := by
  obtain ⟨hpath, hanchor, -⟩ := mark?_read he hm
  obtain ⟨hbelow, hholds⟩ := inside_of_mark? h hm
  rw [hpath, hanchor]
  refine ⟨?_, fun anchor ha => ?_⟩
  · obtain ⟨selections, hroute⟩ := hholds _ h.root
    exact SelectionSet.finds_of_route hf hbelow hroute
  · obtain ⟨hdepth, hinside⟩ := h.anchor anchor ha
    obtain ⟨selections, hroute⟩ := hholds _ hinside
    obtain ⟨-, static, parts, entries, hfurnished, -, -, -, hset⟩ := he.anchor anchor ha
    rw [Throughout, ← hset] at hfurnished
    refine SelectionSet.finds_of_route hfurnished (fun hnil => ?_) hroute
    have hlength := List.drop_eq_nil_iff.1 hnil
    omega

end Decoder

theorem FollowUp.ofDraft_ne_pathNotFound (source : Source) (draft : OperationDraft)
    (path keys : List String) : ofDraft source draft path ≠ .error (.pathNotFound keys) := by
  unfold ofDraft
  split
  · exact fun h => nomatch h
  · exact fun h => nomatch h

theorem PageMark.nextPage_ne_pathNotFound {mark : PageMark}
    (hroot : ∃ kept, mark.source.operation.set.prune mark.path mark.cursor = some kept)
    (hanchor : ∀ anchor, mark.anchor = some anchor →
      ∃ kept, anchor.set.prune (mark.path.drop anchor.depth) mark.cursor = some kept)
    (keys : List String) : mark.nextPage ≠ .error (.pathNotFound keys) := by
  cases hu : mark.usableAnchor? with
  | some anchor =>
    obtain ⟨kept, hk⟩ := hanchor anchor (Option.filter_eq_some_iff.1 hu).1
    rw [nextPage_eq_fetch hu hk]
    exact FollowUp.ofDraft_ne_pathNotFound _ _ _ _
  | none =>
    obtain ⟨kept, hk⟩ := hroot
    simp only [nextPage, hu, hk]
    exact FollowUp.ofDraft_ne_pathNotFound _ _ _ _

namespace Decoder

variable {decoder : Decoder} {program : OperationDraft} {data : Json} {address : List Move}

/-- For an operation without raw selections in which the fields of every object agree, decoded from a
response in which no connection is a list: the path in a mark is found in the operation, and in the set
of the anchor behind the keys that lead there, as a chain answers it, so that no next page fails for a
path. -/
theorem prune_recorded
    (hf : ∀ fragment ∈ Step.fragmentsOfAll program.program, fragment.GuidedOver decoder.bundle)
    (hg : Step.allGuided program.program = true)
    (ho : (program.build decoder.bundle).result = .ok decoder.source.operation)
    (ha : decoder.Agrees (.object (decoder.decode data))) (hu : decoder.Unlisted data)
    {decoded : Decoded} (hat : (Decoded.object (decoder.decode data)).at? address = some decoded) :
    (∀ mark, decoded.mark? = some mark →
      decoder.source.operation.set.Finds mark.path mark.cursor ∧
      ∀ anchor, mark.anchor = some anchor →
        anchor.set.Finds (mark.path.drop anchor.depth) mark.cursor) ∧
    ∀ keys, decoded.nextPage? ≠ some (.error (.pathNotFound keys)) := by
  have hfurnished := (Selection.given_furnished _).everywhere_of_build hf hg ho
  rw [at?_decode] at hat
  obtain ⟨spot, hspot, rfl⟩ := Option.map_eq_some_iff.1 hat
  have he := follow?_throughout hfurnished hspot
  have hroot : decoder.follow? (decoder.root data) [] = some (decoder.root data) := rfl
  have hrecorded : spot.Recorded decoder.source.operation :=
    follow?_recorded (recorded_root data) (follow?_throughout hfurnished hroot)
      (fun _ _ hs => regular_of_follow? ha hu hs) hspot
  refine ⟨fun mark hm => finds_of_recorded hrecorded hfurnished he hm, fun keys hnext => ?_⟩
  obtain ⟨mark, hm, hnext⟩ | hnone | ⟨name, hnone⟩ := Decoded.nextPage?_eq_some hnext
  · obtain ⟨-, -, hsource⟩ := mark?_read he hm
    obtain ⟨hroot, hanchor⟩ := finds_of_recorded hrecorded hfurnished he hm
    rw [← hsource] at hroot
    exact PageMark.nextPage_ne_pathNotFound hroot.pruned (fun anchor ha => (hanchor anchor ha).pruned)
      keys hnext
  · cases hnone
  · cases hnone

/-- Whether connections are lists can be found out by looking at the models one after the other. -/
def unlistedOn (decoder : Decoder) (decoded : Decoded) : Bool :=
  decoded.models.all fun model =>
    (Selection.fieldsOnAll decoder.bundle model.type model.head.set.selections).all fun selection =>
      selection.field?.all fun field =>
        !field.connection || match model.get? field.responseKey with
          | some (.list _) => false
          | some (.scalar (.arr _)) => false
          | _ => true

theorem value_arr (decoder : Decoder) (shape : Shape) (position : Position) (items : List Json) :
    (∃ found, decoder.value shape position (.arr items) = .list found) ∨
      decoder.value shape position (.arr items) = .scalar (.arr items) := by
  cases shape with
  | raw => exact .inr rfl
  | object type parts => exact .inl ⟨_, rfl⟩
  | connection type parts nodeType nodes => exact .inl ⟨_, rfl⟩

theorem unlisted_of_unlistedOn
    (h : decoder.unlistedOn (.object (decoder.decode data)) = true) : decoder.Unlisted data := by
  intro address model entries hat hdata selection hs field hf hc items hk
  have hmodel := List.all_eq_true.1 h model (Decoded.mem_models_of_at? hat)
  have hcheck := List.all_eq_true.1 hmodel selection hs
  rw [hf, Option.all_some, hc, Bool.not_true, Bool.false_or] at hcheck
  rw [at?_decode] at hat
  obtain ⟨spot, hspot, hread⟩ := Option.map_eq_some_iff.1 hat
  obtain ⟨static, parts, found, hshape, hjson, rfl⟩ := of_read_eq_object hread
  rw [dataAt?, hspot, Option.map_some, hjson] at hdata
  obtain rfl := Json.obj.inj (Option.some.inj hdata)
  change selection ∈ Selection.fieldsOnAll decoder.bundle (decoder.concreteType static found)
    (Part.merged parts).selections at hs
  obtain ⟨collected, hj⟩ := Collected.exists_joined hs hf
  rw [get?_object, hj, Option.bind_some, hk, Option.map_some] at hcheck
  obtain ⟨list, hvalue⟩ | hvalue := value_arr decoder
    (.ofCollected decoder.bundle collected) ((enter spot.position (decoder.concreteType static found)
      (Part.merged parts) found).child field.responseKey) items
  · rw [hvalue] at hcheck
    cases hcheck
  · rw [hvalue] at hcheck
    cases hcheck

end Decoder

/-- The list of products has a next page, and the shop around it an id. -/
def pagedRecorded : Bool :=
  match (Decoded.object (pagedDecoder.decode pagedData)).at? [.key "shop", .key "products"] with
  | some (.connection _ _ (some mark)) => mark.anchor.isSome
  | _ => false

theorem paged_path_found :
    ∃ nodes info mark anchor,
      (Decoded.object (pagedDecoder.decode pagedData)).at? [.key "shop", .key "products"] =
        some (.connection nodes info (some mark)) ∧
      mark.anchor = some anchor ∧
      (∃ kept, pagedDecoder.source.operation.set.prune mark.path mark.cursor = some kept) ∧
      Selection.chains mark.path pagedDecoder.source.operation.set.selections ≠ [] ∧
      (∃ kept, anchor.set.prune (mark.path.drop anchor.depth) mark.cursor = some kept) ∧
      Selection.chains (mark.path.drop anchor.depth) anchor.set.selections ≠ [] ∧
      ∀ keys, mark.nextPage ≠ .error (.pathNotFound keys) := by
  have h : pagedRecorded = true := by decide +kernel
  unfold pagedRecorded at h
  split at h
  · rename_i nodes info mark hc
    obtain ⟨anchor, hanchor⟩ := Option.isSome_iff_exists.1 h
    have hagrees : pagedDecoder.Agrees (.object (pagedDecoder.decode pagedData)) :=
      Decoder.agrees_of_agreesOn (by decide +kernel)
    have hunlisted : pagedDecoder.Unlisted pagedData :=
      Decoder.unlisted_of_unlistedOn (by decide +kernel)
    obtain ⟨hfinds, hfound⟩ := @Decoder.prune_recorded pagedDecoder pagedDraft pagedData _
      paged_guidedOver (by rfl) paged_built hagrees hunlisted _ hc
    obtain ⟨hroot, hanchored⟩ := hfinds mark rfl
    obtain ⟨hkept, hchains⟩ := hanchored anchor hanchor
    exact ⟨nodes, info, mark, anchor, hc, hanchor, hroot.pruned, hroot.answered, hkept, hchains,
      fun keys hnext => hfound keys (congrArg some hnext)⟩
  · cases h

end GraphQLClient
