import GraphQLClient.Proofs.Paging.Lone
import GraphQLClient.Proofs.Paging.Replays
import GraphQLClient.Proofs.Paging.Requests

set_option autoImplicit false

/-!
# Answers along lanes

Data that lead along the keys of a lane are decoded to a connection at its end, with the nodes of the
lane. Its mark has a lane again: from the nearest object with an id on the way, or from where the way
starts.
-/

namespace GraphQLClient

/-- The keys lead through objects from the entries of the first to those of the last. -/
def Json.Leads : List String → List (String × Json) → List (String × Json) → Prop
  | [], entries, found => entries = found
  | key :: keys, entries, found =>
    ∃ inner, Keyed.find? key entries = some (.obj inner) ∧ Json.Leads keys inner found

namespace Selection

/-- One field is taken for the key. It is the connection itself, or the other keys lead on below it. -/
def LeadsOn (scope : Scope) (nodes : SelectionSet) (key : String) (keys : List String)
    (selections : List Selection) : Prop :=
  ∃ field below inner,
    taken scope.bundle ⟨scope.type, key, ""⟩ selections = [.composite field below.name inner] ∧
    scope.bundle.get? below.name = some below ∧
    ((keys = [] ∧ connectionNodeSet? (.composite field below.name inner) = some nodes) ∨
      (keys ≠ [] ∧ field.connection = false ∧ below.kind = .object ∧
        Paved (scope.within below) nodes keys inner))

theorem Lane.leadsOn {scope : Scope} {nodes : SelectionSet} {type : TypeDescriptor} {key : String}
    {path keys : List String} {selections : List Selection}
    (h : Lane scope.bundle nodes type path selections) (ht : scope.type = type)
    (hv : KeptValidOn scope path selections) (hpath : path = key :: keys) :
    LeadsOn scope nodes key keys selections := by
  induction h with
  | @connection type field typeName front inner back beside unaliased shows pages =>
    obtain ⟨rfl, rfl⟩ := List.cons.inj hpath
    have hvalid := hv _ (List.mem_append_right _ List.mem_cons_self)
      (remains_composite _ _ _ _)
    unfold ValidOn at hvalid
    obtain ⟨below, ⟨⟨-, declared, -, hget, -⟩, -⟩, hp, -⟩ := hvalid
    obtain rfl : typeName = below.name := hp.1
    refine ⟨field, below, inner, ?_, Bundle.get?_self hget, .inl ⟨rfl, shows⟩⟩
    rw [taken_beside beside, taken_composite _ _ rfl]
  | @object type below field key' keys' front inner back beside unaliased single known object further _ =>
    obtain ⟨rfl, rfl⟩ := List.cons.inj hpath
    have hvalid := hv _ (List.mem_append_right _ List.mem_cons_self)
      (remains_composite _ _ _ _)
    obtain ⟨-, hp, hi⟩ := hvalid.of_composite known
    refine ⟨field, below, inner, ?_, known,
      .inr ⟨List.cons_ne_nil _ _, single, object, further, keptValidOn_of_allValidOn hi _, hp.2.2⟩⟩
    rw [taken_beside beside, taken_composite _ _ rfl]
  | @fragment type key' typeName keys' front inner back beside known further ih =>
    obtain ⟨rfl, rfl⟩ := List.cons.inj hpath
    subst ht
    have hvalid := hv _ (List.mem_append_right _ List.mem_cons_self)
      (remains_inlineFragment _ _ _ _)
    obtain ⟨-, -, hi⟩ := hvalid.of_inlineFragment known
    obtain ⟨field, below, found, htaken, hrest⟩ := ih rfl (keptValidOn_of_allValidOn hi _) rfl
    refine ⟨field, below, found, ?_, hrest⟩
    rw [taken_beside beside, taken_inlineFragment, if_pos (by simp [Collected.applies]), htaken]

/-- One key of a lane has one field. -/
theorem Paved.taken {scope : Scope} {nodes : SelectionSet} {key : String} {keys : List String}
    {selections : List Selection} (h : Paved scope nodes (key :: keys) selections) :
    LeadsOn scope nodes key keys selections :=
  h.lane.leadsOn rfl h.valid rfl

end Selection

namespace Decoder

variable {decoder : Decoder} {spot : Spot} {static : TypeDescriptor} {part : Part}
  {entries found : List (String × Json)}

/-- A key for which one field is taken leads to what is read by that field. -/
theorem step?_taken {leg : Leg} {field : Field} {typeName : String} {inner : List Selection}
    {json : Json} (hs : spot.shape = .object static [part]) (hj : spot.json = .obj entries)
    (ht : leg.type = decoder.concreteType static entries)
    (htaken : Selection.taken decoder.bundle leg part.set.selections =
      [.composite field typeName inner])
    (hk : Keyed.find? leg.key entries = some json) :
    ∃ below, below.set = ⟨typeName, inner⟩ ∧ decoder.step? spot (.key leg.key) =
      some ⟨.ofCollected decoder.bundle ⟨field, [below]⟩,
        (enter spot.position leg.type (Part.merged [part]) entries).child leg.key, none, json⟩ := by
  have hmerged : (Part.merged [part]).selections = part.set.selections := List.append_nil _
  rw [← hmerged, Selection.taken_merged] at htaken
  obtain ⟨collected, others, hgroup, hcollected, hothers⟩ := List.map_eq_cons_iff.1 htaken
  obtain rfl := List.map_eq_nil_iff.1 hothers
  have hmem : collected ∈ Collected.fieldsOfParts decoder.bundle leg.type [part] := by
    have hfilter : collected ∈ (Collected.fieldsOfParts decoder.bundle leg.type [part]).filter
        (·.key == leg.key) := by
      rw [hgroup]
      exact List.mem_cons_self
    exact (List.mem_filter.1 hfilter).1
  obtain hnil | ⟨pair, rfl⟩ := Collected.parts_fieldsOfParts _ _ hmem
  · rw [Collected.selection, hnil] at hcollected
    cases hcollected
  · have hpair : Selection.composite pair.1 pair.2.set.typeName pair.2.set.selections =
      .composite field typeName inner := hcollected
    obtain ⟨rfl, rfl, rfl⟩ := Selection.composite.inj hpair
    refine ⟨pair.2, rfl, ?_⟩
    rw [step?_key hs hj, ← ht, hgroup, hk]
    rfl

theorem concreteType_of_object {type : TypeDescriptor} (h : type.kind = .object)
    (entries : List (String × Json)) : decoder.concreteType type entries = type := by
  have hconcrete : type.isAbstract = false := by
    simp [TypeDescriptor.isAbstract, TypeKind.isAbstract, h]
  rw [concreteType, hconcrete, if_neg Bool.false_ne_true]

theorem anchor_enter_of_id (position : Position) {type : TypeDescriptor} (set : SelectionSet)
    (hn : type.implementsNode = true) {id : String} (h : Keyed.find? "id" entries = some (.str id)) :
    (enter position type set entries).anchor = some ⟨id, type.name, set, position.path.length⟩ := by
  simp [enter, hn, h, Json.str?]

theorem at?_of_step? {next : Spot} {move : Move} (h : decoder.step? spot move = some next)
    (rest : List Move) :
    (decoder.read spot).at? (move :: rest) = (decoder.read next).at? rest := by
  rw [at?_read, at?_read, follow?, h, Option.bind_some]

/-- An object with an id is an anchor with a lane if the way below it is one. -/
theorem paved_enter {scope : Scope} {nodes : SelectionSet} {keys path : List String}
    (hp : Selection.Paved scope nodes keys part.set.selections) (position : Position)
    (hk : scope.bundle.get? scope.type.name = some scope.type)
    (hpath : path = position.path ++ keys) {anchor : NodeAnchor}
    (hn : scope.type.implementsNode = true) {id : String}
    (ha : anchor = ⟨id, scope.type.name, Part.merged [part], position.path.length⟩) :
    anchor.Paved scope.bundle scope.declarations nodes path := by
  have hmerged : (Part.merged [part]).selections = part.set.selections := List.append_nil _
  subst ha hpath
  refine ⟨scope.type, hk, hn, ?_⟩
  rw [List.drop_left, hmerged]
  exact hp

/-- Where an object stands at the start of a lane, data along its keys lead to a connection with the
nodes of the lane. The anchor there is that of the start, or it has a lane of its own. -/
theorem follow?_lane {scope : Scope} {nodes : SelectionSet} {nodeType : TypeDescriptor}
    {keys : List String} (hb : scope.bundle = decoder.bundle) (hs : spot.shape = .object static [part])
    (hj : spot.json = .obj entries) (ht : decoder.concreteType static entries = scope.type)
    (hp : Selection.Paved scope nodes keys part.set.selections)
    (hn : decoder.bundle.get? nodes.typeName = some nodeType) (hl : Json.Leads keys entries found) :
    ∃ last, decoder.follow? spot (keys.map .key) = some last ∧ last.json = .obj found ∧
      (∃ type parts nodePart, last.shape = .connection type parts nodeType nodePart ∧
        nodePart.set = nodes) ∧
      last.position.path = spot.position.path ++ keys ∧
      (last.position.anchor =
          (enter spot.position scope.type (Part.merged [part]) entries).anchor ∨
        ∃ anchor, last.position.anchor = some anchor ∧
          anchor.Paved scope.bundle scope.declarations nodes last.position.path) := by
  induction keys generalizing spot static part entries scope with
  | nil => exact absurd rfl hp.keys_ne_nil
  | cons key keys ih =>
    obtain ⟨inner, hk, hl⟩ := hl
    obtain ⟨field, below, selections, htaken, hknown, hcases⟩ := hp.taken
    rw [hb] at htaken hknown
    obtain ⟨belowPart, hset, hstep⟩ := step?_taken hs hj ht.symm htaken hk
    have hbelow : decoder.bundle.get? belowPart.set.typeName = some below := by rw [hset, hknown]
    have hfollow : decoder.follow? spot ((key :: keys).map .key) = _ :=
      congrArg (Option.bind · (decoder.follow? · (keys.map .key))) hstep
    rcases hcases with ⟨rfl, hshows⟩ | ⟨-, hsingle, hobject, hfurther⟩
    · obtain rfl : inner = found := hl
      have hnodes : field.connection = true ∧ belowPart.set.nodeSet? = some nodes := by
        rw [hset]
        simpa [Selection.connectionNodeSet?] using hshows
      obtain ⟨origin, ho⟩ := Part.nodes?_cons [] hnodes.2
      refine ⟨_, hfollow, rfl, ⟨below, [belowPart], ⟨origin, nodes⟩, ?_, rfl⟩,
        path_enter_child _ _ _ _ _, .inl rfl⟩
      simp only [Shape.ofCollected, hbelow, hnodes.1, ho, hn, if_true]
    · let between : Spot := ⟨.ofCollected decoder.bundle ⟨field, [belowPart]⟩,
        (enter spot.position scope.type (Part.merged [part]) entries).child key, none, .obj inner⟩
      have hshape : between.shape = .object below [belowPart] := ofCollected_eq_object hsingle hbelow
      have hpaved : Selection.Paved (scope.within below) nodes keys belowPart.set.selections := by
        rw [hset]
        exact hfurther
      have hbetween : between.position.path = spot.position.path ++ [key] :=
        path_enter_child _ _ _ _ _
      obtain ⟨last, hlast, hjson, hlastShape, hpath, hanchor⟩ := ih
        (show (scope.within below).bundle = decoder.bundle from hb) hshape rfl
        (concreteType_of_object hobject inner) hpaved hl
      rw [hbetween, List.append_assoc] at hpath
      refine ⟨last, hfollow.trans hlast, hjson, hlastShape, hpath, ?_⟩
      rcases hanchor with hsame | ⟨anchor, ha, hanchored⟩
      · rcases (enter_cases between.position below (Part.merged [belowPart]) inner).2 with
          hold | ⟨id, -, himplements, hnew⟩
        · exact .inl (hsame.trans hold)
        · refine .inr ⟨_, hsame.trans hnew, ?_⟩
          have hself : scope.bundle.get? below.name = some below := by rw [hb, hknown]
          refine paved_enter hpaved between.position hself ?_ himplements rfl
          rw [hpath, hbetween, List.append_assoc]
      · exact .inr ⟨anchor, ha, hanchored⟩

end Decoder

/-- A node apart from the connection it stands in. -/
def Model.unmarked : Model → Model
  | .mk head values => (Model.mk { head with mark := none } values).bare

/-- The model of an object that is decoded by itself. -/
def Decoder.alone (decoder : Decoder) (type : TypeDescriptor) (set : SelectionSet)
    (entries : List (String × Json)) : Model :=
  (decoder.object type [.ofOperation set] none .root entries).bare

/-- The connection has the nodes of a page, and its mark is the last of them. -/
structure Connection.Shows (decoder : Decoder) (nodes : SelectionSet) (nodeType : TypeDescriptor)
    (found : List (String × Json)) (connection : Connection) : Prop where
  hasNext : connection.info.hasNext = true ↔ Json.PageHas found "hasNextPage" (.bool true)
  models : connection.nodes.map (fun node => (node.cursor?, node.unmarked)) =
    (Json.nodeObjects found).map fun entry => (entry.1, decoder.alone nodeType nodes entry.2)
  cursor : connection.mark.map PageMark.cursor = ((Json.nodeObjects found).filterMap Prod.fst).getLast?
  paved : ∀ mark, connection.mark = some mark → mark.Paved decoder.bundle nodes

namespace Decoder

variable {decoder decoder' : Decoder}

/-- A node is decoded like the object by itself, by any decoder of the same client. -/
theorem unmarked_nodeModel (hb : decoder'.bundle = decoder.bundle)
    (hr : decoder'.registry = decoder.registry) {part : Part}
    (hd : Selection.EverywhereAll Selection.Direct part.set.selections) (type : TypeDescriptor)
    (info : PageInfo) (position : Position) (found : Option String × List (String × Json)) :
    ((decoder'.nodeModel type part info position found).2.cursor?,
      (decoder'.nodeModel type part info position found).2.unmarked) =
        (found.1, decoder.alone type part.set found.2) := by
  have hcursor : (decoder'.nodeModel type part info position found).2.cursor? = found.1 := by
    obtain ⟨cursor, entries⟩ := found
    cases cursor <;> rfl
  have helsewhere : Selection.EverywhereAll
      (Selection.Elsewhere part.origin (Part.ofOperation part.set).origin) part.set.selections := by
    refine hd.mono fun selection hd => ?_
    cases selection with
    | spread serial name condition typeName selections => cases hd.isField
    | _ => trivial
  have hmoved : part.Moved part.origin (Part.ofOperation part.set).origin (.ofOperation part.set) :=
    ⟨.refl, rfl, helsewhere⟩
  have halone : (decoder'.nodeModel type part info position found).2.unmarked =
      (decoder'.object type [part] none position found.2).bare := rfl
  rw [hcursor, halone]
  exact congrArg (Prod.mk found.1) (bare_object hb.symm hr.symm type position .root
    (.cons hmoved .nil) rfl fun _ json _ => bare_value hb.symm hr.symm json)

variable {spot : Spot} {static : TypeDescriptor} {part : Part}
  {entries found : List (String × Json)}

/-- The connection at the end of a lane shows its page. -/
theorem shows_of_lane {scope : Scope} {nodes : SelectionSet} {nodeType : TypeDescriptor}
    {keys : List String} (hb : decoder'.bundle = decoder.bundle)
    (hr : decoder'.registry = decoder.registry) (hscope : scope.bundle = decoder.bundle)
    (hdeclarations : scope.declarations = decoder'.source.operation.declarations)
    (hdeclares : decoder'.source.operation.Declares decoder.bundle)
    (hs : spot.shape = .object static [part]) (hj : spot.json = .obj entries)
    (ht : decoder'.concreteType static entries = scope.type)
    (hp : Selection.Paved scope nodes keys part.set.selections)
    (hn : decoder.bundle.get? nodes.typeName = some nodeType)
    (hd : Selection.EverywhereAll Selection.Direct nodes.selections)
    (hanchored : ∀ anchor,
      (enter spot.position scope.type (Part.merged [part]) entries).anchor = some anchor →
        anchor.Paved scope.bundle scope.declarations nodes (spot.position.path ++ keys))
    (hrooted : (enter spot.position scope.type (Part.merged [part]) entries).anchor = none →
      decoder'.source.operation.Paved decoder.bundle nodes (spot.position.path ++ keys))
    (hl : Json.Leads keys entries found) :
    ∃ connection : Connection, ((decoder'.read spot).at? (keys.map .key)).bind Decoded.connection? =
        some connection ∧ connection.Shows decoder nodes nodeType found := by
  obtain ⟨last, hlast, hjson, ⟨type, parts, nodePart, hshape, hnodes⟩, hpath, hanchor⟩ :=
    follow?_lane (hscope.trans hb.symm) hs hj ht hp (hb ▸ hn) hl
  obtain ⟨shape, position, mark, json⟩ := last
  obtain rfl : shape = _ := hshape
  obtain rfl : json = _ := hjson
  subst hnodes
  have hread : decoder'.read ⟨.connection type parts nodeType nodePart, position, mark, .obj found⟩ =
      decoder'.value (.connection type parts nodeType nodePart) position (.obj found) := rfl
  rw [value_connection] at hread
  refine ⟨⟨(Json.nodeObjects found).map fun found' =>
      (decoder'.nodeModel nodeType nodePart (PageInfo.ofEntries found) position found').2,
    (PageInfo.ofEntries found).withCursors ((Json.nodeObjects found).filterMap (·.1)),
    ((Json.nodeObjects found).filterMap (·.1)).getLast?.map
      (decoder'.markAt position (PageInfo.ofEntries found))⟩, ?_,
    (PageInfo.tells_ofEntries found).hasNext, ?_, ?_, ?_⟩
  · rw [at?_read, hlast, Option.map_some, hread]
    rfl
  · rw [List.map_map]
    exact List.map_congr_left fun found _ => unmarked_nodeModel hb hr hd _ _ _ found
  · rw [Option.map_map]
    exact Option.map_id_apply
  · intro mark hmark
    obtain ⟨cursor, -, rfl⟩ := Option.map_eq_some_iff.1 hmark
    have hposition : position.path = spot.position.path ++ keys := hpath
    have hmark : ∀ anchor, position.anchor = some anchor →
        anchor.Paved decoder.bundle decoder'.source.operation.declarations nodePart.set
          position.path := by
      intro anchor ha
      rw [← hscope, ← hdeclarations]
      rcases hanchor with hsame | ⟨other, ho, hother⟩
      · rw [hposition]
        exact hanchored anchor (hsame.symm.trans ha)
      · obtain rfl := Option.some.inj (ho.symm.trans ha)
        exact hother
    refine ⟨hb, hdeclares, hmark, fun ha => ?_⟩
    have hnone : position.anchor = none := ha
    rcases hanchor with hsame | ⟨other, ho, -⟩
    · change decoder'.source.operation.Paved decoder.bundle nodePart.set position.path
      rw [hposition]
      exact hrooted (hsame.symm.trans hnone)
    · rw [show position.anchor = some other from ho] at hnone
      cases hnone

theorem exists_drill_eq {answer : Json} {keys : List String} {P : Connection → Prop} (hk : keys ≠ [])
    (h : ∃ connection : Connection, ((decoder.read (decoder.root answer)).at? (keys.map .key)).bind
      Decoded.connection? = some connection ∧ P connection) :
    ∃ connection : Connection, ((decoder.decode answer).drill keys).bind Decoded.connection? =
      some connection ∧ P connection := by
  obtain ⟨key, keys, rfl⟩ := List.exists_cons_of_ne_nil hk
  rw [drill_eq_at?]
  exact h

section

variable {nodes : SelectionSet} {interface nodeType : TypeDescriptor} {mark : PageMark}
  {next : FollowUp}

variable (hc : next.Continues decoder.bundle interface nodes mark)
  (hn : decoder.bundle.get? nodes.typeName = some nodeType)
  (hd : Selection.EverywhereAll Selection.Direct nodes.selections)

include hc hn hd

/-- A query from the root gets the page that its answer leads to. -/
theorem shows_forNext_rooted (hr : decoder.bundle.Rooted) (hu : mark.usableAnchor? = none)
    (hl : Json.Leads next.path entries found) :
    ∃ page : Connection, (((decoder.forNext next).decode (.obj entries)).drill next.path).bind
        Decoded.connection? = some page ∧ page.Shows decoder nodes nodeType found := by
  obtain ⟨scope, hscope, hdeclarations, hroot, hobject, hname, hopening, hpaved⟩ := hc.rooted hu
  have hget : decoder.bundle.get? scope.type.name = some scope.type := hr.get?_root hroot
  have hrootType : (decoder.forNext next).rootType = scope.type := rootType_eq hget hname
  have hshape : ((decoder.forNext next).root (.obj entries)).shape =
    .object (decoder.forNext next).rootType [.ofOperation next.operation.set] := rfl
  refine exists_drill_eq hpaved.keys_ne_nil ?_
  refine shows_of_lane rfl rfl hscope hdeclarations
    hc.declares hshape rfl ((concreteType_of_object (hrootType ▸ hobject) entries).trans hrootType)
    hpaved hn hd (fun anchor ha => ?_) (fun _ => hc.rooted hu) hl
  rcases (enter_cases .root scope.type (Part.merged [.ofOperation next.operation.set]) entries).2 with
    hold | ⟨id, -, himplements, hnew⟩
  · cases hold.symm.trans ha
  · obtain rfl := Option.some.inj (hnew.symm.trans ha)
    exact paved_enter hpaved .root (hscope.symm ▸ hget) rfl himplements rfl

/-- A query from an anchor gets the page that its answer leads to, if that is an answer for the
anchor. -/
theorem shows_forNext_anchored {anchor : NodeAnchor} {object : List (String × Json)}
    (hf : decoder.bundle.FetchesNodes interface) (hu : mark.usableAnchor? = some anchor)
    (ho : Keyed.find? nodeFieldName entries = some (.obj object))
    (hid : Keyed.find? "id" object = some (.str anchor.id))
    (htype : Keyed.find? typenameField object = some (.str anchor.typeName))
    (hl : Json.Leads next.path entries found) :
    ∃ page : Connection, (((decoder.forNext next).decode (.obj entries)).drill next.path).bind
        Decoded.connection? = some page ∧ page.Shows decoder nodes nodeType found := by
  obtain ⟨scope, target, inner, keys, hscope, hdeclarations, hroot, htarget, himplements, hpath, hset,
    hpaved⟩ := hc.anchored anchor hu
  obtain ⟨field, -, hinterface, -⟩ := hf.declared
  rw [hpath] at hl ⊢
  obtain ⟨object', ho', hl⟩ := hl
  obtain rfl : object' = object := Json.obj.inj (Option.some.inj (ho'.symm.trans ho))
  let root : Spot := (decoder.forNext next).root (.obj entries)
  let first : Leg := ⟨(decoder.forNext next).concreteType (decoder.forNext next).rootType entries,
    nodeFieldName, interface.name⟩
  have htaken : Selection.taken decoder.bundle first next.operation.set.selections =
      [.composite (Scope.fetching anchor.id) interface.name
        ((scope.within interface).narrowed target inner)] := by
    rw [hset]
    exact Selection.taken_fetching scope anchor.id _ _ rfl
  have hshape : root.shape = .object (decoder.forNext next).rootType
    [.ofOperation next.operation.set] := rfl
  obtain ⟨part, hpart, hstep⟩ := step?_taken hshape rfl (show first.type = _ from rfl) htaken ho
  have hknown : decoder.bundle.get? part.set.typeName = some interface := by
    rw [hpart, Bundle.get?_self hinterface]
  have hconcrete : (decoder.forNext next).concreteType interface object' = target :=
    concreteType_of_canBe (Bundle.get?_self hinterface) htarget
      (hf.canBe _ _ (Bundle.get?_name htarget ▸ htarget) himplements) htype
  let start : Spot := ⟨.ofCollected decoder.bundle ⟨Scope.fetching anchor.id, [part]⟩,
    (enter .root first.type (Part.merged [.ofOperation next.operation.set]) entries).child nodeFieldName,
    none, .obj object'⟩
  have hshape' : start.shape = .object interface [part] := ofCollected_eq_object rfl hknown
  have hinner : Selection.Paved (scope.within target) nodes keys part.set.selections := by
    rw [hpart]
    exact hpaved
  have hanchor := anchor_enter_of_id start.position (Part.merged [part]) himplements hid
  refine exists_drill_eq (List.cons_ne_nil _ _) ?_
  rw [List.map_cons, at?_of_step? hstep]
  refine shows_of_lane rfl rfl (show (scope.within target).bundle = _ from hscope) hdeclarations
    hc.declares hshape' rfl hconcrete hinner hn hd (fun other ha => ?_) (fun hnone => ?_) hl
  · obtain rfl := Option.some.inj (hanchor.symm.trans ha)
    exact paved_enter hinner start.position (hscope.symm ▸ Bundle.get?_self htarget) rfl himplements rfl
  · cases hanchor.symm.trans hnone

end

end Decoder

/-- The concrete type declares a field as the type that it was selected on does. -/
def TypeDescriptor.Carries (concrete static : TypeDescriptor) (name : String) : Prop :=
  ∀ declared, static.field? name = some declared →
    ∃ own, concrete.field? name = some own ∧ own.typeName = declared.typeName ∧
      ∀ argument, Keyed.contains argument declared.arguments = true →
        Keyed.contains argument own.arguments = true

theorem Scope.Offers.carried {scope : Scope} {concrete type : TypeDescriptor} {name : String}
    {arguments : List (String × Value)} (h : scope.Offers name arguments type)
    (hc : concrete.Carries scope.type name) :
    (scope.within concrete).Offers name arguments type := by
  obtain ⟨hn, declared, hd, ht, hfit⟩ := h
  obtain ⟨own, hown, htype, harguments⟩ := hc declared hd
  refine ⟨hn, own, hown, ?_, fun argument ha => ?_⟩
  · rw [htype]
    exact ht
  · obtain ⟨hdeclared, hused⟩ := hfit argument ha
    exact ⟨harguments _ hdeclared, hused⟩

namespace Selection

/-- A field is valid on a type that carries it. -/
theorem ValidOn.carried {scope : Scope} {concrete : TypeDescriptor} {selection : Selection}
    {field : Field} (h : selection.ValidOn scope) (hf : selection.field? = some field)
    (hc : concrete.Carries scope.type field.name) : selection.ValidOn (scope.within concrete) := by
  cases selection with
  | leaf field' =>
    obtain rfl := Option.some.inj hf
    unfold ValidOn at h ⊢
    refine h.imp_right fun hoffers => ?_
    obtain ⟨type, ht, hleaf⟩ := hoffers
    exact ⟨type, ht.carried hc, hleaf⟩
  | composite field' typeName inner =>
    obtain rfl := Option.some.inj hf
    unfold ValidOn at h ⊢
    obtain ⟨type, ht, hinner⟩ := h
    exact ⟨type, ⟨ht.1.carried hc, ht.2⟩, hinner⟩
  | inlineFragment condition typeName inner => cases hf
  | spread serial name condition typeName inner => cases hf

/-- What is kept of fields that a type carries is valid on that type. -/
theorem keptValidOn_of_carries {scope : Scope} {concrete : TypeDescriptor} {keys : List String}
    {selections : List Selection} (hv : AllValidOn scope selections)
    (hd : EverywhereAll Direct selections)
    (hc : ∀ selection ∈ selections, selection.remains keys = true →
      ∀ field, selection.field? = some field → concrete.Carries scope.type field.name) :
    KeptValidOn (scope.within concrete) keys selections := by
  intro selection hm hremains
  obtain ⟨field, hfield⟩ := Option.isSome_iff_exists.1 (everywhereAll_iff.1 hd _ hm).self.isField
  exact (allValidOn_iff.1 hv _ hm).carried hfield (hc selection hm hremains field hfield)

/-- The nodes that keys reach are selected like all the rest. -/
theorem Reaches.everywhere {P : Selection → Prop} {bundle : Bundle} {nodes : SelectionSet}
    {type : TypeDescriptor} {keys : List String} {selections : List Selection}
    (h : Reaches bundle nodes type keys selections) (hp : EverywhereAll P selections) :
    EverywhereAll P nodes.selections := by
  induction h with
  | @connection type field typeName inner selections selected shows pages =>
    have hinner : EverywhereAll P (SelectionSet.mk typeName inner).selections :=
      (everywhereAll_iff.1 hp _ selected).2
    have hnodes : field.connection = true ∧ SelectionSet.nodeSet? ⟨typeName, inner⟩ = some nodes := by
      simpa [connectionNodeSet?] using shows
    exact everywhere_nodeSet? hinner hnodes.2
  | object selected single known object further ih => exact ih (everywhereAll_iff.1 hp _ selected).2

end Selection

/-- A way to a connection starts at the root, or at an object that can be fetched by its id. The type
of the object declares what is kept of its set. -/
inductive Decoder.Starts (decoder : Decoder) (keys : List String) :
    List Move → Model → List (String × Json) → Prop
  | root {start : Model} {entries : List (String × Json)} (object : decoder.rootType.kind = .object) :
      Starts decoder keys [] start entries
  | node {before : List Move} {start : Model} {entries : List (String × Json)} {id : String}
      (implementsNode : start.type.implementsNode = true)
      (identified : Keyed.find? "id" entries = some (.str id))
      (carries : ∀ static, decoder.bundle.get? start.head.set.typeName = some static →
        ∀ selection ∈ start.head.set.selections, selection.remains keys = true →
          ∀ field, selection.field? = some field → start.type.Carries static field.name) :
      Starts decoder keys before start entries

/-- An operation that was built without fragments starts like any set and is valid on its root. -/
theorem OperationDraft.exists_scope {bundle : Bundle} {draft : OperationDraft} {operation : Operation}
    (h : (draft.build bundle).result = .ok operation)
    (hf : Step.fragmentsOfAll draft.program = []) :
    operation.Declares bundle ∧ ∃ scope : Scope, scope.bundle = bundle ∧
      scope.declarations = operation.declarations ∧ root? bundle operation.kind = .ok scope.type ∧
      operation.set.typeName = scope.type.name ∧ scope.opening <+: operation.set.selections ∧
      Selection.Distinct operation.set.selections ∧
      Selection.AllValidOn scope operation.set.selections := by
  have hvalid := valid_of_validOver (fun fragment hm => by rw [hf] at hm; cases hm) h
  obtain ⟨scope, set, hscope, hset, rfl⟩ := build_eq_ok h
  obtain ⟨hroot, -, -, rfl⟩ := scope_eq_ok hscope
  obtain ⟨root, hroot', ⟨hname, -, hdistinct⟩, hall⟩ := hvalid.root
  obtain rfl : root = scope.type := Except.ok.inj (hroot'.symm.trans hroot)
  obtain ⟨-, -, -, hgrown⟩ := freelyGrown_of_buildSet hset
  exact ⟨⟨hvalid.declares, hvalid.directives⟩, scope, rfl, rfl, hroot, hname, hgrown.2, hdistinct, hall⟩

namespace Decoder

variable {decoder : Decoder}

/-- The object that an address leads to, where nothing is merged. -/
theorem exists_lone {declarations : List VariableDefinition} {data : Json} {before : List Move}
    {start : Model} {entries : List (String × Json)}
    (hl : (decoder.root data).shape.Lone decoder.bundle declarations)
    (hs : (Decoded.object (decoder.decode data)).at? before = some (.object start))
    (hd : decoder.dataAt? data before = some (.obj entries)) :
    ∃ spot static part, decoder.follow? (decoder.root data) before = some spot ∧
      spot.shape = .object static [part] ∧ spot.json = .obj entries ∧
      part.Lone decoder.bundle declarations static ∧
      start = decoder.object static [part] spot.mark spot.position entries := by
  rw [at?_decode] at hs
  obtain ⟨spot, hspot, hread⟩ := Option.map_eq_some_iff.1 hs
  obtain ⟨static, parts, entries', hshape, hjson, rfl⟩ := of_read_eq_object hread
  have hlone := follow?_lone hl hspot
  rw [hshape] at hlone
  obtain ⟨part, rfl, hpart⟩ := hlone
  rw [dataAt?, hspot, Option.map_some, hjson] at hd
  obtain rfl := Json.obj.inj (Option.some.inj hd)
  exact ⟨spot, static, part, hspot, hshape, hjson, hpart, rfl⟩

variable {draft : OperationDraft} {data : Json} {before : List Move} {start : Model}
  {entries found : List (String × Json)} {nodes : SelectionSet} {nodeType : TypeDescriptor}
  {keys : List String}

/-- The connection that a response leads to shows its page. -/
theorem shows_of_reaches (hr : decoder.bundle.Rooted)
    (hb : (draft.build decoder.bundle).result = .ok decoder.source.operation)
    (hf : Step.fragmentsOfAll draft.program = [])
    (hd : Selection.EverywhereAll Selection.Direct decoder.source.operation.set.selections)
    (hs : (Decoded.object (decoder.decode data)).at? before = some (.object start))
    (he : decoder.dataAt? data before = some (.obj entries))
    (hstarts : decoder.Starts keys before start entries)
    (hreaches : Selection.Reaches decoder.bundle nodes start.type keys start.head.set.selections)
    (hn : decoder.bundle.get? nodes.typeName = some nodeType) (hl : Json.Leads keys entries found) :
    (∃ connection : Connection, ((Decoded.object (decoder.decode data)).at?
        (before ++ keys.map .key)).bind Decoded.connection? = some connection ∧
      connection.Shows decoder nodes nodeType found) ∧
      Selection.EverywhereAll Selection.Direct nodes.selections := by
  obtain ⟨hdeclares, scope, hbundle, hdeclarations, hroot, hname, hopening, hdistinct, hvalid⟩ :=
    OperationDraft.exists_scope hb hf
  have hget : decoder.bundle.get? scope.type.name = some scope.type := hr.get?_root hroot
  have hrootType : decoder.rootType = scope.type := rootType_eq hget hname
  obtain ⟨bundle, declarations, root⟩ := scope
  obtain rfl : bundle = decoder.bundle := hbundle
  have hlone : (decoder.root data).shape.Lone decoder.bundle declarations := by
    refine ⟨.ofOperation decoder.source.operation.set, rfl, ?_, ?_, hdistinct, hd⟩
    · rw [hrootType]
      exact hname ▸ hget
    · rw [hrootType]
      exact hvalid
  obtain ⟨spot, static, part, hspot, hshape, hjson, hpart, rfl⟩ := exists_lone hlone hs he
  have hmerged : (Part.merged [part]).selections = part.set.selections := List.append_nil _
  let concrete := decoder.concreteType static entries
  have hlane : Selection.Lane decoder.bundle nodes concrete keys part.set.selections := by
    refine Selection.Reaches.lane ?_ hpart.valid hpart.distinct hpart.direct
    rw [← hmerged]
    exact hreaches
  have hconcrete : decoder.bundle.get? concrete.name = some concrete :=
    get?_concreteType (Bundle.get?_self hpart.known)
  have hnodes : Selection.EverywhereAll Selection.Direct nodes.selections :=
    hreaches.everywhere (hmerged ▸ hpart.direct)
  rw [at?_decode, follow?_append, hspot, Option.bind_some, ← at?_read]
  refine ⟨?_, hnodes⟩
  cases hstarts with
  | root object =>
    obtain rfl : decoder.root data = spot := Option.some.inj hspot
    obtain ⟨rfl, hparts⟩ := Shape.object.inj hshape
    obtain rfl : .ofOperation decoder.source.operation.set = part := List.singleton_inj.1 hparts
    have hstatic : concrete = root := (concreteType_of_object object entries).trans hrootType
    have hpaved : Selection.Paved ⟨decoder.bundle, declarations, root⟩ nodes keys
        decoder.source.operation.set.selections :=
      ⟨hstatic ▸ hlane, Selection.keptValidOn_of_allValidOn hvalid keys, hdistinct⟩
    have hoperation : decoder.source.operation.Paved decoder.bundle nodes keys :=
      ⟨_, rfl, hdeclarations, hroot, hrootType ▸ object, hname, hopening, hpaved⟩
    refine shows_of_lane rfl rfl rfl hdeclarations hdeclares hshape hjson hstatic hpaved hn hnodes
      (fun anchor ha => ?_) (fun _ => hoperation) hl
    rcases (enter_cases .root root (Part.merged [.ofOperation decoder.source.operation.set])
      entries).2 with hold | ⟨id, -, himplements, hnew⟩
    · cases hold.symm.trans ha
    · obtain rfl := Option.some.inj (hnew.symm.trans ha)
      exact paved_enter hpaved .root hget rfl himplements rfl
  | node implementsNode identified carries =>
    have hkept : Selection.KeptValidOn ⟨decoder.bundle, declarations, concrete⟩ keys
        part.set.selections :=
      Selection.keptValidOn_of_carries hpart.valid hpart.direct fun selection hm =>
        carries static hpart.known selection (hmerged ▸ hm)
    have hpaved : Selection.Paved ⟨decoder.bundle, declarations, concrete⟩ nodes keys
        part.set.selections := ⟨hlane, hkept, hpart.distinct⟩
    have hanchor := anchor_enter_of_id spot.position (Part.merged [part]) implementsNode identified
    have hdeclarations' : (Scope.mk decoder.bundle declarations concrete).declarations =
      decoder.source.operation.declarations := hdeclarations
    refine shows_of_lane rfl rfl rfl hdeclarations' hdeclares hshape hjson rfl hpaved hn hnodes
      (fun anchor ha => ?_) (fun hnone => ?_) hl
    · obtain rfl := Option.some.inj (hanchor.symm.trans ha)
      exact paved_enter hpaved spot.position hconcrete rfl implementsNode rfl
    · cases hanchor.symm.trans hnone

end Decoder

end GraphQLClient
