import GraphQLClient.Proofs.Decoding.Starts

set_option autoImplicit false

/-!
# What models, marks and anchors come from

Whatever holds of the sets that decoding starts with, and passes from an object to what is decoded
below it, holds of every model, and of the set that every anchor keeps.
-/

namespace GraphQLClient

/-- The parts of a shape, and those for its nodes, are as `Q` says for their type. -/
def Shape.Each (Q : TypeDescriptor → List Part → Prop) : Shape → Prop
  | .raw => True
  | .object type parts => Q type parts
  | .connection type parts nodeType nodes => Q type parts ∧ Q nodeType [nodes]

/-- It is enough to know that the parts of a group, and those for the nodes among them, are as `Q` says. -/
theorem Shape.each_ofCollected {Q : TypeDescriptor → List Part → Prop} {bundle : Bundle}
    {collected : Collected}
    (hparts : ∀ first more type, collected.parts = first :: more →
      bundle.get? first.set.typeName = some type → Q type collected.parts)
    (hnodes : ∀ type nodes nodeType, Q type collected.parts →
      Part.nodes? collected.parts = some nodes →
        bundle.get? nodes.set.typeName = some nodeType → Q nodeType [nodes]) :
    (ofCollected bundle collected).Each Q := by
  obtain hraw | ⟨first, more, type, hmore, htype, hshape⟩ := ofCollected_cases bundle collected
  · rw [hraw]
    trivial
  · have hall := hparts first more type hmore htype
    obtain hobject | ⟨nodes, nodeType, -, hfound, hn, hconnection⟩ := hshape
    · rw [hobject]
      exact hall
    · rw [hconnection]
      exact ⟨hall, hnodes type nodes nodeType hall hfound hn⟩

/-- The mark, if there is one, is that of a value. -/
def Decoded.mark? : Decoded → Option PageMark
  | .connection _ _ mark => mark
  | .object model => model.head.mark
  | _ => none

/-- The anchor is an object above the place, decoded with parts as `Q` says. -/
def NodeAnchor.From (Q : TypeDescriptor → List Part → Prop) (decoder : Decoder)
    (path : List String) (anchor : NodeAnchor) : Prop :=
  anchor.depth < path.length ∧ ∃ static parts entries, Q static parts ∧
    (decoder.concreteType static entries).implementsNode = true ∧
    Keyed.find? "id" entries = some (.str anchor.id) ∧
    anchor.typeName = (decoder.concreteType static entries).name ∧ anchor.set = Part.merged parts

/-- What is decoded at the place is as `Q` says, and so is the object around it. -/
structure Spot.Each (Q : TypeDescriptor → List Part → Prop) (decoder : Decoder) (spot : Spot) :
    Prop where
  shape : spot.shape.Each Q
  anchor : ∀ anchor, spot.position.anchor = some anchor → anchor.From Q decoder spot.position.path
  mark : ∀ mark, spot.mark = some mark → mark.path = spot.position.path ∧
    mark.anchor = spot.position.anchor ∧ mark.source = decoder.source

namespace Decoder

variable {decoder : Decoder} {Q : TypeDescriptor → List Part → Prop}

/-- What passes from the parts of an object to the groups of its fields. -/
def Passes (decoder : Decoder) (Q : TypeDescriptor → List Part → Prop) (spot : Spot) : Prop :=
  ∀ static parts entries name collected, spot.shape = .object static parts →
    spot.json = .obj entries → Q static parts →
    Collected.joined ((Collected.fieldsOfParts decoder.bundle (decoder.concreteType static entries)
      parts).filter (·.key == name)) = some collected →
    (Shape.ofCollected decoder.bundle collected).Each Q

theorem from_enter_child {position : Position} {static : TypeDescriptor} {parts : List Part}
    (entries : List (String × Json)) (key : String) (hQ : Q static parts)
    (h : ∀ anchor, position.anchor = some anchor → anchor.From Q decoder position.path) :
    let type := decoder.concreteType static entries
    let child := (enter position type (Part.merged parts) entries).child key
    ∀ anchor, child.anchor = some anchor → anchor.From Q decoder child.path := by
  intro type child anchor ha
  have hpath : child.path = position.path ++ [key] := path_enter_child _ _ _ _ _
  rw [NodeAnchor.From, hpath, List.length_append]
  change (enter position type (Part.merged parts) entries).anchor = some anchor at ha
  rcases (enter_cases position type (Part.merged parts) entries).2 with hold | ⟨id, hid, hnode, hnew⟩
  · obtain ⟨hdepth, hfrom⟩ := h anchor (hold.symm.trans ha)
    exact ⟨by omega, hfrom⟩
  · obtain rfl := Option.some.inj (hnew.symm.trans ha)
    exact ⟨Nat.lt_succ_self _, static, parts, entries, hQ, hnode, hid, rfl, rfl⟩

theorem step?_each {spot next : Spot} {move : Move} (h : spot.Each Q decoder)
    (hp : decoder.Passes Q spot) (hs : decoder.step? spot move = some next) : next.Each Q decoder := by
  obtain ⟨hshape, hanchor, -⟩ := h
  have hnone : ∀ mark : PageMark, (none : Option PageMark) ≠ some mark := fun _ h => nomatch h
  cases steps_of_step? hs with
  | @field static parts position mark entries name collected json hj _ =>
    exact ⟨hp static parts entries name collected rfl rfl hshape hj,
      from_enter_child entries name hshape hanchor, fun _ hm => absurd hm (hnone _)⟩
  | node _ =>
    refine ⟨hshape.2, hanchor, fun mark hm => ?_⟩
    obtain ⟨cursor, -, rfl⟩ := Option.map_eq_some_iff.1 hm
    exact ⟨rfl, rfl, rfl⟩
  | object _ => exact ⟨hshape, hanchor, fun _ hm => absurd hm (hnone _)⟩
  | connection _ => exact ⟨hshape.1, hanchor, fun _ hm => absurd hm (hnone _)⟩

/-- Along an address whose places all pass `Q` on. -/
theorem follow?_each {spot last : Spot} {address : List Move} (h : spot.Each Q decoder)
    (hp : ∀ before spot', decoder.follow? spot before = some spot' → decoder.Passes Q spot')
    (hs : decoder.follow? spot address = some last) : last.Each Q decoder := by
  induction address generalizing spot with
  | nil => exact Option.some.inj hs ▸ h
  | cons move rest ih =>
    obtain ⟨between, hb, hs⟩ := Option.bind_eq_some_iff.1 hs
    refine ih (step?_each h (hp [] spot rfl) hb) (fun before spot' hf => ?_) hs
    refine hp (move :: before) spot' ?_
    rw [follow?, hb]
    exact hf

/-- What is read at a place has the mark of the place, if it has one. -/
theorem mark?_read {spot : Spot} (h : spot.Each Q decoder) {mark : PageMark}
    (hm : (decoder.read spot).mark? = some mark) :
    mark.path = spot.position.path ∧ mark.anchor = spot.position.anchor ∧
      mark.source = decoder.source := by
  cases hread : decoder.read spot with
  | connection nodes info found =>
    rw [hread] at hm
    obtain rfl : found = some mark := hm
    exact mark_of_read hread
  | object model =>
    rw [hread] at hm
    obtain ⟨static, parts, entries, -, -, rfl⟩ := of_read_eq_object hread
    exact h.mark mark hm
  | _ => rw [hread] at hm; cases hm

/-! ## Known types -/

/-- The bundle knows the type under the name that the first of the parts gives. -/
def Known (decoder : Decoder) (type : TypeDescriptor) (parts : List Part) : Prop :=
  decoder.bundle.get? (Part.merged parts).typeName = some type

theorem passes_known (spot : Spot) : decoder.Passes decoder.Known spot := by
  intro static parts entries name collected _ _ _ _
  refine Shape.each_ofCollected (fun first more type hparts htype => ?_) fun _ _ _ _ _ hnode => hnode
  rw [Known, hparts]
  exact htype

theorem root_each (data : Json)
    (h : Q decoder.rootType [.ofOperation decoder.source.operation.set]) :
    (decoder.root data).Each Q decoder :=
  ⟨h, fun _ ha => (nomatch ha), fun _ hm => (nomatch hm)⟩

/-- An operation selects on a root that the bundle knows. -/
theorem rootType_of_build (hr : decoder.bundle.Rooted) {draft : OperationDraft}
    (hb : (draft.build decoder.bundle).result = .ok decoder.source.operation) :
    decoder.bundle.get? decoder.source.operation.set.typeName = some decoder.rootType := by
  obtain ⟨scope, set, hscope, hset, hoperation⟩ := OperationDraft.build_eq_ok hb
  obtain ⟨hroot, -, -, -⟩ := OperationDraft.scope_eq_ok hscope
  obtain ⟨hname, -⟩ := OperationDraft.freelyGrown_of_buildSet hset
  have hset : decoder.source.operation.set.typeName = scope.type.name := by
    rw [hoperation]
    exact hname
  rw [rootType_eq (hr.get?_root hroot) hset, hset]
  exact hr.get?_root hroot

/-- The object, list or connection at an address is decoded for types that the bundle knows. -/
theorem follow?_known (hr : decoder.bundle.Rooted) {draft : OperationDraft}
    (hb : (draft.build decoder.bundle).result = .ok decoder.source.operation) {data : Json}
    {address : List Move} {spot : Spot}
    (hs : decoder.follow? (decoder.root data) address = some spot) : spot.Each decoder.Known decoder :=
  follow?_each (root_each data (rootType_of_build hr hb)) (fun _ spot' _ => passes_known spot') hs

end Decoder

/-! ## What holds everywhere -/

/-- A part of a group is the set of a field of the key. -/
theorem Collected.composite_of_mem {bundle : Bundle} {type : TypeDescriptor} {parts : List Part}
    {name : String} {collected : Collected}
    (hj : joined ((fieldsOfParts bundle type parts).filter (·.key == name)) = some collected)
    {part : Part} (hp : part ∈ collected.parts) :
    ∃ field : Field, field.responseKey = name ∧
      Selection.composite field part.set.typeName part.set.selections ∈
        Selection.fieldsOnAll bundle type (Part.merged parts).selections := by
  obtain ⟨found, hf, hp⟩ := mem_joined hj part hp
  obtain ⟨hmem, hkey⟩ := List.mem_filter.1 hf
  obtain hnil | ⟨pair, rfl⟩ := parts_fieldsOfParts parts found hmem
  · rw [hnil] at hp
    cases hp
  · obtain rfl := List.mem_singleton.1 hp
    exact ⟨pair.1, beq_iff_eq.1 hkey, mem_fieldsOn hmem⟩

/-- What holds everywhere in some parts holds of the fields that a group of theirs is made of. -/
theorem Collected.everywhere_of_mem {P : Selection → Prop} {bundle : Bundle} {type : TypeDescriptor}
    {parts : List Part} {name : String} {collected : Collected}
    (h : Selection.EverywhereAll P (Part.merged parts).selections)
    (hj : joined ((fieldsOfParts bundle type parts).filter (·.key == name)) = some collected)
    {part : Part} (hp : part ∈ collected.parts) :
    ∃ field, (Selection.composite field part.set.typeName part.set.selections).Everywhere P := by
  obtain ⟨field, -, hmem⟩ := composite_of_mem hj hp
  exact ⟨field, Selection.everywhereAll_iff.1 (Selection.everywhere_fieldsOnAll h) _ hmem⟩

namespace Part

variable {parts : List Part} {found nodes : Part} {key : String} {P : Selection → Prop}

/-- What is found below a key is the set of a field among those of the parts. -/
theorem mem_merged_of_below? (hb : below? parts key = some found) :
    ∃ field, Selection.composite field found.set.typeName found.set.selections ∈
      (merged parts).selections := by
  obtain ⟨part, hp, field, index, -, hget⟩ := below?_eq_some hb
  exact ⟨field, List.mem_flatMap.2 ⟨part, hp, List.mem_of_getElem? hget⟩⟩

theorem merged_singleton (part : Part) : (merged [part]).selections = part.set.selections :=
  List.append_nil _

theorem everywhere_merged (h : ∀ part ∈ parts, Selection.EverywhereAll P part.set.selections) :
    Selection.EverywhereAll P (merged parts).selections := by
  refine Selection.everywhereAll_iff.2 fun selection hs => ?_
  obtain ⟨part, hp, hs⟩ := List.mem_flatMap.1 hs
  exact Selection.everywhereAll_iff.1 (h part hp) selection hs

theorem everywhere_below? (h : Selection.EverywhereAll P (merged parts).selections)
    (hb : below? parts key = some found) : Selection.EverywhereAll P found.set.selections := by
  obtain ⟨field, hmem⟩ := mem_merged_of_below? hb
  exact (Selection.everywhereAll_iff.1 h _ hmem).2

/-- The nodes among the parts are the set of a field. -/
theorem everywhere_nodes? (h : Selection.EverywhereAll P (merged parts).selections)
    (hn : nodes? parts = some nodes) :
    ∃ field, (Selection.composite field nodes.set.typeName nodes.set.selections).Everywhere P := by
  obtain ⟨edges, he, hn⟩ := Option.bind_eq_some_iff.1 hn
  have hedges := everywhere_below? h he
  rw [← merged_singleton edges] at hedges
  obtain ⟨field, hmem⟩ := mem_merged_of_below? hn
  exact ⟨field, Selection.everywhereAll_iff.1 hedges _ hmem⟩

end Part

namespace Decoder

variable {decoder : Decoder}

/-- The property holds everywhere in the parts. -/
def Throughout (P : Selection → Prop) (_ : TypeDescriptor) (parts : List Part) : Prop :=
  Selection.EverywhereAll P (Part.merged parts).selections

theorem passes_throughout (P : Selection → Prop) (spot : Spot) :
    decoder.Passes (Throughout P) spot := by
  intro static parts entries name collected _ _ hall hj
  refine Shape.each_ofCollected (fun first more type _ _ => ?_) fun type nodes nodeType h hn _ => ?_
  · refine Part.everywhere_merged fun part hp => ?_
    obtain ⟨field, -, hinner⟩ := Collected.everywhere_of_mem hall hj hp
    exact hinner
  · obtain ⟨field, -, hinner⟩ := Part.everywhere_nodes? h hn
    rw [Throughout, Part.merged_singleton]
    exact hinner

/-- What holds everywhere in the operation holds everywhere in the parts that are decoded with. -/
theorem follow?_throughout {P : Selection → Prop}
    (h : Selection.EverywhereAll P decoder.source.operation.set.selections) {data : Json}
    {address : List Move} {spot : Spot}
    (hs : decoder.follow? (decoder.root data) address = some spot) :
    spot.Each (Throughout P) decoder := by
  refine follow?_each (root_each data ?_) (fun _ spot' _ => passes_throughout P spot') hs
  rw [Throughout, Part.merged_singleton]
  exact h

end Decoder

/-! ## Valid sets -/

section

variable {bundle : Bundle} {declarations : List VariableDefinition} {type : TypeDescriptor}
  {parts : List Part}

/-- The set below a key of valid parts is valid. -/
theorem Part.validOn_below? {key : String} {found : Part}
    (h : Selection.AllValidOn ⟨bundle, declarations, type⟩ (merged parts).selections)
    (hb : below? parts key = some found) :
    ∃ inner, bundle.get? found.set.typeName = some inner ∧
      Selection.AllValidOn ⟨bundle, declarations, inner⟩ found.set.selections := by
  obtain ⟨field, hmem⟩ := mem_merged_of_below? hb
  have hvalid := Selection.allValidOn_iff.1 h _ hmem
  exact (Selection.validOn_fieldsOn type hvalid (List.mem_singleton.2 rfl)).2

theorem Part.validOn_nodes? {nodes : Part}
    (h : Selection.AllValidOn ⟨bundle, declarations, type⟩ (merged parts).selections)
    (hn : nodes? parts = some nodes) :
    ∃ inner, bundle.get? nodes.set.typeName = some inner ∧
      Selection.AllValidOn ⟨bundle, declarations, inner⟩ nodes.set.selections := by
  obtain ⟨edges, he, hn⟩ := Option.bind_eq_some_iff.1 hn
  obtain ⟨inner, -, hvalid⟩ := validOn_below? h he
  rw [← merged_singleton edges] at hvalid
  exact validOn_below? hvalid hn

end

namespace Decoder

variable {decoder : Decoder}

/-- The parts are valid on one type, which is known under the name that the first of them gives. -/
structure ValidTogether (decoder : Decoder) (type : TypeDescriptor) (parts : List Part) : Prop where
  known : decoder.Known type parts
  valid : Selection.AllValidOn ⟨decoder.bundle, decoder.source.operation.declarations, type⟩
    (Part.merged parts).selections

/-- Where the fields of an object agree, the groups of its fields are valid. -/
theorem passes_validTogether {spot : Spot} (ha : ∀ model, decoder.read spot = .object model →
      Selection.Agree (Selection.fieldsOnAll decoder.bundle model.type model.head.set.selections)) :
    decoder.Passes decoder.ValidTogether spot := by
  intro static parts entries name collected hshape hjson hvalid hj
  have hagree : Selection.Agree (Selection.fieldsOnAll decoder.bundle
      (decoder.concreteType static entries) (Part.merged parts).selections) := by
    obtain ⟨shape, position, mark, json⟩ := spot
    obtain rfl : shape = _ := hshape
    obtain rfl : json = _ := hjson
    exact ha _ rfl
  refine Shape.each_ofCollected (fun first more type hparts htype => ?_)
    fun type nodes nodeType htogether hnodes hnode => ⟨hnode, ?_⟩
  · have hinner : ∀ part ∈ collected.parts,
        Selection.AllValidOn ⟨decoder.bundle, decoder.source.operation.declarations, type⟩
          part.set.selections := by
      intro part hp
      obtain ⟨field, hkey, hmem⟩ := Collected.composite_of_mem hj hp
      have hfirst : first ∈ collected.parts := by rw [hparts]; exact List.mem_cons_self
      obtain ⟨field', hkey', hmem'⟩ := Collected.composite_of_mem hj hfirst
      obtain ⟨-, inner, hget, hset⟩ := Selection.validOn_fieldsOnAll _ hvalid.valid hmem
      obtain ⟨-, -, hsame⟩ := hagree _ hmem _ hmem' _ _ rfl rfl (hkey.trans hkey'.symm)
      have hname : part.set.typeName = first.set.typeName := Option.some.inj hsame
      rw [hname, htype] at hget
      exact Option.some.inj hget ▸ hset
    refine ⟨by rw [Known, hparts]; exact htype, Selection.allValidOn_iff.2 fun selection hs => ?_⟩
    obtain ⟨part, hp, hs⟩ := List.mem_flatMap.1 hs
    exact Selection.allValidOn_iff.1 (hinner part hp) selection hs
  · obtain ⟨inner, hget, hset⟩ := Part.validOn_nodes? htogether.valid hnodes
    rw [Part.merged_singleton]
    exact Option.some.inj (hnode.symm.trans hget) ▸ hset

/-- The object, list or connection at an address is decoded with valid sets, if fields agree. -/
theorem follow?_validTogether (hr : decoder.bundle.Rooted)
    (hv : decoder.source.operation.Valid decoder.bundle) {data : Json}
    (ha : decoder.Agrees (.object (decoder.decode data))) {address : List Move} {spot : Spot}
    (hs : decoder.follow? (decoder.root data) address = some spot) :
    spot.Each decoder.ValidTogether decoder := by
  obtain ⟨root, hroot, ⟨hname, -, -⟩, hset⟩ := hv.root
  have hget := hr.get?_root hroot
  have htype : decoder.rootType = root := rootType_eq hget hname
  refine follow?_each (root_each data ⟨?_, ?_⟩) (fun before spot' hf => ?_) hs
  · change decoder.bundle.get? decoder.source.operation.set.typeName = some decoder.rootType
    rw [htype, show decoder.source.operation.set.typeName = root.name from hname]
    exact hget
  · rw [htype, Part.merged_singleton]
    exact hset
  · refine passes_validTogether fun model hm => ha before model ?_
    rw [at?_decode, hf, Option.map_some, hm]

end Decoder

end GraphQLClient
