import GraphQLClient.Proofs.Building.Revalidation
import GraphQLClient.Proofs.Building.Sharing
import GraphQLClient.Proofs.Decoding.Connections
import GraphQLClient.Proofs.Decoding.Origins

set_option autoImplicit false

/-!
# What every place of a response is decoded with

Sets of a valid operation stay valid wherever the decoder gets to: each part is where its origin says,
and is valid on the type that it is decoded for. One step keeps this where fields of one key agree.
-/

namespace GraphQLClient

namespace Selection

/-- Fields that answer to one key have one name, and sets on one type. -/
def Agree (fields : List Selection) : Prop :=
  ∀ a ∈ fields, ∀ b ∈ fields, ∀ f g, a.field? = some f → b.field? = some g →
    f.responseKey = g.responseKey → f.name = g.name ∧ f.connection = g.connection ∧
      a.fieldSet?.map (·.typeName) = b.fieldSet?.map (·.typeName)

mutual
/-- The sets below valid fields are valid on the types that they name. -/
theorem validOn_fieldsOn {bundle : Bundle} {declarations : List VariableDefinition}
    {static : TypeDescriptor} (type : TypeDescriptor) {selection : Selection}
    (hv : selection.ValidOn ⟨bundle, declarations, static⟩) {field : Field} {typeName : String}
    {inner : List Selection} (hm : Selection.composite field typeName inner ∈
      fieldsOn bundle type selection) :
    field.name ≠ typenameField ∧ ∃ type, bundle.get? typeName = some type ∧
      AllValidOn ⟨bundle, declarations, type⟩ inner := by
  cases selection with
  | leaf field => simp [fieldsOn] at hm
  | composite field' typeName' selections =>
    obtain ⟨rfl, rfl, rfl⟩ := Selection.composite.inj (List.mem_singleton.1 hm)
    unfold ValidOn at hv
    obtain ⟨type, ⟨⟨hn, declared, -, ht, -⟩, -⟩, hp, hi⟩ := hv
    refine ⟨hn, type, ?_, hi⟩
    rw [show typeName = type.name from hp.1, Bundle.get?_name ht]
    exact ht
  | inlineFragment condition typeName' selections =>
    unfold ValidOn at hv
    obtain ⟨target, -, -, hi⟩ := hv
    rw [fieldsOn] at hm
    split at hm
    · exact validOn_fieldsOnAll type hi hm
    · cases hm
  | spread serial name condition typeName' selections =>
    unfold ValidOn at hv
    obtain ⟨target, -, -, hi⟩ := hv
    rw [fieldsOn] at hm
    split at hm
    · have halike : (⟨bundle, [], target⟩ : Scope).Alike ⟨bundle, declarations, target⟩ := ⟨rfl, rfl⟩
      exact validOn_fieldsOnAll type
        (Scope.allValidOn_of_declares halike (fun _ _ h => nomatch h) hi) hm
    · cases hm

theorem validOn_fieldsOnAll {bundle : Bundle} {declarations : List VariableDefinition}
    {static : TypeDescriptor} (type : TypeDescriptor) {selections : List Selection}
    (hv : AllValidOn ⟨bundle, declarations, static⟩ selections) {field : Field} {typeName : String}
    {inner : List Selection} (hm : Selection.composite field typeName inner ∈
      fieldsOnAll bundle type selections) :
    field.name ≠ typenameField ∧ ∃ type, bundle.get? typeName = some type ∧
      AllValidOn ⟨bundle, declarations, type⟩ inner := by
  cases selections with
  | nil => cases hm
  | cons selection rest =>
    unfold AllValidOn at hv
    rw [fieldsOnAll] at hm
    rcases List.mem_append.1 hm with hm | hm
    · exact validOn_fieldsOn type hv.1 hm
    · exact validOn_fieldsOnAll type hv.2 hm
end

end Selection

namespace Part

theorem findIn?_eq_some {key : String} {origin : Origin} {index : Nat} {selections : List Selection}
    {found : Origin × Selection} (h : findIn? key origin index selections = some found) :
    ∃ offset, selections[offset]? = some found.2 ∧ found.1 = origin.child (index + offset) := by
  induction selections generalizing index with
  | nil => cases h
  | cons selection rest ih =>
    rw [findIn?] at h
    split at h
    · obtain rfl := Option.some.inj h
      exact ⟨0, rfl, rfl⟩
    · obtain ⟨offset, hs, ho⟩ := ih h
      refine ⟨offset + 1, hs, ho.trans ?_⟩
      rw [show index + 1 + offset = index + (offset + 1) by omega]

/-- The set below a key stands in one of the parts. -/
theorem below?_eq_some {parts : List Part} {key : String} {found : Part}
    (h : below? parts key = some found) :
    ∃ part ∈ parts, ∃ field index, found.origin = part.origin.child index ∧
      part.set.selections[index]? =
        some (.composite field found.set.typeName found.set.selections) := by
  unfold below? at h
  cases hf : parts.findSome? fun part => findIn? key part.origin 0 part.set.selections with
  | none => simp [hf] at h
  | some pair =>
    rw [hf] at h
    obtain ⟨set, hset, rfl⟩ := Option.map_eq_some_iff.1 h
    obtain ⟨part, hp, hin⟩ := List.exists_of_findSome?_eq_some hf
    obtain ⟨offset, hget, horigin⟩ := findIn?_eq_some hin
    obtain ⟨origin, selection⟩ := pair
    cases selection with
    | composite field typeName inner =>
      obtain rfl := Option.some.inj hset
      exact ⟨part, hp, field, offset, by rw [horigin, Nat.zero_add], hget⟩
    | _ => cases hset

theorem Placed.below {set : SelectionSet} {table : Nat → Option SelectionSet}
    {parts : List Part} {key : String} {found : Part} (hp : ∀ part ∈ parts, part.Placed set table)
    (h : below? parts key = some found) : found.Placed set table := by
  obtain ⟨part, hm, field, index, horigin, hget⟩ := below?_eq_some h
  refine ⟨?_, (Selection.everywhereAll_iff.1 (hp part hm).registered _
    (List.mem_of_getElem? hget)).2⟩
  rw [Located, horigin]
  exact Origin.locate?_child (hp part hm).located hget

theorem Placed.nodes {set : SelectionSet} {table : Nat → Option SelectionSet}
    {parts : List Part} {found : Part} (hp : ∀ part ∈ parts, part.Placed set table)
    (h : nodes? parts = some found) : found.Placed set table := by
  obtain ⟨edges, he, hn⟩ := Option.bind_eq_some_iff.1 h
  have hedges := Placed.below hp he
  exact Placed.below (fun part hm => (List.mem_singleton.1 hm) ▸ hedges) hn

/-- The part holds a set that is valid on `static`, where its origin says. -/
structure Sound (operation : Operation) (bundle : Bundle) (table : Nat → Option SelectionSet)
    (static : TypeDescriptor) (part : Part) : Prop where
  located : part.Located operation.set table
  known : bundle.get? part.set.typeName = some static
  valid : Selection.AllValidOn ⟨bundle, operation.declarations, static⟩ part.set.selections
  registered : Selection.EverywhereAll (Selection.Registered table) part.set.selections
  plain : Selection.EverywhereAll (Selection.Plain bundle) part.set.selections

variable {operation : Operation} {bundle : Bundle} {table : Nat → Option SelectionSet}
  {static : TypeDescriptor}

theorem Sound.below {parts : List Part} {key : String} {found : Part}
    (h : ∀ part ∈ parts, ∃ static, part.Sound operation bundle table static)
    (hb : below? parts key = some found) :
    ∃ type, found.Sound operation bundle table type := by
  obtain ⟨part, hp, field, index, horigin, hget⟩ := below?_eq_some hb
  obtain ⟨static, hpart⟩ := h part hp
  have hmem := List.mem_of_getElem? hget
  have hvalid := Selection.allValidOn_iff.1 hpart.valid _ hmem
  obtain ⟨-, type, htype, hinner⟩ :=
    Selection.validOn_fieldsOn static hvalid (List.mem_singleton.2 rfl)
  refine ⟨type, ?_, htype, hinner, (Selection.everywhereAll_iff.1 hpart.registered _ hmem).2,
    (Selection.everywhereAll_iff.1 hpart.plain _ hmem).2⟩
  rw [Located, horigin]
  exact Origin.locate?_child hpart.located hget

/-- The nodes of a connection are where their origin says, and valid on a type of their own. -/
theorem Sound.nodes {parts : List Part} {found : Part}
    (h : ∀ part ∈ parts, ∃ static, part.Sound operation bundle table static)
    (hn : nodes? parts = some found) : ∃ type, found.Sound operation bundle table type := by
  obtain ⟨edges, he, hn⟩ := Option.bind_eq_some_iff.1 hn
  have hedges := Sound.below h he
  exact Sound.below (fun part hp => (List.mem_singleton.1 hp) ▸ hedges) hn

end Part

namespace Collected

variable {bundle : Bundle} {type : TypeDescriptor}

mutual
theorem parts_fieldsOf (origin : Origin) (selection : Selection) :
    ∀ field ∈ fieldsOf bundle type origin selection,
      field.parts = [] ∨ ∃ pair, field = ofPair pair := by
  cases selection with
  | leaf field =>
    intro found hf
    obtain rfl := List.mem_singleton.1 hf
    exact .inl rfl
  | composite field typeName selections =>
    intro found hf
    obtain rfl := List.mem_singleton.1 hf
    exact .inr ⟨(field, ⟨origin, ⟨typeName, selections⟩⟩), rfl⟩
  | inlineFragment condition typeName selections =>
    rw [fieldsOf]
    split
    · exact parts_fieldsOfAll _ _ _
    · exact fun _ h => absurd h List.not_mem_nil
  | spread serial name condition typeName selections =>
    rw [fieldsOf]
    split
    · exact parts_fieldsOfAll _ _ _
    · exact fun _ h => absurd h List.not_mem_nil

theorem parts_fieldsOfAll (origin : Origin) (index : Nat) (selections : List Selection) :
    ∀ field ∈ fieldsOfAll bundle type origin index selections,
      field.parts = [] ∨ ∃ pair, field = ofPair pair := by
  cases selections with
  | nil => exact fun _ h => absurd h List.not_mem_nil
  | cons selection rest =>
    intro field hf
    rw [fieldsOfAll] at hf
    rcases List.mem_append.1 hf with hf | hf
    · exact parts_fieldsOf _ _ field hf
    · exact parts_fieldsOfAll _ _ _ field hf
end

theorem parts_fieldsOfParts (parts : List Part) :
    ∀ field ∈ fieldsOfParts bundle type parts, field.parts = [] ∨ ∃ pair, field = ofPair pair := by
  intro field hf
  obtain ⟨part, -, hf⟩ := List.mem_flatMap.1 hf
  exact parts_fieldsOfAll _ _ _ field hf

theorem exists_pairs {fields : List Collected} (h : ∀ field ∈ fields, ∃ pair, field = ofPair pair) :
    ∃ pairs : List (Field × Part), fields = pairs.map ofPair := by
  induction fields with
  | nil => exact ⟨[], rfl⟩
  | cons field rest ih =>
    obtain ⟨pair, rfl⟩ := h field List.mem_cons_self
    obtain ⟨pairs, rfl⟩ := ih fun other ho => h other (List.mem_cons_of_mem _ ho)
    exact ⟨pair :: pairs, rfl⟩

theorem joined_leaf {first : Collected} (rest : List Collected) (h : first.parts = []) :
    joined (first :: rest) = some first := by
  have hfold : ∀ rest : List Collected,
      rest.foldl (fun found field => found.extend field.parts) first = first := by
    intro rest
    induction rest with
    | nil => rfl
    | cons field rest ih =>
      have hext : first.extend field.parts = first := by
        unfold extend
        rw [h]
      rw [List.foldl_cons, hext, ih]
  exact congrArg some (hfold rest)

theorem mem_fieldsOn {parts : List Part} {field : Collected}
    (h : field ∈ fieldsOfParts bundle type parts) :
    field.selection ∈ Selection.fieldsOnAll bundle type (Part.merged parts).selections := by
  rw [← selections_fieldsOfParts]
  exact List.mem_map_of_mem h

/-- Each field of placed parts comes with a placed set, if it has one. -/
theorem placed_fieldsOfParts {set : SelectionSet} {table : Nat → Option SelectionSet}
    {parts : List Part}
    (h : ∀ part ∈ parts, part.Placed set table) :
    ∀ field ∈ fieldsOfParts bundle type parts, ∀ part ∈ field.parts, part.Placed set table := by
  intro field hf part hp
  refine ⟨located_fieldsOfParts (fun other ho => (h other ho).located)
    (fun other ho => (h other ho).registered) field hf part hp, ?_⟩
  obtain hnil | ⟨pair, rfl⟩ := parts_fieldsOfParts parts field hf
  · rw [hnil] at hp
    cases hp
  · obtain rfl := List.mem_singleton.1 hp
    have hmerged : Selection.EverywhereAll (Selection.Registered table) (Part.merged parts).selections := by
      refine Selection.everywhereAll_iff.2 fun selection hs => ?_
      obtain ⟨part, hp, hs⟩ := List.mem_flatMap.1 hs
      exact Selection.everywhereAll_iff.1 (h part hp).registered selection hs
    exact (Selection.everywhereAll_iff.1 (Selection.everywhere_fieldsOnAll hmerged) _
      (mem_fieldsOn hf)).2

/-- The fields of one key: none, or a leaf and others, or fields with sets on one type. -/
theorem group_cases {parts : List Part} (key : String)
    (ha : Selection.Agree
      (Selection.fieldsOnAll bundle type (Part.merged parts).selections)) :
    (fieldsOfParts bundle type parts).filter (·.key == key) = [] ∨
    (∃ field rest, (fieldsOfParts bundle type parts).filter (·.key == key) =
      ⟨field, []⟩ :: rest) ∨
    ∃ pair pairs, (fieldsOfParts bundle type parts).filter (·.key == key) =
      (pair :: pairs).map ofPair ∧ ∀ other ∈ pair :: pairs,
        other.1.connection = pair.1.connection ∧
          other.2.set.typeName = pair.2.set.typeName := by
  cases hg : (fieldsOfParts bundle type parts).filter (·.key == key) with
  | nil => exact .inl rfl
  | cons first rest =>
    have hmem : ∀ field ∈ first :: rest, field ∈ fieldsOfParts bundle type parts ∧
        field.key = key := by
      intro field hf
      rw [← hg] at hf
      exact ⟨(List.mem_filter.1 hf).1, by simpa using (List.mem_filter.1 hf).2⟩
    have hkey : ∀ field ∈ first :: rest, ∃ f, field.selection.field? = some f ∧
        f.responseKey = key ∧ f = field.field := by
      intro field hf
      refine ⟨field.field, ?_, (hmem field hf).2, rfl⟩
      unfold Collected.selection
      cases field.parts.head? <;> rfl
    have hagree : ∀ field ∈ first :: rest, field.field.connection = first.field.connection ∧
        field.selection.fieldSet?.map (·.typeName) =
          first.selection.fieldSet?.map (·.typeName) := by
      intro field hf
      obtain ⟨f, hff, hfk, rfl⟩ := hkey field hf
      obtain ⟨g, hgf, hgk, rfl⟩ := hkey first List.mem_cons_self
      exact (ha _ (mem_fieldsOn (hmem field hf).1) _
        (mem_fieldsOn (hmem first List.mem_cons_self).1) _ _ hff hgf (hfk.trans hgk.symm)).2
    obtain hfirst | ⟨pair, rfl⟩ := parts_fieldsOfParts parts first (hmem first List.mem_cons_self).1
    · obtain ⟨field, parts⟩ := first
      obtain rfl : parts = [] := hfirst
      exact .inr (.inl ⟨field, rest, rfl⟩)
    · obtain ⟨pairs, hpairs⟩ := exists_pairs fun field (hf : field ∈ rest) => by
        obtain hleaf | hpair := parts_fieldsOfParts parts field (hmem field (List.mem_cons_of_mem _ hf)).1
        · have hset := (hagree field (List.mem_cons_of_mem _ hf)).2
          unfold Collected.selection at hset
          rw [hleaf] at hset
          cases hset
        · exact hpair
      subst hpairs
      refine .inr (.inr ⟨pair, pairs, rfl, fun other ho => ?_⟩)
      have hother : ofPair other ∈ ofPair pair :: pairs.map ofPair := by
        rw [← List.map_cons]
        exact List.mem_map_of_mem ho
      obtain ⟨hc, ht⟩ := hagree _ hother
      exact ⟨hc, Option.some.inj ht⟩

end Collected

namespace Part

variable {operation : Operation} {bundle : Bundle} {table : Nat → Option SelectionSet}
  {static type : TypeDescriptor}

theorem Sound.merged {parts : List Part}
    (h : ∀ part ∈ parts, part.Sound operation bundle table static) :
    Selection.AllValidOn ⟨bundle, operation.declarations, static⟩ (merged parts).selections ∧
      Selection.EverywhereAll (Selection.Registered table) (merged parts).selections ∧
      Selection.EverywhereAll (Selection.Plain bundle) (merged parts).selections := by
  have hmem : ∀ selection ∈ (Part.merged parts).selections, ∃ part ∈ parts,
      selection ∈ part.set.selections := fun selection hs => List.mem_flatMap.1 hs
  refine ⟨Selection.allValidOn_iff.2 fun selection hs => ?_,
    Selection.everywhereAll_iff.2 fun selection hs => ?_,
    Selection.everywhereAll_iff.2 fun selection hs => ?_⟩
  · obtain ⟨part, hp, hs⟩ := hmem selection hs
    exact Selection.allValidOn_iff.1 (h part hp).valid selection hs
  · obtain ⟨part, hp, hs⟩ := hmem selection hs
    exact Selection.everywhereAll_iff.1 (h part hp).registered selection hs
  · obtain ⟨part, hp, hs⟩ := hmem selection hs
    exact Selection.everywhereAll_iff.1 (h part hp).plain selection hs

theorem Sound.pair {parts : List Part} {pair : Field × Part}
    (h : ∀ part ∈ parts, ∃ static, part.Sound operation bundle table static)
    (hm : Collected.ofPair pair ∈ Collected.fieldsOfParts bundle type parts) :
    pair.1.name ≠ typenameField ∧ ∃ type, pair.2.Sound operation bundle table type := by
  obtain ⟨part, hp, hf⟩ := List.mem_flatMap.1 hm
  obtain ⟨static, hpart⟩ := h part hp
  have hsingle : Collected.ofPair pair ∈ Collected.fieldsOfParts bundle type [part] :=
    List.mem_flatMap.2 ⟨part, List.mem_singleton_self part, hf⟩
  have hparts : ∀ other ∈ [part], other.Sound operation bundle table static :=
    fun other ho => (List.mem_singleton.1 ho) ▸ hpart
  obtain ⟨hvalid, hregistered, hplain⟩ := Sound.merged hparts
  have hfield := Collected.mem_fieldsOn hsingle
  obtain ⟨hn, type, htype, hinner⟩ := Selection.validOn_fieldsOnAll _ hvalid hfield
  refine ⟨hn, type, ?_, htype, hinner, ?_, ?_⟩
  · exact Collected.located_fieldsOfParts (fun other ho => (hparts other ho).located)
      (fun other ho => (hparts other ho).registered) _ hsingle _ List.mem_cons_self
  · exact (Selection.everywhereAll_iff.1 (Selection.everywhere_fieldsOnAll hregistered) _ hfield).2
  · exact (Selection.everywhereAll_iff.1 (Selection.everywhere_fieldsOnAll hplain) _ hfield).2

end Part

section

variable (operation : Operation) (bundle : Bundle) (table : Nat → Option SelectionSet)

def Shape.Sound : Shape → Prop
  | .raw => True
  | .object static parts =>
    parts ≠ [] ∧ ∀ part ∈ parts, part.Sound operation bundle table static
  | .connection type parts nodeType nodes =>
    (parts ≠ [] ∧ ∀ part ∈ parts, part.Sound operation bundle table type) ∧
      nodes.Sound operation bundle table nodeType

/-- The anchor of a place stands above it. -/
def Position.Sound (position : Position) : Prop :=
  ∀ anchor, position.anchor = some anchor → anchor.depth < position.path.length

def Spot.Sound (spot : Spot) : Prop :=
  spot.shape.Sound operation bundle table ∧ spot.position.Sound

end

variable {operation : Operation} {bundle : Bundle} {table : Nat → Option SelectionSet}

theorem Shape.sound_ofCollected {static type : TypeDescriptor} {parts : List Part}
    {key : String} {collected : Collected}
    (h : ∀ part ∈ parts, part.Sound operation bundle table static)
    (ha : Selection.Agree
      (Selection.fieldsOnAll bundle type (Part.merged parts).selections))
    (hj : Collected.joined ((Collected.fieldsOfParts bundle type parts).filter (·.key == key)) =
      some collected) :
    (ofCollected bundle collected).Sound operation bundle table := by
  obtain hnil | ⟨field, rest, hleaf⟩ | ⟨pair, pairs, hpairs, hsame⟩ :=
    Collected.group_cases key ha
  · rw [hnil] at hj
    cases hj
  · rw [hleaf, Collected.joined_leaf rest rfl] at hj
    obtain rfl := Option.some.inj hj
    trivial
  · rw [hpairs, Collected.joined_ofPair] at hj
    obtain rfl := Option.some.inj hj
    have hmem : ∀ other ∈ pair :: pairs,
        Collected.ofPair other ∈ Collected.fieldsOfParts bundle type parts := by
      intro other ho
      have hf : Collected.ofPair other ∈
          (Collected.fieldsOfParts bundle type parts).filter (·.key == key) := by
        rw [hpairs]
        exact List.mem_map_of_mem ho
      exact (List.mem_filter.1 hf).1
    have hsound : ∀ inner, bundle.get? pair.2.set.typeName = some inner →
        ∀ part ∈ pair.2 :: (pairs.map Prod.snd).dropWhile (·.origin = pair.2.origin),
          part.Sound operation bundle table inner := by
      intro inner hi part hp
      obtain ⟨other, ho, rfl⟩ : ∃ other ∈ pair :: pairs, part = other.2 := by
        rcases List.mem_cons.1 hp with rfl | hp
        · exact ⟨pair, List.mem_cons_self, rfl⟩
        · obtain ⟨other, ho, rfl⟩ := List.mem_map.1 ((List.dropWhile_sublist _).subset hp)
          exact ⟨other, List.mem_cons_of_mem _ ho, rfl⟩
      obtain ⟨-, found, hf⟩ := Part.Sound.pair (fun part hp => ⟨static, h part hp⟩) (hmem other ho)
      have hknown := hf.known
      rw [(hsame other ho).2, hi] at hknown
      obtain rfl := Option.some.inj hknown
      exact hf
    obtain hraw | ⟨first, more, inner, hparts, hi, hshape⟩ := ofCollected_cases bundle _
    · rw [hraw]
      trivial
    · obtain ⟨rfl, -⟩ := List.cons.inj hparts
      have hobject := hsound inner hi
      obtain hone | ⟨nodes, nodeType, -, hnodes, hn, hconnection⟩ := hshape
      · rw [hone]
        exact ⟨by simp, hobject⟩
      · rw [hconnection]
        refine ⟨⟨by simp, hobject⟩, ?_⟩
        obtain ⟨found, hf⟩ := Part.Sound.nodes (fun part hp => ⟨inner, hobject part hp⟩) hnodes
        have hknown := hf.known
        rw [hn] at hknown
        obtain rfl := Option.some.inj hknown
        exact hf

namespace Decoder

variable {decoder : Decoder}

/-- What `enter` makes of a position: the object is the anchor, or the anchor stays. -/
theorem enter_cases (position : Position) (type : TypeDescriptor) (set : SelectionSet)
    (entries : List (String × Json)) :
    (enter position type set entries).path = position.path ∧
      ((enter position type set entries).anchor = position.anchor ∨
        ∃ id, (Keyed.find? "id" entries) = some (.str id) ∧ type.implementsNode = true ∧
          (enter position type set entries).anchor =
            some ⟨id, type.name, set, position.path.length⟩) := by
  unfold enter
  split
  · rename_i hnode
    cases hid : Keyed.find? "id" entries with
    | none => exact ⟨rfl, .inl rfl⟩
    | some json =>
      cases json with
      | str id => exact ⟨rfl, .inr ⟨id, rfl, hnode, rfl⟩⟩
      | _ => exact ⟨rfl, .inl rfl⟩
  · exact ⟨rfl, .inl rfl⟩

theorem path_enter_child (position : Position) (type : TypeDescriptor) (set : SelectionSet)
    (entries : List (String × Json)) (key : String) :
    ((enter position type set entries).child key).path = position.path ++ [key] := by
  rw [Position.child, (enter_cases position type set entries).1]

theorem sound_enter_child {position : Position} (h : position.Sound) (type : TypeDescriptor)
    (set : SelectionSet) (entries : List (String × Json)) (key : String) :
    ((enter position type set entries).child key).Sound := by
  intro anchor ha
  rw [path_enter_child, List.length_append]
  change (enter position type set entries).anchor = some anchor at ha
  rcases (enter_cases position type set entries).2 with hold | ⟨id, -, -, hnew⟩
  · have hdepth := h anchor (hold.symm.trans ha)
    omega
  · obtain rfl := Option.some.inj (hnew.symm.trans ha)
    exact Nat.lt_succ_self _

theorem step?_sound {spot next : Spot} {move : Move}
    (h : spot.Sound operation decoder.bundle table)
    (ha : ∀ model, decoder.read spot = .object model →
      Selection.Agree (Selection.fieldsOnAll decoder.bundle model.type model.head.set.selections))
    (hs : decoder.step? spot move = some next) :
    next.Sound operation decoder.bundle table := by
  obtain ⟨hshape, hposition⟩ := h
  cases steps_of_step? hs with
  | field hj _ =>
    exact ⟨Shape.sound_ofCollected hshape.2 (ha _ rfl) hj, sound_enter_child hposition _ _ _ _⟩
  | node _ => exact ⟨⟨by simp, fun part hp => (List.mem_singleton.1 hp) ▸ hshape.2⟩, hposition⟩
  | object _ => exact ⟨hshape, hposition⟩
  | connection _ => exact ⟨hshape.1, hposition⟩

/-- The fields of every object in a decoded value agree. -/
def Agrees (decoder : Decoder) (decoded : Decoded) : Prop :=
  ∀ address model, decoded.at? address = some (.object model) →
    Selection.Agree (Selection.fieldsOnAll decoder.bundle model.type model.head.set.selections)

theorem Agrees.move {decoded inner : Decoded} {move : Move} (h : decoder.Agrees decoded)
    (hm : decoded.move? move = some inner) : decoder.Agrees inner := by
  intro address model ha
  refine h (move :: address) model ?_
  rw [Decoded.at?, hm]
  exact ha

theorem follow?_sound {spot next : Spot} {address : List Move}
    (h : spot.Sound operation decoder.bundle table) (ha : decoder.Agrees (decoder.read spot))
    (hs : decoder.follow? spot address = some next) :
    next.Sound operation decoder.bundle table ∧ decoder.Agrees (decoder.read next) := by
  induction address generalizing spot with
  | nil =>
    obtain rfl := Option.some.inj hs
    exact ⟨h, ha⟩
  | cons move rest ih =>
    obtain ⟨between, hb, hs⟩ := Option.bind_eq_some_iff.1 hs
    refine ih (step?_sound h (fun model hm => ha [] model (by rw [hm]; rfl)) hb) ?_ hs
    have hmove : (decoder.read spot).move? move = some (decoder.read between) := by
      rw [move?_read, hb]
      rfl
    exact ha.move hmove

end Decoder

end GraphQLClient
