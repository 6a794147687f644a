import Mathlib.Data.List.TakeWhile
import GraphQLClient.Proofs.Decoding.Sound
import GraphQLClient.Proofs.Paging.Trails

set_option autoImplicit false

/-!
# Trails through responses

Where an address of keys leads through objects to a connection, the selections have a trail with these
keys, and the data walk along it. Such a walk is all that is needed to get there, also with other
selections that have the same trail.
-/

namespace GraphQLClient

namespace Selection

variable {bundle : Bundle}

theorem along_merged {trail : List Leg} {parts : List Part} :
    Along bundle trail (Part.merged parts).selections ↔
      ∀ part ∈ parts, Along bundle trail part.set.selections := by
  change Along bundle trail (parts.flatMap (·.set.selections)) ↔ _
  induction parts with
  | nil =>
    refine ⟨fun _ _ h => absurd h List.not_mem_nil, fun _ => ?_⟩
    cases trail with
    | nil => trivial
    | cons leg rest => exact along_of_taken_eq_nil rfl
  | cons part rest ih => simp [along_append, ih]

theorem ends_merged (trail : List Leg) (parts : List Part) :
    ends bundle trail (Part.merged parts).selections =
      parts.flatMap fun part => ends bundle trail part.set.selections := by
  change ends bundle trail (parts.flatMap (·.set.selections)) = _
  induction parts with
  | nil =>
    cases trail with
    | nil => rfl
    | cons leg rest => exact ends_of_taken_eq_nil rfl
  | cons part rest ih => rw [List.flatMap_cons, ends_append, ih, List.flatMap_cons]

theorem taken_merged (leg : Leg) (parts : List Part) :
    taken bundle leg (Part.merged parts).selections =
      ((Collected.fieldsOfParts bundle leg.type parts).filter (·.key == leg.key)).map
        Collected.selection := by
  rw [Collected.filter_selections, Collected.selections_fieldsOfParts]
  rfl

end Selection

theorem Part.placed_group {bundle : Bundle} {type : TypeDescriptor} {set : SelectionSet}
    {table : Nat → Option SelectionSet} {parts : List Part} {key : String} {pair : Field × Part}
    {pairs : List (Field × Part)} (hp : ∀ part ∈ parts, part.Placed set table)
    (hg : (Collected.fieldsOfParts bundle type parts).filter (·.key == key) =
      (pair :: pairs).map Collected.ofPair) :
    ∀ part ∈ pair.2 :: pairs.map Prod.snd, part.Placed set table := by
  intro part hm
  rw [← List.map_cons (f := Prod.snd)] at hm
  obtain ⟨other, ho, rfl⟩ := List.mem_map.1 hm
  have hfield : Collected.ofPair other ∈ Collected.fieldsOfParts bundle type parts := by
    have hmem := List.mem_map_of_mem (f := Collected.ofPair) ho
    rw [← hg] at hmem
    exact (List.mem_filter.1 hmem).1
  exact Collected.placed_fieldsOfParts hp _ hfield _ List.mem_cons_self

namespace Collected

variable {bundle : Bundle} {set : SelectionSet} {table : Nat → Option SelectionSet}

/-- The sets that are kept of fields with one key. -/
def kept (first : Part) (others : List Part) : List Part :=
  first :: others.dropWhile (·.origin = first.origin)

theorem kept_subset (first : Part) (others : List Part) :
    ∀ part ∈ kept first others, part ∈ first :: others := by
  intro part hp
  rcases List.mem_cons.1 hp with rfl | hp
  · exact List.mem_cons_self
  · exact List.mem_cons_of_mem _ ((List.dropWhile_sublist _).subset hp)

/-- Sets that are left out are there already. -/
theorem exists_kept {first : Part} {others : List Part}
    (hl : ∀ part ∈ first :: others, part.Located set table) :
    ∀ part ∈ first :: others, ∃ other ∈ kept first others, other.set = part.set := by
  intro part hp
  rcases List.mem_cons.1 hp with rfl | hp
  · exact ⟨part, List.mem_cons_self, rfl⟩
  · rw [← List.takeWhile_append_dropWhile (p := (·.origin = first.origin)) (l := others)] at hp
    rcases List.mem_append.1 hp with hp | hp
    · have horigin : part.origin = first.origin := by
        simpa using List.mem_takeWhile_imp hp
      have hpart := hl part (List.mem_cons_of_mem _ ((List.takeWhile_sublist _).subset hp))
      have hfirst := hl first List.mem_cons_self
      rw [Part.Located, horigin] at hpart
      exact ⟨first, List.mem_cons_self, Option.some.inj (hfirst.symm.trans hpart)⟩
    · exact ⟨part, List.mem_cons_of_mem _ hp, rfl⟩

/-- What is found first in a list of sets is found first in those that are kept. -/
theorem head?_kept {β : Type} (find : SelectionSet → List β) {first : Part} {others : List Part}
    (hl : ∀ part ∈ first :: others, part.Located set table) :
    ((kept first others).flatMap fun part => find part.set).head? =
      ((first :: others).flatMap fun part => find part.set).head? := by
  unfold kept
  induction others with
  | nil => rfl
  | cons part rest ih =>
    rw [List.dropWhile_cons]
    split
    · rename_i horigin
      have hset : part.set = first.set := by
        have hpart := hl part (List.mem_cons_of_mem _ List.mem_cons_self)
        have hfirst := hl first List.mem_cons_self
        rw [Part.Located, show part.origin = first.origin by simpa using horigin] at hpart
        exact Option.some.inj (hpart.symm.trans hfirst)
      rw [ih fun other ho => hl other (by
        rcases List.mem_cons.1 ho with rfl | ho
        · exact List.mem_cons_self
        · exact List.mem_cons_of_mem _ (List.mem_cons_of_mem _ ho))]
      simp only [List.flatMap_cons, List.head?_append, hset]
      cases (find first.set).head? <;> rfl
    · rfl

/-- Where all that a leg may mean fits, its fields have sets of one type. -/
theorem group_of_fits {leg : Leg} {last : Bool} {parts : List Part}
    (hf : ∀ selection ∈ Selection.taken bundle leg (Part.merged parts).selections,
      selection.FitsLeg leg last)
    (hne : Selection.taken bundle leg (Part.merged parts).selections ≠ []) :
    ∃ pair pairs, (fieldsOfParts bundle leg.type parts).filter (·.key == leg.key) =
      (pair :: pairs).map ofPair ∧ ∀ other ∈ pair :: pairs,
        other.1.connection = last ∧ other.2.set.typeName = leg.typeName := by
  rw [Selection.taken_merged] at hf hne
  have hpair : ∀ field ∈ (fieldsOfParts bundle leg.type parts).filter (·.key == leg.key),
      ∃ pair, field = ofPair pair := by
    intro field hm
    obtain hleaf | hpair := parts_fieldsOfParts parts field (List.mem_filter.1 hm).1
    · have hfits := hf _ (List.mem_map_of_mem hm)
      rw [Collected.selection, hleaf] at hfits
      exact hfits.elim
    · exact hpair
  obtain ⟨pairs, hpairs⟩ := exists_pairs hpair
  rw [hpairs] at hf hne ⊢
  cases pairs with
  | nil => exact absurd rfl hne
  | cons pair pairs =>
    refine ⟨pair, pairs, rfl, fun other ho => ?_⟩
    have hfits : (ofPair other).selection.FitsLeg leg last :=
      hf _ (List.mem_map_of_mem (List.mem_map_of_mem ho))
    exact ⟨hfits.2, hfits.1⟩

section

variable {leg : Leg} {parts : List Part} {pair : Field × Part} {pairs : List (Field × Part)}

theorem taken_eq_map
    (hg : (fieldsOfParts bundle leg.type parts).filter (·.key == leg.key) =
      (pair :: pairs).map ofPair) :
    Selection.taken bundle leg (Part.merged parts).selections =
      (pair :: pairs).map fun pair => .composite pair.1 pair.2.set.typeName pair.2.set.selections := by
  rw [Selection.taken_merged, hg, List.map_map]
  rfl

/-- One leg of a trail: behind it the trail goes on through the sets that are kept. -/
theorem along_iff_kept {rest : List Leg}
    (hg : (fieldsOfParts bundle leg.type parts).filter (·.key == leg.key) =
      (pair :: pairs).map ofPair)
    (hl : ∀ part ∈ pair.2 :: pairs.map Prod.snd, part.Located set table) :
    Selection.Along bundle (leg :: rest) (Part.merged parts).selections ↔
      (∀ other ∈ pair :: pairs, other.2.set.typeName = leg.typeName ∧
        other.1.connection = rest.isEmpty) ∧
      Selection.Along bundle rest (Part.merged (kept pair.2 (pairs.map Prod.snd))).selections := by
  rw [Selection.Along, taken_eq_map hg, Selection.along_merged]
  constructor
  · intro h
    refine ⟨fun other ho => (h _ (List.mem_map_of_mem ho)).1, fun part hp => ?_⟩
    have hm := kept_subset _ _ part hp
    rw [← List.map_cons (f := Prod.snd)] at hm
    obtain ⟨other, ho, rfl⟩ := List.mem_map.1 hm
    exact (h _ (List.mem_map_of_mem ho)).2
  · intro h selection hs
    obtain ⟨other, ho, rfl⟩ := List.mem_map.1 hs
    refine ⟨h.1 other ho, ?_⟩
    have hm : other.2 ∈ pair.2 :: pairs.map Prod.snd := by
      rw [← List.map_cons (f := Prod.snd)]
      exact List.mem_map_of_mem ho
    obtain ⟨part, hp, hset⟩ := exists_kept hl _ hm
    have halong := h.2 part hp
    rw [hset] at halong
    exact halong

theorem head?_ends_kept {next : Leg} {rest : List Leg}
    (hg : (fieldsOfParts bundle leg.type parts).filter (·.key == leg.key) =
      (pair :: pairs).map ofPair)
    (hl : ∀ part ∈ pair.2 :: pairs.map Prod.snd, part.Located set table) :
    (Selection.ends bundle (leg :: next :: rest) (Part.merged parts).selections).head? =
      (Selection.ends bundle (next :: rest)
        (Part.merged (kept pair.2 (pairs.map Prod.snd))).selections).head? := by
  rw [Selection.ends_next, taken_eq_map hg, Selection.ends_merged,
    head?_kept (fun set => Selection.ends bundle (next :: rest) set.selections) hl,
    ← List.map_cons (f := Prod.snd), List.flatMap_map, List.flatMap_map]
  rfl

end

end Collected

namespace Decoder

variable {decoder : Decoder} {set : SelectionSet} {table : Nat → Option SelectionSet}

/-- The entries of an object of type `static` lead along a trail to the entries `found`. -/
def Walks (decoder : Decoder) : List Leg → TypeDescriptor → List (String × Json) →
    List (String × Json) → Prop
  | [], _, entries, found => entries = found
  | leg :: rest, static, entries, found =>
    leg.type = decoder.concreteType static entries ∧
      ∃ inner below, Keyed.find? leg.key entries = some (.obj inner) ∧
        decoder.bundle.get? leg.typeName = some below ∧ decoder.Walks rest below inner found

/-- A field whose fields have sets is read by the sets that are kept of them. -/
theorem step?_group {leg : Leg} {static : TypeDescriptor} {parts : List Part}
    {entries : List (String × Json)} {json : Json} {spot : Spot} {pair : Field × Part}
    {pairs : List (Field × Part)} (hs : spot.shape = .object static parts)
    (hj : spot.json = .obj entries) (ht : leg.type = decoder.concreteType static entries)
    (hg : (Collected.fieldsOfParts decoder.bundle leg.type parts).filter (·.key == leg.key) =
      (pair :: pairs).map Collected.ofPair)
    (hk : Keyed.find? leg.key entries = some json) :
    ∃ next, decoder.step? spot (.key leg.key) = some next ∧ next.json = json ∧
      next.shape = .ofCollected decoder.bundle
        ⟨pair.1, Collected.kept pair.2 (pairs.map Prod.snd)⟩ := by
  rw [step?_key hs hj, ← ht, hg, Collected.joined_ofPair, hk]
  exact ⟨_, rfl, rfl, rfl⟩

theorem ofCollected_eq_object {field : Field} {part : Part} {more : List Part}
    {type : TypeDescriptor} (hc : field.connection = false)
    (ht : decoder.bundle.get? part.set.typeName = some type) :
    Shape.ofCollected decoder.bundle ⟨field, part :: more⟩ = .object type (part :: more) := by
  simp only [Shape.ofCollected, ht, hc, Bool.false_eq_true, if_false]

/-- Walking a trail through data, one gets to what is read by the first end of the trail. -/
theorem follow?_of_walks {leg : Leg} {rest : List Leg} {static : TypeDescriptor} {parts : List Part}
    {entries found : List (String × Json)} {spot : Spot} {selection : Selection}
    (hs : spot.shape = .object static parts) (hj : spot.json = .obj entries)
    (hp : ∀ part ∈ parts, part.Placed set table)
    (hw : decoder.Walks (leg :: rest) static entries found)
    (ha : Selection.Along decoder.bundle (leg :: rest) (Part.merged parts).selections)
    (he : (Selection.ends decoder.bundle (leg :: rest) (Part.merged parts).selections).head? =
      some selection) :
    ∃ last field part more type,
      decoder.follow? spot ((leg :: rest).map fun leg => .key leg.key) = some last ∧
      last.json = .obj found ∧ last.shape = .ofCollected decoder.bundle ⟨field, part :: more⟩ ∧
      decoder.bundle.get? part.set.typeName = some type ∧
      selection = .composite field part.set.typeName part.set.selections ∧
      ∀ other ∈ part :: more, other.Placed set table := by
  induction rest generalizing leg static parts entries spot with
  | nil =>
    obtain ⟨ht, inner, below, hk, hb, rfl⟩ := hw
    obtain ⟨pair, pairs, hg, hall⟩ :=
      Collected.group_of_fits (fun s hm => (ha s hm).1) (Selection.taken_ne_nil he)
    rw [← (hall pair List.mem_cons_self).2] at hb
    obtain ⟨last, hstep, hjson, hshape⟩ := step?_group hs hj ht hg hk
    refine ⟨last, pair.1, pair.2, _, below, ?_, hjson, hshape, hb, ?_, ?_⟩
    · rw [List.map_singleton, follow?, hstep]
      rfl
    · rw [Selection.ends, Collected.taken_eq_map hg] at he
      exact (Option.some.inj he).symm
    · intro part hm
      exact Part.placed_group hp hg part (Collected.kept_subset _ _ part hm)
  | cons next rest ih =>
    obtain ⟨ht, inner, below, hk, hb, hw⟩ := hw
    obtain ⟨pair, pairs, hg, hall⟩ :=
      Collected.group_of_fits (fun s hm => (ha s hm).1) (Selection.taken_ne_nil he)
    have hplaced := Part.placed_group hp hg
    have hlocated : ∀ part ∈ pair.2 :: pairs.map Prod.snd, part.Located set table :=
      fun part hm => (hplaced part hm).located
    have hfirst := hall pair List.mem_cons_self
    rw [← hfirst.2] at hb
    obtain ⟨inside, hstep, hjson, hshape⟩ := step?_group hs hj ht hg hk
    obtain ⟨last, field, part, more, type, hlast, hrest⟩ := ih
      (hshape.trans (ofCollected_eq_object hfirst.1 hb)) hjson
      (fun part hm => hplaced part (Collected.kept_subset _ _ part hm)) hw
      ((Collected.along_iff_kept hg hlocated).1 ha).2
      ((Collected.head?_ends_kept hg hlocated).symm.trans he)
    refine ⟨last, field, part, more, type, ?_, hrest⟩
    rw [List.map_cons, follow?, hstep]
    exact hlast

/-- A trail whose first end is a connection leads to its nodes. -/
theorem follow?_connection {leg : Leg} {rest : List Leg} {static nodeType : TypeDescriptor}
    {parts : List Part} {entries found : List (String × Json)} {spot : Spot} {selection : Selection}
    {nodes : SelectionSet} (hs : spot.shape = .object static parts) (hj : spot.json = .obj entries)
    (hp : ∀ part ∈ parts, part.Placed set table)
    (hw : decoder.Walks (leg :: rest) static entries found)
    (ha : Selection.Along decoder.bundle (leg :: rest) (Part.merged parts).selections)
    (he : (Selection.ends decoder.bundle (leg :: rest) (Part.merged parts).selections).head? =
      some selection)
    (hn : selection.connectionNodeSet? = some nodes)
    (ht : decoder.bundle.get? nodes.typeName = some nodeType) :
    ∃ last type parts part,
      decoder.follow? spot ((leg :: rest).map fun leg => .key leg.key) = some last ∧
      last.json = .obj found ∧ last.shape = .connection type parts nodeType part ∧
      part.set = nodes ∧ part.Placed set table := by
  obtain ⟨last, field, part, more, type, hlast, hjson, hshape, htype, rfl, hplaced⟩ :=
    follow?_of_walks hs hj hp hw ha he
  change (if field.connection = true then part.set.nodeSet? else none) = some nodes at hn
  split at hn
  · rename_i hc
    obtain ⟨origin, hnodes⟩ := Part.nodes?_cons more hn
    refine ⟨last, type, part :: more, ⟨origin, nodes⟩, hlast, hjson, ?_, rfl, ?_⟩
    · rw [hshape]
      simp only [Shape.ofCollected, htype, hc, hnodes, ht, if_true]
    · exact Part.Placed.nodes hplaced hnodes
  · cases hn

variable {operation : Operation} {static : TypeDescriptor} {parts : List Part}
  {entries : List (String × Json)} {spot next last : Spot}

theorem nodeSet?_connectionSet (scope : Scope) (edges node info : TypeDescriptor)
    (typeName : String) (nodes : List Selection) :
    SelectionSet.nodeSet? ⟨typeName, scope.connectionSet edges node info nodes⟩ =
      some ⟨node.name, nodes⟩ := by
  have hedges : SelectionSet.below? ⟨typeName, scope.connectionSet edges node info nodes⟩ "edges" =
      some ⟨edges.name, (scope.within edges).opening ++
        [.leaf (.plain "cursor"), .composite (.plain "node") node.name nodes]⟩ := by
    rw [SelectionSet.below?, SelectionSet.find?, Scope.connectionSet, List.find?_append,
      Scope.find?_opening (by decide) (by decide)]
    rfl
  rw [SelectionSet.nodeSet?, hedges, Option.bind_some, SelectionSet.below?, SelectionSet.find?,
    List.find?_append, Scope.find?_opening (by decide) (by decide)]
  rfl

/-- A connection in the shape that the builder gives it is decoded as one. -/
theorem ofCollected_eq_connection {field : Field} {part : Part} {more : List Part}
    {type : TypeDescriptor} (hc : field.connection = true)
    (hs : ∀ other ∈ part :: more, other.Sound operation decoder.bundle table type)
    (hf : (Selection.composite field part.set.typeName part.set.selections).Furnished
      decoder.bundle) :
    ∃ nodeType nodes, part.set.nodeSet? = some nodes.set ∧
      decoder.bundle.get? nodes.set.typeName = some nodeType ∧
      Shape.ofCollected decoder.bundle ⟨field, part :: more⟩ =
        .connection type (part :: more) nodeType nodes := by
  obtain ⟨child, edges, node, info, nodes, -, hname, -, hset⟩ := hf hc
  have hnode : part.set.nodeSet? = some ⟨node.name, nodes⟩ := by
    have h := nodeSet?_connectionSet child edges node info part.set.typeName nodes
    rw [← hset] at h
    exact h
  obtain ⟨origin, hnodes⟩ := Part.nodes?_cons more hnode
  obtain ⟨nodeType, hfound⟩ := Part.Sound.nodes (fun other ho => ⟨type, hs other ho⟩) hnodes
  have hknown := hfound.known
  have htype := (hs part List.mem_cons_self).known
  refine ⟨nodeType, _, hnode, hknown, ?_⟩
  simp only [Shape.ofCollected, htype, hc, hnodes, hknown, if_true]

/-- A step to what is not kept as it came goes to fields with sets on one type. -/
theorem group_of_step {key : String} (hs : spot.shape = .object static parts)
    (hj : spot.json = .obj entries) (h : spot.Sound operation decoder.bundle table)
    (ha : decoder.Agrees (decoder.read spot)) (hn : decoder.step? spot (.key key) = some next)
    (hraw : next.shape ≠ .raw) :
    ∃ pair pairs type,
      (Collected.fieldsOfParts decoder.bundle (decoder.concreteType static entries) parts).filter
        (·.key == key) = (pair :: pairs).map Collected.ofPair ∧
      (∀ other ∈ pair :: pairs, other.1.connection = pair.1.connection ∧
        other.2.set.typeName = pair.2.set.typeName) ∧
      (∀ part ∈ pair.2 :: pairs.map Prod.snd, part.Sound operation decoder.bundle table type) ∧
      (Selection.composite pair.1 pair.2.set.typeName pair.2.set.selections).Furnished
        decoder.bundle ∧
      Keyed.find? key entries = some next.json ∧
      next.shape = .ofCollected decoder.bundle
        ⟨pair.1, Collected.kept pair.2 (pairs.map Prod.snd)⟩ := by
  rw [step?_key hs hj] at hn
  obtain ⟨collected, hcollected, hn⟩ := Option.bind_eq_some_iff.1 hn
  obtain ⟨json, hjson, rfl⟩ := Option.map_eq_some_iff.1 hn
  have hsound : ∀ part ∈ parts, part.Sound operation decoder.bundle table static := by
    have hshape := h.1
    rw [hs] at hshape
    exact hshape.2
  have hagree : Selection.Agree (Selection.fieldsOnAll decoder.bundle
      (decoder.concreteType static entries) (Part.merged parts).selections) := by
    refine ha [] (decoder.object static parts spot.mark spot.position entries) ?_
    rw [Decoded.at?, read, hs, hj]
  obtain hnil | ⟨field, rest, hleaf⟩ | ⟨pair, pairs, hpairs, hsame⟩ :=
    Collected.group_cases key hagree
  · rw [hnil] at hcollected
    cases hcollected
  · rw [hleaf, Collected.joined_leaf rest rfl] at hcollected
    obtain rfl := Option.some.inj hcollected
    exact absurd rfl hraw
  · rw [hpairs, Collected.joined_ofPair] at hcollected
    obtain rfl := Option.some.inj hcollected
    have hmem : ∀ other ∈ pair :: pairs, Collected.ofPair other ∈
        Collected.fieldsOfParts decoder.bundle (decoder.concreteType static entries) parts := by
      intro other ho
      have hm := List.mem_map_of_mem (f := Collected.ofPair) ho
      rw [← hpairs] at hm
      exact (List.mem_filter.1 hm).1
    have hfirst := hmem pair List.mem_cons_self
    have hsounds : ∀ part ∈ parts, ∃ static, part.Sound operation decoder.bundle table static :=
      fun part hm => ⟨static, hsound part hm⟩
    obtain ⟨-, type, htype⟩ := Part.Sound.pair hsounds hfirst
    refine ⟨pair, pairs, type, hpairs, hsame, fun part hm => ?_, ?_, hjson, rfl⟩
    · rw [← List.map_cons (f := Prod.snd)] at hm
      obtain ⟨other, ho, rfl⟩ := List.mem_map.1 hm
      obtain ⟨-, found, hfound⟩ := Part.Sound.pair hsounds (hmem other ho)
      have hknown := hfound.known
      rw [(hsame other ho).2, htype.known] at hknown
      obtain rfl := Option.some.inj hknown
      exact hfound
    · obtain ⟨-, -, hplain⟩ := Part.Sound.merged hsound
      exact (Selection.everywhereAll_iff.1 (Selection.everywhere_fieldsOnAll hplain) _
        (Collected.mem_fieldsOn hfirst)).self.furnished

theorem shape_of_step {key : String} (h : decoder.step? spot (.key key) = some next) :
    ∃ static parts entries, spot.shape = .object static parts ∧ spot.json = .obj entries := by
  obtain ⟨shape, position, mark, json⟩ := spot
  cases shape with
  | object static parts =>
    cases json with
    | obj entries => exact ⟨static, parts, entries, rfl, rfl⟩
    | _ => cases h
  | _ => cases json <;> cases h

/-- A trail in the selections of an object leads through the data of the object to a connection. The
first field at its end selects the nodes. -/
structure Arrives (decoder : Decoder) (static : TypeDescriptor) (parts : List Part)
    (entries : List (String × Json)) (trail : List Leg) (selection : Selection)
    (found : List (String × Json)) (nodeType : TypeDescriptor) (part : Part) (last : Spot) : Prop where
  walks : decoder.Walks trail static entries found
  along : Selection.Along decoder.bundle trail (Part.merged parts).selections
  first : (Selection.ends decoder.bundle trail (Part.merged parts).selections).head? = some selection
  nodes : selection.connectionNodeSet? = some part.set
  known : decoder.bundle.get? part.set.typeName = some nodeType
  json : last.json = .obj found
  shape : ∃ type parts, last.shape = .connection type parts nodeType part

namespace Arrives

variable {trail : List Leg} {leg : Leg} {rest : List Leg} {selection : Selection}
  {found : List (String × Json)} {nodeType : TypeDescriptor} {part : Part}

theorem placed (h : decoder.Arrives static parts entries trail selection found nodeType part last)
    (hl : last.Sound operation decoder.bundle table) : part.Placed operation.set table := by
  obtain ⟨type, parts', hshape⟩ := h.shape
  have hsound := hl.1
  rw [hshape] at hsound
  exact ⟨hsound.2.located, hsound.2.registered⟩

/-- The key of a connection. -/
theorem of_step {key : String} (hs : spot.shape = .object static parts)
    (hj : spot.json = .obj entries) (h : spot.Sound operation decoder.bundle table)
    (ha : decoder.Agrees (decoder.read spot)) (hn : decoder.step? spot (.key key) = some last)
    {nodes : List Model} {info : PageInfo} {mark : Option PageMark}
    (hr : decoder.read last = .connection nodes info mark) :
    ∃ leg selection found nodeType part, leg.key = key ∧
      decoder.Arrives static parts entries [leg] selection found nodeType part last := by
  obtain ⟨type, parts', nodeType, part, found, hshape, hjson⟩ := of_read_eq_connection hr
  obtain ⟨pair, pairs, type', hg, hall, hsound, hfurnished, hk, hcollected⟩ :=
    group_of_step hs hj h ha hn (by rw [hshape]; exact Shape.noConfusion)
  have hkept := fun other ho => hsound other (Collected.kept_subset _ _ other ho)
  have hknown := (hsound pair.2 List.mem_cons_self).known
  have hc : pair.1.connection = true := by
    by_contra hc
    rw [hcollected, Collected.kept, ofCollected_eq_object (by simpa using hc) hknown] at hshape
    cases hshape
  obtain ⟨nodeType', part', hnodes, hnode, hconnection⟩ :=
    ofCollected_eq_connection hc hkept hfurnished
  let leg : Leg := ⟨decoder.concreteType static entries, key, pair.2.set.typeName⟩
  have hg' : (Collected.fieldsOfParts decoder.bundle leg.type parts).filter (·.key == leg.key) =
    (pair :: pairs).map Collected.ofPair := hg
  refine ⟨leg, .composite pair.1 pair.2.set.typeName pair.2.set.selections, found, nodeType', part',
    rfl, ⟨⟨rfl, found, type', hjson ▸ hk, hknown, rfl⟩, ?_, ?_, ?_, hnode, hjson,
      ⟨type', _, hcollected.trans hconnection⟩⟩⟩
  · exact (Collected.along_iff_kept hg' fun part hm => (hsound part hm).located).2
      ⟨fun other ho => ⟨(hall other ho).2, (hall other ho).1.trans hc⟩, trivial⟩
  · rw [Selection.ends, Collected.taken_eq_map hg']
    rfl
  · change (if pair.1.connection = true then pair.2.set.nodeSet? else none) = _
    rw [if_pos hc, hnodes]

/-- The key of an object on the way. -/
theorem behind {key : String} {below : TypeDescriptor} {inside : List Part}
    {inner : List (String × Json)} (hs : spot.shape = .object static parts)
    (hj : spot.json = .obj entries) (h : spot.Sound operation decoder.bundle table)
    (ha : decoder.Agrees (decoder.read spot)) (hn : decoder.step? spot (.key key) = some next)
    (hshape : next.shape = .object below inside) (hjson : next.json = .obj inner)
    (hrest : decoder.Arrives below inside inner (leg :: rest) selection found nodeType part last) :
    ∃ first : Leg, first.key = key ∧
      decoder.Arrives static parts entries (first :: leg :: rest) selection found nodeType part
        last := by
  obtain ⟨pair, pairs, type', hg, hall, hsound, hfurnished, hk, hcollected⟩ :=
    group_of_step hs hj h ha hn (by rw [hshape]; exact Shape.noConfusion)
  have hkept := fun other ho => hsound other (Collected.kept_subset _ _ other ho)
  have hknown := (hsound pair.2 List.mem_cons_self).known
  have hc : pair.1.connection = false := by
    by_contra hc
    obtain ⟨_, _, -, -, hconnection⟩ :=
      ofCollected_eq_connection (by simpa using hc) hkept hfurnished
    rw [hcollected, Collected.kept, hconnection] at hshape
    cases hshape
  rw [hcollected, Collected.kept, ofCollected_eq_object hc hknown] at hshape
  obtain ⟨rfl, rfl⟩ := Shape.object.inj hshape
  let first : Leg := ⟨decoder.concreteType static entries, key, pair.2.set.typeName⟩
  have hg' : (Collected.fieldsOfParts decoder.bundle first.type parts).filter (·.key == first.key) =
    (pair :: pairs).map Collected.ofPair := hg
  have hlocated : ∀ part ∈ pair.2 :: pairs.map Prod.snd, part.Located operation.set table :=
    fun part hm => (hsound part hm).located
  refine ⟨first, rfl, ⟨⟨rfl, inner, type', hjson ▸ hk, hknown, hrest.walks⟩, ?_, ?_, hrest.nodes,
    hrest.known, hrest.json, hrest.shape⟩⟩
  · exact (Collected.along_iff_kept hg' hlocated).2
      ⟨fun other ho => ⟨(hall other ho).2, (hall other ho).1.trans hc⟩, hrest.along⟩
  · exact (Collected.head?_ends_kept hg' hlocated).trans hrest.first

end Arrives

/-- Keys that lead from an object to a connection are those of a trail in the selections. -/
theorem exists_arrives {key : String} {keys : List String} (hs : spot.shape = .object static parts)
    (hj : spot.json = .obj entries) (h : spot.Sound operation decoder.bundle table)
    (ha : decoder.Agrees (decoder.read spot))
    (hf : decoder.follow? spot ((key :: keys).map .key) = some last)
    {nodes : List Model} {info : PageInfo} {mark : Option PageMark}
    (hr : decoder.read last = .connection nodes info mark) :
    ∃ leg rest selection found nodeType part, (leg :: rest).map Leg.key = key :: keys ∧
      decoder.Arrives static parts entries (leg :: rest) selection found nodeType part last := by
  induction keys generalizing key static parts entries spot with
  | nil =>
    obtain ⟨next, hn, hlast⟩ := Option.bind_eq_some_iff.1 hf
    obtain rfl := Option.some.inj hlast
    obtain ⟨leg, selection, found, nodeType, part, rfl, harrives⟩ :=
      Arrives.of_step hs hj h ha hn hr
    exact ⟨leg, [], selection, found, nodeType, part, rfl, harrives⟩
  | cons second keys ih =>
    obtain ⟨next, hn, hrest⟩ := Option.bind_eq_some_iff.1 hf
    obtain ⟨after, hstep, -⟩ := Option.bind_eq_some_iff.1 hrest
    obtain ⟨below, inside, inner, hshape, hjson⟩ := shape_of_step hstep
    have hfollow : decoder.follow? spot [.key key] = some next := by
      rw [follow?, hn]
      rfl
    obtain ⟨hnext, hagrees⟩ := follow?_sound h ha hfollow
    obtain ⟨leg, rest, selection, found, nodeType, part, hkeys, harrives⟩ :=
      ih hshape hjson hnext hagrees hrest
    obtain ⟨first, rfl, hfirst⟩ := harrives.behind hs hj h ha hn hshape hjson
    exact ⟨first, leg :: rest, selection, found, nodeType, part, by rw [List.map_cons, hkeys], hfirst⟩

end Decoder

end GraphQLClient
