import Mathlib.Data.List.Nodup
import GraphQLClient.Proofs.Decoding.Thinning
import GraphQLClient.Proofs.Paging.Replays

set_option autoImplicit false

/-!
# Fetching an object again

The set that an object was decoded with may be put together from several fields, each selected on a type
of its own. A query that fetches the object again selects that set on the type of the first of them.
What is selected there twice is left out; otherwise the set stays as it is, as long as the type declares
the fields with sets below them like the types they were selected on. Then the object is decoded to the
same values again.
-/

namespace GraphQLClient

namespace Selection

/-- The type declares the field with the type that the set below it is on. -/
def DeclaredBy (type : TypeDescriptor) : Selection → Prop
  | .composite field typeName _ =>
    (type.field? field.name).map FieldDescriptor.typeName = some typeName
  | _ => True

instance (type : TypeDescriptor) : DecidablePred (DeclaredBy type)
  | .leaf _ => .isTrue trivial
  | .composite field typeName _ =>
    decEq ((type.field? field.name).map FieldDescriptor.typeName) (some typeName)
  | .inlineFragment .. => .isTrue trivial
  | .spread .. => .isTrue trivial

theorem thinned_settled {before : List Selection} {key : String} {selection : Selection}
    (h : Fits before key selection) :
    ∃ kept, settled before key selection = before ++ kept ∧ Thinned before [selection] kept := by
  unfold settled
  cases hf : before.find? (answers key) with
  | none => exact ⟨[selection], rfl, .keep _ (.nil _)⟩
  | some found =>
    exact ⟨[], (List.append_nil _).symm,
      .drop (List.mem_of_find?_eq_some hf) (echoes_of_same (h found hf)) (.nil _)⟩

/-- Spreads of fragments with distinct names are equal if their names are. -/
theorem eq_of_spreads {fragments : List Fragment} (hn : (fragments.map (·.name)).Nodup)
    {a b : Selection} {name : String} (ha : a.SpreadOf fragments) (hb : b.SpreadOf fragments)
    (hna : Scope.spreads name a = true) (hnb : Scope.spreads name b = true) : a = b := by
  cases a <;> cases b <;> first | cases hna | cases hnb | skip
  rename_i serial found condition typeName selections serial' found' condition' typeName' selections'
  have hname : found = found' := (beq_iff_eq.1 hna).trans (beq_iff_eq.1 hnb).symm
  have heq := List.inj_on_of_nodup_map hn ha hb hname
  simp only [Fragment.mk.injEq, SelectionSet.mk.injEq] at heq
  obtain ⟨rfl, rfl, rfl, rfl, rfl⟩ := heq
  rfl

end Selection

namespace Scope

variable {scope : Scope} {fragments : List Fragment}

theorem typeOf?_of_declaredBy {field : Field} {typeName : String} {inner : List Selection}
    (h : (Selection.composite field typeName inner).DeclaredBy scope.type) :
    scope.typeOf? field.name = scope.bundle.get? typeName := by
  obtain ⟨declared, hd, rfl⟩ := Option.map_eq_some_iff.1 h
  rw [typeOf?, hd]
  rfl

/-- What a scope makes of a selection that is valid elsewhere is the selection, or nothing where it is
there already. -/
theorem Rebuilds.thinned {own : Scope} {selection : Selection} {before after : List Selection}
    (hb : scope.bundle = own.bundle) (hv : selection.ValidOn own)
    (hd : selection.DeclaredBy scope.type) (hn : (fragments.map (·.name)).Nodup)
    (hs : selection.SpreadOf fragments) (hbefore : ∀ other ∈ before, other.SpreadOf fragments)
    (h : scope.Rebuilds selection before after) :
    ∃ kept, after = before ++ kept ∧ Selection.Thinned before [selection] kept := by
  cases selection with
  | leaf field =>
    unfold Rebuilds at h
    obtain ⟨⟨-, hfits⟩, rfl⟩ := h
    exact Selection.thinned_settled hfits
  | composite field typeName inner =>
    unfold Selection.ValidOn at hv
    unfold Rebuilds at h
    obtain ⟨type, ht, ⟨hname, -, hdistinct⟩, hi⟩ := hv
    obtain ⟨type', inner', ht', hr, rfl⟩ := h
    obtain rfl : typeName = type.name := hname
    have htype : scope.typeOf? field.name = some type := by
      obtain ⟨-, declared, -, hget, -⟩ := ht.1
      rw [typeOf?_of_declaredBy hd, hb]
      exact Bundle.get?_self hget
    obtain rfl := Option.some.inj (ht'.1.1.typeOf?.symm.trans htype)
    have halike : (own.within type').Alike (scope.within type') := ⟨hb, rfl⟩
    obtain rfl : inner' = inner :=
      RebuildsAll.eq_of_validOn halike hi (show Selection.Distinct ([] ++ inner) from hdistinct) hr
    exact Selection.thinned_settled ht'.2.2
  | inlineFragment condition typeName inner =>
    unfold Selection.ValidOn at hv
    unfold Rebuilds at h
    obtain ⟨target, ht, ⟨hname, -, hdistinct⟩, hi⟩ := hv
    obtain ⟨target', inner', ht', hr, -, rfl⟩ := h
    have htarget := ht'.1
    rw [hb, ht.1] at htarget
    obtain rfl := Option.some.inj htarget
    have halike : (own.within target).Alike (scope.within target) := ⟨hb, rfl⟩
    obtain rfl : inner' = inner :=
      RebuildsAll.eq_of_validOn halike hi (show Selection.Distinct ([] ++ inner) from hdistinct) hr
    obtain rfl : typeName = target.name := hname
    obtain rfl : target.name = condition := Bundle.get?_name ht.1
    exact ⟨_, rfl, .refl _ _⟩
  | spread serial name condition typeName inner =>
    unfold Rebuilds at h
    rw [h.2, spreadBeside]
    split
    · rename_i hany
      obtain ⟨other, ho, hname⟩ := List.any_eq_true.1 hany
      have heq := Selection.eq_of_spreads hn (hbefore other ho) hs hname (beq_self_eq_true name)
      exact ⟨[], (List.append_nil _).symm, .drop ho (heq ▸ .refl _) (.nil _)⟩
    · exact ⟨_, rfl, .refl _ _⟩

theorem RebuildsAll.thinned {selections before after : List Selection}
    (hv : ∀ selection ∈ selections, ∃ own : Scope, scope.bundle = own.bundle ∧ selection.ValidOn own)
    (hd : ∀ selection ∈ selections, selection.DeclaredBy scope.type)
    (hn : (fragments.map (·.name)).Nodup)
    (hs : ∀ selection ∈ selections, selection.SpreadOf fragments)
    (hbefore : ∀ other ∈ before, other.SpreadOf fragments)
    (h : scope.RebuildsAll selections before after) :
    ∃ kept, after = before ++ kept ∧ Selection.Thinned before selections kept := by
  induction selections generalizing before with
  | nil =>
    unfold RebuildsAll at h
    exact ⟨[], by rw [h, List.append_nil], .nil _⟩
  | cons selection rest ih =>
    unfold RebuildsAll at h
    obtain ⟨between, hfirst, hrest⟩ := h
    obtain ⟨own, hb, hvalid⟩ := hv selection List.mem_cons_self
    obtain ⟨kept, rfl, hthin⟩ := Rebuilds.thinned hb hvalid (hd selection List.mem_cons_self) hn
      (hs selection List.mem_cons_self) hbefore hfirst
    have hbetween : ∀ other ∈ before ++ kept, other.SpreadOf fragments := by
      intro other ho
      rcases List.mem_append.1 ho with ho | ho
      · exact hbefore other ho
      · obtain rfl := List.mem_singleton.1 (hthin.subset other ho)
        exact hs other List.mem_cons_self
    obtain ⟨more, rfl, hmore⟩ := ih (fun other ho => hv other (List.mem_cons_of_mem _ ho))
      (fun other ho => hd other (List.mem_cons_of_mem _ ho))
      (fun other ho => hs other (List.mem_cons_of_mem _ ho)) hbetween hrest
    exact ⟨kept ++ more, List.append_assoc _ _ _, hthin.append hmore⟩

end Scope

/-! ## Places of sets on several types -/

section

variable (operation : Operation) (bundle : Bundle) (table : Nat → Option SelectionSet)

/-- Parts that are valid each on a type of its own, of which the first one's is `static`. -/
def Part.AllLawful (static : TypeDescriptor) (parts : List Part) : Prop :=
  bundle.get? (Part.merged parts).typeName = some static ∧
    ∀ part ∈ parts, ∃ type, part.Sound operation bundle table type

def Shape.Lawful : Shape → Prop
  | .raw => True
  | .object static parts => Part.AllLawful operation bundle table static parts
  | .connection type parts nodeType nodes =>
    Part.AllLawful operation bundle table type parts ∧
      Part.AllLawful operation bundle table nodeType [nodes]

end

variable {operation : Operation} {bundle : Bundle} {table : Nat → Option SelectionSet}

namespace Shape

theorem lawful_ofCollected {static type : TypeDescriptor} {parts : List Part} {key : String}
    {collected : Collected} (h : Part.AllLawful operation bundle table static parts)
    (hj : Collected.joined ((Collected.fieldsOfParts bundle type parts).filter (·.key == key)) =
      some collected) :
    (ofCollected bundle collected).Lawful operation bundle table := by
  have hparts : ∀ part ∈ collected.parts, ∃ type, part.Sound operation bundle table type := by
    intro part hp
    obtain ⟨field, hf, hp⟩ := Collected.mem_joined hj part hp
    have hfield := (List.mem_filter.1 hf).1
    obtain hnil | ⟨pair, rfl⟩ := Collected.parts_fieldsOfParts parts field hfield
    · rw [hnil] at hp
      cases hp
    · obtain rfl := List.mem_singleton.1 hp
      exact (Part.Sound.pair h.2 hfield).2
  obtain hraw | ⟨first, more, inner, hmore, ht, hshape⟩ := ofCollected_cases bundle collected
  · rw [hraw]
    trivial
  · have hinner : Part.AllLawful operation bundle table inner collected.parts := by
      rw [hmore] at hparts ⊢
      exact ⟨ht, hparts⟩
    obtain hone | ⟨nodes, nodeType, -, hnodes, hn, hconnection⟩ := hshape
    · rw [hone]
      exact hinner
    · rw [hconnection]
      exact ⟨hinner, hn, fun part hp =>
        (List.mem_singleton.1 hp) ▸ Part.Sound.nodes hparts hnodes⟩

end Shape

namespace Decoder

variable {decoder : Decoder}

theorem step?_lawful {spot next : Spot} {move : Move}
    (h : spot.shape.Lawful operation decoder.bundle table) (hs : decoder.step? spot move = some next) :
    next.shape.Lawful operation decoder.bundle table := by
  cases steps_of_step? hs with
  | field hj _ => exact Shape.lawful_ofCollected h hj
  | node _ => exact h.2
  | object _ => exact h
  | connection _ => exact h.1

theorem follow?_lawful {spot next : Spot} {address : List Move}
    (h : spot.shape.Lawful operation decoder.bundle table)
    (hs : decoder.follow? spot address = some next) :
    next.shape.Lawful operation decoder.bundle table := by
  induction address generalizing spot with
  | nil => exact (Option.some.inj hs) ▸ h
  | cons move rest ih =>
    obtain ⟨between, hb, hs⟩ := Option.bind_eq_some_iff.1 hs
    exact ih (step?_lawful h hb) hs

theorem root_lawful {data : Json} (h : (decoder.root data).Sound operation decoder.bundle table) :
    (decoder.root data).shape.Lawful operation decoder.bundle table := by
  obtain ⟨⟨-, hparts⟩, -⟩ := h
  exact ⟨(hparts _ List.mem_cons_self).known, fun part hp => ⟨_, hparts part hp⟩⟩

end Decoder

/-! ## The query for the object -/

/-- A query for an object again fetches it by its id, with its set. -/
theorem Model.refetch_eq_ok {model : Model} {next : FollowUp} (h : model.refetch = .ok next) :
    ∃ id, ∃ scope : Scope, model.id? = some id ∧ scope.bundle = model.source.bundle ∧
      scope.type = scope.bundle.queryRoot ∧ next.path = [nodeFieldName] ∧
      scope.Fetches id model.head.set.typeName model.head.set scope.opening
        next.operation.set.selections := by
  unfold refetch at h
  split at h
  · cases hid : model.id? with
    | none => simp [hid] at h
    | some id =>
      simp only [hid] at h
      split at h
      · obtain ⟨hb, hpath, -⟩ := FollowUp.ofDraft_eq_ok h
        obtain ⟨scope, hbundle, hroot, -, -, hset⟩ := OperationDraft.set_of_build
          (fun scope => Scope.runs_nodeProgram scope id model.head.set.typeName model.head.set
            scope.opening) hb
        have htype : scope.type = model.source.bundle.queryRoot := (Except.ok.inj hroot).symm
        exact ⟨id, scope, rfl, hbundle, by rw [htype, hbundle], hpath, hset⟩
      · cases h
  · cases h

namespace Decoder

variable {decoder : Decoder}

/-- Values are strings where the data is. -/
theorem str?_value (shape : Shape) (position : Position) (json : Json) :
    (decoder.value shape position json).str? = json.str? := by
  cases json <;> cases shape <;> rfl

theorem applies_concreteType {static : TypeDescriptor}
    (h : decoder.bundle.get? static.name = some static) (entries : List (String × Json)) :
    Collected.applies decoder.bundle static.name (decoder.concreteType static entries) = true := by
  have hcan : static.canBe (decoder.concreteType static entries).name = true :=
    canBe_concreteType static entries
  simp [Collected.applies, h, hcan]

end Decoder

/-- A group of one field with a set is decoded as an object with that set. -/
theorem Collected.StandsFor.shape {set : SelectionSet} {collected : Collected} {field : Field}
    {type : TypeDescriptor} {inner : List Selection}
    (h : collected.StandsFor set table [.composite field type.name inner])
    (ht : bundle.get? type.name = some type) (hc : field.connection = false) :
    Shape.ofCollected bundle collected = .object type collected.parts ∧
      Part.StandFor set table collected.parts inner := by
  obtain ⟨made, parts⟩ := collected
  have hhead := Option.some.inj h.head
  cases parts with
  | nil => cases hhead
  | cons first more =>
    obtain ⟨rfl, hname, -⟩ := Selection.composite.inj hhead
    have hstand := h.below (List.cons_ne_nil _ _)
    rw [List.flatMap_singleton] at hstand
    refine ⟨?_, hstand⟩
    simp only [Shape.ofCollected, ← hname, ht, hc]
    rfl

namespace Decoder

variable {decoder : Decoder}

/-- The answer to a query that fetches an object is decoded on the type of the `node` field, with the
set for the object. -/
theorem get?_fetched (decoder : Decoder) {table : Nat → Option SelectionSet} {scope : Scope}
    {id : String} {nodeType target : TypeDescriptor} {inner : List Selection}
    (object : List (String × Json))
    (hs : decoder.source.operation.set.selections = scope.opening ++
      [.composite (Scope.fetching id) nodeType.name ((scope.within nodeType).narrowed target inner)])
    (hn : decoder.bundle.get? nodeType.name = some nodeType)
    (hr : Selection.EverywhereAll (Selection.Registered table)
      decoder.source.operation.set.selections) :
    ∃ parts position,
      (decoder.decode (.obj [(nodeFieldName, .obj object)])).get? nodeFieldName =
        some (.object (decoder.object nodeType parts none position object)) ∧
      Part.StandFor decoder.source.operation.set table parts
        ((scope.within nodeType).narrowed target inner) := by
  let data : List (String × Json) := [(nodeFieldName, .obj object)]
  have hplaced : (Part.ofOperation decoder.source.operation.set).Placed
      decoder.source.operation.set table := ⟨rfl, hr⟩
  have hfields : (Selection.fieldsOnAll decoder.bundle (decoder.concreteType decoder.rootType data)
      decoder.source.operation.set.selections).filter (Selection.answers nodeFieldName) =
      [.composite (Scope.fetching id) nodeType.name
        ((scope.within nodeType).narrowed target inner)] := by
    let leg : Leg := ⟨decoder.concreteType decoder.rootType data, nodeFieldName, ""⟩
    rw [hs]
    change Selection.taken decoder.bundle leg _ = _
    exact Selection.taken_fetching scope id _ _ rfl
  obtain ⟨-, hnil⟩ | ⟨collected, hgroup, hstands⟩ := Collected.joined_cases decoder.bundle
    (decoder.concreteType decoder.rootType data) hplaced.standFor nodeFieldName
  · rw [Part.ofOperation, hfields] at hnil
    cases hnil
  · rw [Part.ofOperation, hfields] at hstands
    obtain ⟨hshape, hparts⟩ := hstands.shape hn rfl
    refine ⟨collected.parts, (enter .root (decoder.concreteType decoder.rootType data)
      (Part.merged [.ofOperation decoder.source.operation.set]) data).child nodeFieldName, ?_, hparts⟩
    change (decoder.object decoder.rootType [.ofOperation decoder.source.operation.set] none .root
      data).get? nodeFieldName = _
    rw [get?_object, hgroup, Option.bind_some, hshape]
    rfl

section

variable {fragments : List Fragment} {static nodeType : TypeDescriptor} {parts : List Part}
  {mark : Option PageMark} {position : Position} {entries : List (String × Json)} {next : FollowUp}

/-- What a query for an object selects on its type is the set of the object but for repeats. -/
theorem refetch_eq_ok {field : FieldDescriptor}
    (hg : decoder.source.operation.Guided decoder.bundle fragments)
    (hl : Part.AllLawful decoder.source.operation decoder.bundle (Fragment.table fragments) static
      parts)
    (hd : ∀ selection ∈ (Part.merged parts).selections, selection.DeclaredBy static)
    (hf : decoder.bundle.nodeField? = some field)
    (hn : decoder.bundle.get? field.typeName = some nodeType)
    (hq : (decoder.object static parts mark position entries).refetch = .ok next) :
    ∃ id, ∃ scope : Scope, ∃ inner,
      (decoder.object static parts mark position entries).id? = some id ∧
      next.path = [nodeFieldName] ∧
      next.operation.set.selections = scope.opening ++ [.composite (Scope.fetching id) nodeType.name
        ((scope.within nodeType).narrowed static inner)] ∧
      Selection.EverywhereAll (Selection.Registered (Fragment.table fragments))
        next.operation.set.selections ∧
      Selection.Thinned [] (Part.merged parts).selections inner := by
  obtain ⟨hstatic, hparts⟩ := hl
  have hmerged : ∀ selection ∈ (Part.merged parts).selections, ∃ part ∈ parts,
      selection ∈ part.set.selections := fun selection hs => List.mem_flatMap.1 hs
  obtain ⟨id, scope, hid, hbundle, htype, hpath, hfetches⟩ := Model.refetch_eq_ok hq
  change scope.bundle = decoder.bundle at hbundle
  change scope.Fetches id (Part.merged parts).typeName (Part.merged parts) _ _ at hfetches
  have hregistered : Selection.EverywhereAll (Selection.Registered (Fragment.table fragments))
      next.operation.set.selections := by
    refine Scope.everywhere_fetches (Selection.shallow_registered _) trivial hfetches
      (Selection.everywhereAll_iff.2 fun selection hs => ?_)
    obtain ⟨part, hp, hs⟩ := hmerged selection hs
    obtain ⟨own, hown⟩ := hparts part hp
    exact Selection.everywhereAll_iff.1 hown.registered selection hs
  obtain ⟨inner, hrebuilds, hselections⟩ := hfetches.known hbundle htype hf hn hstatic
  obtain ⟨kept, rfl, hthin⟩ : ∃ kept, inner = [] ++ kept ∧
      Selection.Thinned [] (Part.merged parts).selections kept := by
    refine Scope.RebuildsAll.thinned (fun selection hs => ?_) hd hg.defines.nodup_names
      (fun selection hs => ?_) (fun _ h => absurd h List.not_mem_nil) hrebuilds
    · obtain ⟨part, hp, hs⟩ := hmerged selection hs
      obtain ⟨own, hown⟩ := hparts part hp
      exact ⟨⟨decoder.bundle, decoder.source.operation.declarations, own⟩, hbundle,
        Selection.allValidOn_iff.1 hown.valid selection hs⟩
    · obtain ⟨part, hp, hs⟩ := hmerged selection hs
      obtain ⟨own, hown⟩ := hparts part hp
      have hspread := hown.located.everywhere hg.spreadOf fun serial body hbody => by
        obtain ⟨fragment, hfragment, rfl⟩ := Option.map_eq_some_iff.1 hbody
        exact hg.defines.spreadOf fragment (List.mem_of_find?_eq_some hfragment)
      exact (Selection.everywhereAll_iff.1 hspread selection hs).self
  exact ⟨id, scope, inner, hid, hpath, hselections, hregistered, hthin⟩

variable {decoder' : Decoder} {scope : Scope} {inner : List Selection}
  {parts' : List Part} {position' : Position} {object : List (String × Json)} {id key : String}

/-- The `id` of an object is read as a string from whatever set it is selected in. -/
theorem get?_id {set : SelectionSet} {table : Nat → Option SelectionSet}
    {selections : List Selection} (hp : Part.StandFor set table parts selections)
    (hf : (Selection.fieldsOnAll decoder.bundle (decoder.concreteType static entries)
      selections).filter (Selection.answers "id") ≠ [])
    (hj : Keyed.find? "id" entries = some (.str id)) :
    (decoder.object static parts mark position entries).get? "id" = some (.scalar (.str id)) := by
  obtain ⟨-, hnil⟩ | ⟨collected, hgroup, -⟩ := Collected.joined_cases _ _ hp "id"
  · exact absurd hnil hf
  · rw [get?_object, hgroup, hj]
    cases Shape.ofCollected decoder.bundle collected <;> rfl

/-- The id of an object is the string that the response shows for it, if some field is selected under
its key. -/
theorem id?_object :
    (decoder.object static parts mark position entries).id? =
      (Collected.joined ((Collected.fieldsOfParts decoder.bundle (decoder.concreteType static entries)
        parts).filter (·.key == "id"))).bind fun _ => (Keyed.find? "id" entries).bind Json.str? := by
  rw [Model.id?, get?_object]
  cases Collected.joined ((Collected.fieldsOfParts decoder.bundle
    (decoder.concreteType static entries) parts).filter (·.key == "id")) with
  | none => rfl
  | some collected =>
    cases Keyed.find? "id" entries with
    | none => rfl
    | some json => exact str?_value _ _ json

theorem of_id?_eq_some {set : SelectionSet} {table : Nat → Option SelectionSet}
    {selections : List Selection} (hp : Part.StandFor set table parts selections)
    (hid : (decoder.object static parts mark position entries).id? = some id) :
    Keyed.find? "id" entries = some (.str id) ∧
      (Selection.fieldsOnAll decoder.bundle (decoder.concreteType static entries)
        selections).filter (Selection.answers "id") ≠ [] := by
  rw [id?_object] at hid
  obtain ⟨collected, hgroup, hid⟩ := Option.bind_eq_some_iff.1 hid
  obtain ⟨json, hjson, hstr⟩ := Option.bind_eq_some_iff.1 hid
  refine ⟨by cases json <;> cases hstr; exact hjson, fun hnil => ?_⟩
  obtain ⟨hnone, -⟩ | ⟨other, -, hother⟩ := Collected.joined_cases _ _ hp "id"
  · cases hgroup.symm.trans hnone
  · have hhead := hother.head
    rw [hnil] at hhead
    cases hhead

/-- An object whose set stands inside a query for it shows the same values. -/
theorem shown_get?_refetched (pairing : Pairing) (hb : decoder'.bundle = decoder.bundle)
    (hr : decoder'.registry = decoder.registry)
    (hs : decoder.bundle.get? static.name = some static)
    (hold : Part.StandFor pairing.set pairing.table parts (Part.merged parts).selections)
    (hnew : Part.StandFor pairing.set' pairing.table' parts' (scope.narrowed static inner))
    (ht : Selection.Thinned [] (Part.merged parts).selections inner)
    (hid : (decoder.object static parts mark position entries).id? = some id)
    (hc : decoder'.concreteType nodeType object = decoder.concreteType static entries)
    (hj : ∀ key, key ≠ typenameField → Keyed.find? key object = Keyed.find? key entries)
    (hk : key ≠ typenameField) :
    ((decoder.object static parts mark position entries).get? key).map Decoded.shown =
      ((decoder'.object nodeType parts' none position' object).get? key).map Decoded.shown := by
  have happlies := applies_concreteType hs entries
  have hthin : Selection.Thinned []
      ((Selection.fieldsOnAll decoder.bundle (decoder.concreteType static entries)
        (Part.merged parts).selections).filter (Selection.answers key))
      ((Selection.fieldsOnAll decoder.bundle (decoder.concreteType static entries) inner).filter
        (Selection.answers key)) := ht.fieldsOnAll.answers key
  by_cases hi : key = "id"
  · subst hi
    obtain ⟨hfound, hne⟩ := of_id?_eq_some hold hid
    have hne' : (Selection.fieldsOnAll decoder.bundle (decoder.concreteType static entries)
        (scope.narrowed static inner)).filter (Selection.answers "id") ≠ [] := by
      rw [Scope.narrowed, Selection.fieldsOnAll_append, List.filter_append, Selection.fieldsOnAll,
        Selection.fieldsOn, if_pos happlies, Selection.fieldsOnAll, List.append_nil]
      intro hnil
      have hhead := hthin.head?_eq
      rw [(List.append_eq_nil_iff.1 hnil).2] at hhead
      exact hne (List.head?_eq_none_iff.1 hhead.symm)
    have hagain : (decoder'.object nodeType parts' none position' object).get? "id" =
        some (.scalar (.str id)) :=
      get?_id hnew (by rw [hb, hc]; exact hne') ((hj "id" hk).trans hfound)
    rw [get?_id hold hne hfound, hagain]
  · refine shown_get? hb mark none position position' hc (hj key hk)
      (Pairing.group_of_thinned hold hnew ?_) fun json _ => shown_value hb hr json
    let leg : Leg := ⟨decoder.concreteType static entries, key, ""⟩
    change Selection.Thinned [] _ (Selection.taken decoder.bundle leg (scope.narrowed static inner))
    rw [Selection.taken_narrowed happlies hi hk]
    exact hthin

end

/-- An object that is fetched again holds the same values again. -/
theorem drill_refetch {draft : BundleDraft} {fragments : List Fragment} {data : Json}
    {address : List Move} {model : Model} {entries : List (String × Json)} {next : FollowUp}
    {field : FieldDescriptor} {nodeType : TypeDescriptor}
    (hb : draft.build = .ok decoder.bundle)
    (hg : decoder.source.operation.Guided decoder.bundle fragments)
    (hu : Selection.EverywhereAll Selection.Unaliased decoder.source.operation.set.selections)
    (hm : (Decoded.object (decoder.decode data)).at? address = some (.object model))
    (hj : decoder.dataAt? data address = some (.obj entries))
    (hq : model.refetch = .ok next)
    (hf : decoder.bundle.nodeField? = some field)
    (hn : decoder.bundle.get? field.typeName = some nodeType)
    (hc : nodeType.canBe model.type.name = true)
    (hd : ∀ static, decoder.bundle.get? model.head.set.typeName = some static →
      ∀ selection ∈ model.head.set.selections, selection.DeclaredBy static) :
    ∃ again : Model,
      ((decoder.forNext next).decode (.obj [(nodeFieldName,
        .obj (Keyed.insert typenameField (.str model.type.name) entries))])).drill next.path =
        some (.object again) ∧
      again.type = model.type ∧
      ∀ key, key ≠ typenameField →
        (model.get? key).map Decoded.shown = (again.get? key).map Decoded.shown := by
  let table := Fragment.table fragments
  have hroot : (decoder.root data).Sound decoder.source.operation decoder.bundle table :=
    root_sound_of_guided hg (BundleDraft.rooted_of_build hb) hu
  rw [at?_decode] at hm
  obtain ⟨spot, hfollow, hread⟩ := Option.map_eq_some_iff.1 hm
  obtain ⟨static, parts, found, hshape, hjson, rfl⟩ := of_read_eq_object hread
  obtain rfl : found = entries := by
    unfold dataAt? at hj
    rw [hfollow] at hj
    exact Json.obj.inj (hjson.symm.trans (Option.some.inj hj))
  have hlawful : Part.AllLawful decoder.source.operation decoder.bundle table static parts := by
    have h := follow?_lawful (root_lawful hroot) hfollow
    rwa [hshape] at h
  obtain ⟨id, scope, inner, hid, hpath, hselections, hregistered, hthin⟩ :=
    refetch_eq_ok hg hlawful (hd static hlawful.1) hf hn hq
  let object := Keyed.insert typenameField (.str (decoder.concreteType static found).name) found
  obtain ⟨parts', position, hget, hnew⟩ :=
    get?_fetched (decoder.forNext next) object hselections (Bundle.get?_self hn) hregistered
  have hself : decoder.bundle.get? static.name = some static := Bundle.get?_self hlawful.1
  have hconcrete : decoder.bundle.get? (decoder.concreteType static found).name =
      some (decoder.concreteType static found) := get?_concreteType hself
  have htype : (decoder.forNext next).concreteType nodeType object =
      decoder.concreteType static found :=
    concreteType_of_canBe (Bundle.get?_self hn) hconcrete hc (Keyed.find?_insert_self _ _ found)
  have hold : Part.StandFor decoder.source.operation.set table parts
      (Part.merged parts).selections :=
    ⟨fun part hp => (hlawful.2 part hp).elim fun _ h => ⟨h.located, h.registered⟩, .refl _ _⟩
  let pairing : Pairing :=
    ⟨decoder.source.operation.set, table, next.operation.set, table⟩
  refine ⟨(decoder.forNext next).object nodeType parts' none position object,
    by rw [hpath]; exact hget, htype, fun key hk => ?_⟩
  exact shown_get?_refetched pairing rfl rfl hself hold hnew hthin hid htype
    (fun key hk => Keyed.find?_insert_of_ne (Ne.symm hk) _ _) hk

end Decoder

/-- The shop and its products, asked for twice. -/
def doubledDraft : OperationDraft :=
  .ofProgram .query
    [.object "shop" .none
      [.connection "products" ⟨none, [("first", .int 1)]⟩ [.spread sampleFragment]],
     .fragmentOn "Query"
      [.object "shop" .none
        [.field "name" .none,
         .connection "products" ⟨none, [("first", .int 1)]⟩ [.spread sampleFragment]]]]

abbrev doubledDecoder : Decoder := ⟨⟨sampleBundle, doubledDraft.built sampleBundle, []⟩, none⟩

theorem doubled_guided : (doubledDraft.built sampleBundle).Guided sampleBundle [sampleFragment] := by
  refine ⟨sampleFragment_defines, doubledDraft, by rfl, fun fragment hf => ?_,
    OperationDraft.build_eq_built (by decide +kernel)⟩
  simpa [doubledDraft, OperationDraft.ofProgram, Step.fragmentsOfAll, Step.fragments] using hf

/-- The shop can be fetched again, and its type declares what is selected on it. -/
def doubledRequested : Bool :=
  match (Decoded.object (doubledDecoder.decode pagedData)).at? [.key "shop"],
    doubledDecoder.dataAt? pagedData [.key "shop"] with
  | some (.object model), some (.obj _) =>
    match model.refetch, sampleBundle.get? model.head.set.typeName with
    | .ok _, some static => decide (model.type.name = "Shop" ∧
        ∀ selection ∈ model.head.set.selections, selection.DeclaredBy static)
    | _, _ => false
  | _, _ => false

theorem doubled_again :
    ∃ model entries next again,
      (Decoded.object (doubledDecoder.decode pagedData)).at? [.key "shop"] = some (.object model) ∧
      doubledDecoder.dataAt? pagedData [.key "shop"] = some (.obj entries) ∧
      model.refetch = .ok next ∧
      ((doubledDecoder.forNext next).decode (.obj [(nodeFieldName,
        .obj (Keyed.insert typenameField (.str model.type.name) entries))])).drill next.path =
        some (.object again) ∧
      again.type = model.type ∧
      ∀ key, key ≠ typenameField →
        (model.get? key).map Decoded.shown = (again.get? key).map Decoded.shown := by
  have h : doubledRequested = true := by decide +kernel
  unfold doubledRequested at h
  split at h
  · rename_i model entries hmodel hentries
    split at h
    · rename_i next static hnext hstatic
      obtain ⟨hname, hdeclared⟩ := of_decide_eq_true h
      obtain ⟨again, hagain⟩ := @Decoder.drill_refetch doubledDecoder _ _ _ _ _ _ _ _ _
        sampleBundle_build doubled_guided (by decide +kernel) hmodel hentries hnext rfl rfl (by rw [hname]; decide)
        fun other ho => Option.some.inj (hstatic.symm.trans ho) ▸ hdeclared
      exact ⟨model, entries, next, again, hmodel, hentries, hnext, hagain⟩
    · cases h
  · cases h

/-- A thing is declared with a narrower part than what holds it promises. -/
def holdingBundle : Bundle :=
  let field (name type : String) := FieldDescriptor.mk name (.named type) []
  let object (name : String) (node : Bool) (fields : List FieldDescriptor) :=
    TypeDescriptor.mk name .object fields [] node []
  let interface (name : String) (fields : List FieldDescriptor) (types : List String) :=
    TypeDescriptor.mk name .interface fields types false []
  let query := object "Query" false
    [field "holder" "Holder", ⟨"node", .named "Node", [("id", .nonNull (.named "ID"))]⟩]
  ⟨query, none,
    ["ID", "String"].map (TypeDescriptor.ofKind · .scalar) ++
    [query, ⟨"Node", .interface, [field "id" "ID"], ["Thing"], true, []⟩,
     object "Holder" false [field "item" "Thing"],
     interface "Holding" [field "item" "Item"] ["Holder"],
     interface "Item" [field "id" "ID", field "part" "Wide"] ["Thing"],
     object "Thing" true [field "id" "ID", field "part" "Narrow"],
     interface "Wide" [field "name" "String"] ["First", "Second"],
     interface "Narrow" [field "name" "String"] ["First"],
     object "First" false [field "name" "String"],
     object "Second" false [field "name" "String"]]⟩

def holdingDraft : OperationDraft :=
  .ofProgram .query
    [.object "holder" .none
      [.object "item" .none [.field "id" .none],
       .fragmentOn "Holding" [.object "item" .none [.object "part" .none [.field "name" .none]]]]]

abbrev holdingDecoder : Decoder := ⟨⟨holdingBundle, holdingDraft.built holdingBundle, []⟩, none⟩

def holdingData : Json :=
  .obj [("holder", .obj [("item", .obj [("__typename", .str "Thing"), ("id", .str "t1"),
    ("part", .obj [("__typename", .str "Second"), ("name", .str "n1")])])])]

/-- The thing is fetched again, and its part is of one type before and of another after. -/
def holdingChanges : Bool :=
  match (Decoded.object (holdingDecoder.decode holdingData)).at? [.key "holder", .key "item"],
    holdingDecoder.dataAt? holdingData [.key "holder", .key "item"] with
  | some (.object model), some (.obj entries) =>
    match model.refetch with
    | .ok next =>
      match ((holdingDecoder.forNext next).decode (.obj [(nodeFieldName,
        .obj (Keyed.insert typenameField (.str model.type.name) entries))])).drill next.path with
      | some (.object again) =>
        match model.get? "part", again.get? "part" with
        | some (.object part), some (.object part') =>
          decide (model.type.name = "Thing" ∧ part.type.name = "Second" ∧
            part'.type.name = "Narrow")
        | _, _ => false
      | _ => false
    | _ => false
  | _, _ => false

/-- The part of a thing has another type when the thing is fetched again. -/
theorem narrowed_part_changed :
    ∃ model entries next again part part',
      (⟨some "Query", none, holdingBundle.types⟩ : BundleDraft).build = .ok holdingDecoder.bundle ∧
      holdingDecoder.source.operation.Guided holdingDecoder.bundle [] ∧
      Selection.EverywhereAll Selection.Unaliased holdingDecoder.source.operation.set.selections ∧
      (Decoded.object (holdingDecoder.decode holdingData)).at? [.key "holder", .key "item"] =
        some (.object model) ∧
      holdingDecoder.dataAt? holdingData [.key "holder", .key "item"] = some (.obj entries) ∧
      model.refetch = .ok next ∧
      ((holdingBundle.nodeField?.bind fun field => holdingBundle.get? field.typeName).any
        fun nodeType => nodeType.canBe model.type.name) = true ∧
      ((holdingDecoder.forNext next).decode (.obj [(nodeFieldName,
        .obj (Keyed.insert typenameField (.str model.type.name) entries))])).drill next.path =
        some (.object again) ∧
      model.get? "part" = some (.object part) ∧ again.get? "part" = some (.object part') ∧
      part.type.name = "Second" ∧ part'.type.name = "Narrow" := by
  have hbuilt : (holdingDraft.build holdingBundle).result = .ok (holdingDraft.built holdingBundle) :=
    OperationDraft.build_eq_built (by decide +kernel)
  have hguided : holdingDecoder.source.operation.Guided holdingDecoder.bundle [] := by
    refine ⟨.nil, holdingDraft, by rfl, ?_, hbuilt⟩
    simp [holdingDraft, OperationDraft.ofProgram, Step.fragmentsOfAll, Step.fragments]
  have h : holdingChanges = true := by decide +kernel
  unfold holdingChanges at h
  split at h
  · rename_i model entries hmodel hentries
    split at h
    · rename_i next hnext
      split at h
      · rename_i again hagain
        split at h
        · rename_i part part' hpart hpart'
          obtain ⟨hname, htypes⟩ := of_decide_eq_true h
          exact ⟨model, entries, next, again, part, part', rfl, hguided, by decide +kernel, hmodel,
            hentries, hnext, by rw [hname]; decide, hagain, hpart, hpart', htypes⟩
        · cases h
      · cases h
    · cases h
  · cases h

end GraphQLClient
