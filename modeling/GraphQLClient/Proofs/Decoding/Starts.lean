import GraphQLClient.Proofs.Decoding.Sound

set_option autoImplicit false

/-!
# Where decoding starts, and where it can start again

Decoding starts at the root with the set of the operation. From there on every place knows the nearest
object with an id around it.
-/

namespace GraphQLClient

/-- The root types stand in the bundle under their names. -/
structure Bundle.Rooted (bundle : Bundle) : Prop where
  query : bundle.get? bundle.queryRoot.name = some bundle.queryRoot
  mutation : ∀ root, bundle.mutationRoot = some root → bundle.get? root.name = some root

namespace BundleDraft

theorem get?_of_root? {draft : BundleDraft} {name : String} {root : TypeDescriptor} {bundle : Bundle}
    (h : draft.root? name = .ok root) (ht : bundle.types = draft.types) :
    bundle.get? root.name = some root := by
  unfold root? at h
  split at h
  · rename_i type hf
    obtain rfl := Except.ok.inj h
    have hget : bundle.get? name = some type := by rw [Bundle.get?, ht, hf]
    exact Bundle.get?_self hget
  · cases h

theorem rooted_of_build {draft : BundleDraft} {bundle : Bundle} (h : draft.build = .ok bundle) :
    bundle.Rooted := by
  unfold build at h
  split at h
  · cases h
  · split at h
    · cases h
    · rename_i query _ hquery
      split at h
      · obtain rfl := Except.ok.inj h
        exact ⟨get?_of_root? hquery rfl, by rintro _ ⟨⟩⟩
      · rename_i mutation _
        cases hm : draft.root? mutation with
        | error e => simp [hm, Except.map] at h
        | ok root =>
          simp only [hm, Except.map, Except.ok.injEq] at h
          subst h
          refine ⟨get?_of_root? hquery rfl, fun root' hr => ?_⟩
          obtain rfl := Option.some.inj hr
          exact get?_of_root? hm rfl

end BundleDraft

theorem sampleBundle_build :
    (⟨some "Query", none, sampleBundle.types⟩ : BundleDraft).build = .ok sampleBundle := rfl

theorem sampleBundle_issues : sampleBundle.issues = [] := by decide +kernel

theorem Bundle.Rooted.get?_root {bundle : Bundle} (h : bundle.Rooted) {kind : OperationKind}
    {root : TypeDescriptor} (hr : OperationDraft.root? bundle kind = .ok root) :
    bundle.get? root.name = some root := by
  cases kind with
  | query =>
    obtain rfl := Except.ok.inj hr
    exact h.query
  | mutation =>
    rw [OperationDraft.root?] at hr
    cases hm : bundle.mutationRoot with
    | none => simp [hm] at hr
    | some found =>
      simp only [hm, Except.ok.injEq] at hr
      subst hr
      exact h.mutation _ hm

namespace Decoder

variable {decoder : Decoder}

theorem rootType_eq {root : TypeDescriptor} (hr : decoder.bundle.get? root.name = some root)
    (hn : decoder.source.operation.set.typeName = root.name) : decoder.rootType = root := by
  rw [rootType, hn, hr]
  rfl

/-- Decoding starts with sets that are valid where they are. -/
theorem root_sound {operation : Operation} {bundle : Bundle} {table : Nat → Option SelectionSet}
    (hd : decoder.source.bundle = bundle) (ho : decoder.source.operation = operation)
    (hrooted : bundle.Rooted) (hvalid : operation.Valid bundle)
    (hregistered : Selection.EverywhereAll (Selection.Registered table) operation.set.selections)
    (hplain : Selection.EverywhereAll (Selection.Plain bundle) operation.set.selections)
    (data : Json) : (decoder.root data).Sound operation bundle table := by
  obtain ⟨root, hroot, ⟨hname, -, -⟩, hset⟩ := hvalid.root
  have hget := hrooted.get?_root hroot
  subst hd ho
  refine ⟨⟨by simp, fun part hp => ?_⟩, by rintro _ ⟨⟩⟩
  obtain rfl := List.mem_singleton.1 hp
  rw [rootType_eq hget hname]
  exact ⟨rfl, hname ▸ hget, hset, hregistered, hplain⟩

/-- The type of an object is in the bundle if its declared type is. -/
theorem get?_concreteType {static : TypeDescriptor} {entries : List (String × Json)}
    (h : decoder.bundle.get? static.name = some static) :
    decoder.bundle.get? (decoder.concreteType static entries).name =
      some (decoder.concreteType static entries) := by
  unfold concreteType
  split
  · split
    · rename_i concrete hc
      obtain ⟨name, -, hget⟩ := Option.bind_eq_some_iff.1 hc
      split
      · exact Bundle.get?_self hget
      · exact h
    · exact h
  · exact h

/-- An object that names a type which its declared type can be is of that type. -/
theorem concreteType_of_canBe {static concrete : TypeDescriptor} {name : String}
    {entries : List (String × Json)} (hs : decoder.bundle.get? static.name = some static)
    (hc : decoder.bundle.get? name = some concrete) (hcan : static.canBe name = true)
    (hn : Keyed.find? typenameField entries = some (.str name)) :
    decoder.concreteType static entries = concrete := by
  have hname : concrete.name = name := Bundle.get?_name hc
  unfold concreteType
  split
  · have hfound : ((Keyed.find? typenameField entries).bind Json.str?).bind decoder.bundle.get? =
        some concrete := by
      rw [hn]
      exact hc
    simp only [hfound, hname, hcan, if_true]
  · rename_i habstract
    have hsame : static.name = name := by simpa [TypeDescriptor.canBe, habstract] using hcan
    rw [hsame, hc] at hs
    exact (Option.some.inj hs).symm

/-- The type of an object is one that its declared type can be. -/
theorem canBe_concreteType (static : TypeDescriptor) (entries : List (String × Json)) :
    static.canBe (decoder.concreteType static entries).name = true := by
  unfold concreteType
  split
  · split
    · split
      · assumption
      · simp [TypeDescriptor.canBe]
    · simp [TypeDescriptor.canBe]
  · simp [TypeDescriptor.canBe]

/-- The mark of a connection says where it stands. -/
theorem mark_of_read {last : Spot} {nodes : List Model} {info : PageInfo} {mark : PageMark}
    (h : decoder.read last = .connection nodes info (some mark)) :
    mark.path = last.position.path ∧ mark.anchor = last.position.anchor ∧
      mark.source = decoder.source := by
  obtain ⟨type, parts, nodeType, part, entries, hs, hj⟩ := of_read_eq_connection h
  obtain ⟨shape, position, mark', json⟩ := last
  obtain rfl : shape = _ := hs
  obtain rfl : json = _ := hj
  have hvalue : decoder.value (.connection type parts nodeType part) position (.obj entries) =
    .connection nodes info (some mark) := h
  rw [value_connection] at hvalue
  obtain ⟨-, -, hmark⟩ := Decoded.connection.inj hvalue
  obtain ⟨cursor, -, rfl⟩ := Option.map_eq_some_iff.1 hmark
  exact ⟨rfl, rfl, rfl⟩

theorem drill_eq_at? (model : Model) {key : String} {keys : List String} :
    model.drill (key :: keys) = (Decoded.object model).at? ((key :: keys).map .key) := by
  induction keys generalizing key model with
  | nil =>
    rw [Model.drill, List.map_singleton, Decoded.at?, Decoded.move?]
    cases model.get? key <;> rfl
  | cons second keys ih =>
    rw [Model.drill.eq_3 _ _ _ (List.cons_ne_nil second keys), List.map_cons, Decoded.at?,
      Decoded.move?]
    cases model.get? key with
    | none => rfl
    | some found =>
      cases found with
      | object inner => exact ih inner
      | _ => rfl

variable {spot next last : Spot} {static : TypeDescriptor} {parts : List Part}
  {entries : List (String × Json)}

/-- Keys lengthen the path, and the objects that they pass stand below where they start. -/
theorem position_of_follow? {keys : List String} (h : decoder.follow? spot (keys.map .key) = some last) :
    last.position.path = spot.position.path ++ keys ∧
      (last.position.anchor = spot.position.anchor ∨
        ∃ anchor, last.position.anchor = some anchor ∧
          spot.position.path.length ≤ anchor.depth) := by
  induction keys generalizing spot with
  | nil =>
    obtain rfl := Option.some.inj h
    exact ⟨(List.append_nil _).symm, .inl rfl⟩
  | cons key keys ih =>
    obtain ⟨next, hn, hrest⟩ := Option.bind_eq_some_iff.1 h
    obtain ⟨hpath, hanchor⟩ := ih hrest
    obtain ⟨shape, position, mark, json⟩ := spot
    cases shape with
    | object static parts =>
      cases json with
      | obj entries =>
        rw [step?_key rfl rfl] at hn
        obtain ⟨collected, -, hn⟩ := Option.bind_eq_some_iff.1 hn
        obtain ⟨json, -, rfl⟩ := Option.map_eq_some_iff.1 hn
        rw [path_enter_child] at hpath hanchor
        refine ⟨by rw [hpath, List.append_assoc]; rfl, ?_⟩
        rcases hanchor with hsame | ⟨anchor, ha, hdepth⟩
        · rcases (enter_cases position (decoder.concreteType static entries) (Part.merged parts)
            entries).2 with hold | ⟨id, -, -, hnew⟩
          · exact .inl (hsame.trans hold)
          · exact .inr ⟨_, hsame.trans hnew, Nat.le_refl _⟩
        · rw [List.length_append] at hdepth
          exact .inr ⟨anchor, ha, by omega⟩
      | _ => cases hn
    | _ => cases json <;> cases hn

/-- The anchor that stands where some keys start is the object there. -/
theorem anchor_of_follow? {key : String} {keys : List String} {anchor : NodeAnchor}
    (hs : spot.shape = .object static parts) (hj : spot.json = .obj entries)
    (hp : spot.position.Sound) (hf : decoder.follow? spot ((key :: keys).map .key) = some last)
    (ha : last.position.anchor = some anchor)
    (hd : last.position.path.drop anchor.depth = key :: keys) :
    ∃ id, Keyed.find? "id" entries = some (.str id) ∧
      anchor = ⟨id, (decoder.concreteType static entries).name, Part.merged parts,
        spot.position.path.length⟩ := by
  obtain ⟨next, hn, hrest⟩ := Option.bind_eq_some_iff.1 hf
  obtain ⟨hpath, hanchor⟩ := position_of_follow? hrest
  rw [step?_key hs hj] at hn
  obtain ⟨collected, -, hn⟩ := Option.bind_eq_some_iff.1 hn
  obtain ⟨json, -, rfl⟩ := Option.map_eq_some_iff.1 hn
  rw [path_enter_child] at hpath hanchor
  have hdepth : anchor.depth = spot.position.path.length := by
    have hlength := congrArg List.length hd
    rw [List.length_drop, hpath] at hlength
    simp only [List.length_append, List.length_cons, List.length_nil] at hlength
    omega
  rcases hanchor with hsame | ⟨other, ho, hbelow⟩
  · rcases (enter_cases spot.position (decoder.concreteType static entries) (Part.merged parts)
      entries).2 with hold | ⟨id, hid, -, hnew⟩
    · have hbefore := hp anchor ((hsame.trans hold).symm.trans ha)
      omega
    · exact ⟨id, hid, Option.some.inj (ha.symm.trans (hsame.trans hnew))⟩
  · obtain rfl := Option.some.inj (ha.symm.trans ho)
    rw [List.length_append, List.length_singleton] at hbelow
    omega

end Decoder

end GraphQLClient
