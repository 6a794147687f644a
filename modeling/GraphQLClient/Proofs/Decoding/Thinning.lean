import GraphQLClient.Proofs.Decoding.Groups
import GraphQLClient.Proofs.Decoding.Relocation

set_option autoImplicit false

/-!
# Decoding thinned sets

Parts of two operations may stand for the same selections, with different repeats left out. They decode
data to values that show the same: the same keys in the same order, with the same types and classes,
and connections with the same pages. Only the selections that the models remember, their operation and
the places that page marks name tell them apart.
-/

namespace GraphQLClient

def ModelHead.shown (head : ModelHead) : ModelHead := { head.bare with set := default }

mutual
/-- A value without the selections, the places and the operation it was decoded with. -/
def Decoded.shown : Decoded → Decoded
  | .null => .null
  | .scalar value => .scalar value
  | .object model => .object model.shown
  | .list items => .list (Decoded.shownItems items)
  | .connection nodes info mark =>
    .connection (Model.shownNodes nodes) info (mark.map PageMark.bare)

def Decoded.shownItems : List Decoded → List Decoded
  | [] => []
  | item :: rest => item.shown :: Decoded.shownItems rest

def Model.shown : Model → Model
  | .mk head values => .mk head.shown (Model.shownValues values)

def Model.shownValues : List (String × Decoded) → List (String × Decoded)
  | [] => []
  | (key, value) :: rest => (key, value.shown) :: Model.shownValues rest

def Model.shownNodes : List Model → List Model
  | [] => []
  | node :: rest => node.shown :: Model.shownNodes rest
end

theorem Decoded.shownItems_eq (items : List Decoded) : shownItems items = items.map shown := by
  induction items with
  | nil => rfl
  | cons item rest ih => rw [Decoded.shownItems, ih, List.map_cons]

theorem Model.shownValues_eq (values : List (String × Decoded)) :
    shownValues values = values.map fun entry => (entry.1, entry.2.shown) := by
  induction values with
  | nil => rfl
  | cons entry rest ih => rw [Model.shownValues, ih, List.map_cons]

theorem Model.shownNodes_eq (nodes : List Model) : shownNodes nodes = nodes.map shown := by
  induction nodes with
  | nil => rfl
  | cons node rest ih => rw [Model.shownNodes, ih, List.map_cons]

/-- Two operations, each with the sets of its fragments. -/
structure Pairing where
  set : SelectionSet
  table : Nat → Option SelectionSet
  set' : SelectionSet
  table' : Nat → Option SelectionSet

namespace Pairing

variable (pairing : Pairing)

/-- Parts of the two operations that stand for the same selections. -/
def Parts (parts parts' : List Part) : Prop :=
  ∃ selections, Part.StandFor pairing.set pairing.table parts selections ∧
    Part.StandFor pairing.set' pairing.table' parts' selections

/-- The groups of one key, if it has any fields. -/
inductive Group : Option Collected → Option Collected → Prop
  | none : Group none none
  | some {collected collected' : Collected} {fields : List Selection}
      (old : collected.StandsFor pairing.set pairing.table fields)
      (new : collected'.StandsFor pairing.set' pairing.table' fields) :
      Group (some collected) (some collected')

inductive Shapes : Shape → Shape → Prop
  | raw : Shapes .raw .raw
  | object (type : TypeDescriptor) {parts parts' : List Part} (parted : pairing.Parts parts parts') :
      Shapes (.object type parts) (.object type parts')
  | connection (type nodeType : TypeDescriptor) {parts parts' : List Part} {nodes nodes' : Part}
      (parted : pairing.Parts parts parts') (noded : pairing.Parts [nodes] [nodes']) :
      Shapes (.connection type parts nodeType nodes) (.connection type parts' nodeType nodes')

variable {pairing}

/-- Groups that stand for the same fields, with fewer repeats on the second side. -/
theorem group_of_thinned {parts parts' : List Part} {all kept : List Selection}
    (hold : Part.StandFor pairing.set pairing.table parts all)
    (hnew : Part.StandFor pairing.set' pairing.table' parts' kept) {bundle : Bundle}
    {type : TypeDescriptor} {key : String}
    (ht : Selection.Thinned [] ((Selection.fieldsOnAll bundle type all).filter (Selection.answers key))
      ((Selection.fieldsOnAll bundle type kept).filter (Selection.answers key))) :
    pairing.Group
      (Collected.joined ((Collected.fieldsOfParts bundle type parts).filter (·.key == key)))
      (Collected.joined ((Collected.fieldsOfParts bundle type parts').filter (·.key == key))) := by
  have hhead := ht.head?_eq
  obtain ⟨hnone, hnil⟩ | ⟨collected, hsome, hc⟩ :=
    Collected.joined_cases bundle type hold key
  · obtain ⟨hnone', -⟩ | ⟨collected', -, hc'⟩ :=
      Collected.joined_cases bundle type hnew key
    · rw [hnone, hnone']
      exact .none
    · rw [hc'.head, hnil] at hhead
      cases hhead
  · obtain ⟨-, hnil'⟩ | ⟨collected', hsome', hc'⟩ :=
      Collected.joined_cases bundle type hnew key
    · rw [hc.head, hnil'] at hhead
      cases hhead
    · rw [hsome, hsome']
      exact .some hc (hc'.of_thinned ht)

theorem Parts.group {parts parts' : List Part} (h : pairing.Parts parts parts') (bundle : Bundle)
    (type : TypeDescriptor) (key : String) :
    pairing.Group
      (Collected.joined ((Collected.fieldsOfParts bundle type parts).filter (·.key == key)))
      (Collected.joined ((Collected.fieldsOfParts bundle type parts').filter (·.key == key))) := by
  obtain ⟨selections, hold, hnew⟩ := h
  exact group_of_thinned hold hnew (.refl _ _)

/-- The nodes of two connections that stand for the same selections. -/
theorem Parts.nodes {parts parts' : List Part} (h : pairing.Parts parts parts') :
    (Part.nodes? parts = none ∧ Part.nodes? parts' = none) ∨
      ∃ nodes nodes', Part.nodes? parts = some nodes ∧ Part.nodes? parts' = some nodes' ∧
        nodes.set = nodes'.set ∧ pairing.Parts [nodes] [nodes'] := by
  obtain ⟨selections, hold, hnew⟩ := h
  have hset := (hold.nodes?_set "").trans (hnew.nodes?_set "").symm
  cases hn : Part.nodes? parts with
  | none =>
    rw [hn] at hset
    exact .inl ⟨rfl, Option.map_eq_none_iff.1 hset.symm⟩
  | some nodes =>
    rw [hn] at hset
    obtain ⟨nodes', hn', hsame⟩ := Option.map_eq_some_iff.1 hset.symm
    replace hsame : nodes'.set = nodes.set := hsame
    refine .inr ⟨nodes, nodes', rfl, hn', hsame.symm, nodes.set.selections, ?_, ?_⟩
    · exact (Part.Placed.nodes hold.placed hn).standFor
    · exact hsame ▸ (Part.Placed.nodes hnew.placed hn').standFor

theorem shapes_ofCollected {collected collected' : Collected} {fields : List Selection}
    (h : collected.StandsFor pairing.set pairing.table fields)
    (h' : collected'.StandsFor pairing.set' pairing.table' fields) (bundle : Bundle) :
    pairing.Shapes (.ofCollected bundle collected) (.ofCollected bundle collected') := by
  obtain ⟨field, parts⟩ := collected
  obtain ⟨field', parts'⟩ := collected'
  have hhead := Option.some.inj (h.head.symm.trans h'.head)
  cases parts with
  | nil =>
    cases parts' with
    | nil => exact .raw
    | cons first' more' => cases hhead
  | cons first more =>
    cases parts' with
    | nil => cases hhead
    | cons first' more' =>
      obtain ⟨rfl, htype, -⟩ := Selection.composite.inj hhead
      have hparts : pairing.Parts (first :: more) (first' :: more') :=
        ⟨_, h.below (List.cons_ne_nil _ _), h'.below (List.cons_ne_nil _ _)⟩
      have htypes : first.set.typeName = first'.set.typeName := htype
      unfold Shape.ofCollected
      simp only [← htypes]
      cases bundle.get? first.set.typeName with
      | none => exact .raw
      | some type =>
        cases hc : field.connection with
        | false => exact .object type hparts
        | true =>
          obtain ⟨hn, hn'⟩ | ⟨nodes, nodes', hn, hn', hset, hnodes⟩ := hparts.nodes
          · simp only [hn, hn', if_true]
            exact .object type hparts
          · simp only [hn, hn', ← hset, if_true]
            cases bundle.get? nodes.set.typeName with
            | none => exact .object type hparts
            | some nodeType => exact .connection type nodeType hparts hnodes

end Pairing

namespace Decoder

variable {decoder decoder' : Decoder} {pairing : Pairing}

/-- A model holds what is under its keys, in their order. -/
theorem values_object (static : TypeDescriptor) (parts : List Part) (mark : Option PageMark)
    (position : Position) (entries : List (String × Json)) :
    (decoder.object static parts mark position entries).values =
      ((Collected.ofParts decoder.bundle (decoder.concreteType static entries) parts).map
        Collected.key).filterMap fun key =>
          ((decoder.object static parts mark position entries).get? key).map fun value =>
            (key, value) := by
  rw [List.filterMap_map]
  refine List.filterMap_congr fun collected hc => ?_
  have hfind := Collected.find?_of_nodup (Collected.nodup_keys_ofParts parts) hc
  have hget : (decoder.object static parts mark position entries).get? collected.key =
      decoder.valueOf collected.key (.ofCollected decoder.bundle collected)
        ((enter position (decoder.concreteType static entries) (Part.merged parts) entries).child
          collected.key) entries := by
    unfold object model
    change Keyed.find? collected.key (List.filterMap _ _) = _
    rw [Keyed.find?_filterMap Collected.key _ _ (Collected.nodup_keys_ofParts parts), hfind]
    rfl
  change Option.map _ _ = Option.map _ ((decoder.object static parts mark position entries).get?
    collected.key)
  rw [hget]

section

variable (hb : decoder'.bundle = decoder.bundle) (hr : decoder'.registry = decoder.registry)

include hb

/-- What stands under a key shows the same, as soon as the values read for it do. -/
theorem shown_get? {static static' : TypeDescriptor} {parts parts' : List Part}
    (mark mark' : Option PageMark) (position position' : Position)
    {entries entries' : List (String × Json)} {key : String}
    (hc : decoder'.concreteType static' entries' = decoder.concreteType static entries)
    (hf : Keyed.find? key entries' = Keyed.find? key entries)
    (hg : pairing.Group
      (Collected.joined ((Collected.fieldsOfParts decoder.bundle
        (decoder.concreteType static entries) parts).filter (·.key == key)))
      (Collected.joined ((Collected.fieldsOfParts decoder.bundle
        (decoder.concreteType static entries) parts').filter (·.key == key))))
    (hv : ∀ json, Keyed.find? key entries = some json → ∀ shape shape' position position',
      pairing.Shapes shape shape' → (decoder.value shape position json).shown =
        (decoder'.value shape' position' json).shown) :
    ((decoder.object static parts mark position entries).get? key).map Decoded.shown =
      ((decoder'.object static' parts' mark' position' entries').get? key).map Decoded.shown := by
  rw [get?_object, get?_object, hb, hc, hf]
  revert hg
  generalize Collected.joined _ = group
  generalize Collected.joined _ = group'
  intro hg
  cases hg with
  | none => rfl
  | some old new =>
    rw [Option.bind_some, Option.bind_some, Option.map_map, Option.map_map]
    cases hj : Keyed.find? key entries with
    | none => rfl
    | some json =>
      exact congrArg some (hv json hj _ _ _ _ (Pairing.shapes_ofCollected old new decoder.bundle))

include hr

theorem shown_object (static : TypeDescriptor) {parts parts' : List Part}
    {mark mark' : Option PageMark} (position position' : Position)
    {entries : List (String × Json)} (hp : pairing.Parts parts parts')
    (hm : mark.map PageMark.bare = mark'.map PageMark.bare)
    (hv : ∀ key json, Keyed.find? key entries = some json → ∀ shape shape' position position',
      pairing.Shapes shape shape' → (decoder.value shape position json).shown =
        (decoder'.value shape' position' json).shown) :
    (decoder.object static parts mark position entries).shown =
      (decoder'.object static parts' mark' position' entries).shown := by
  have hconcrete := concreteType_eq hb static entries
  have hvalues : (decoder.object static parts mark position entries).values.map
        (fun entry => (entry.1, entry.2.shown)) =
      (decoder'.object static parts' mark' position' entries).values.map
        fun entry => (entry.1, entry.2.shown) := by
    obtain ⟨selections, hold, hnew⟩ := id hp
    rw [values_object, values_object, hb, hconcrete, Collected.keys_of_standFor hold,
      Collected.keys_of_standFor hnew, List.map_filterMap, List.map_filterMap]
    refine List.filterMap_congr fun key _ => ?_
    have hget := shown_get? hb mark mark' position position'
      hconcrete rfl (hp.group decoder.bundle (decoder.concreteType static entries) key) (hv key)
    have hentry := congrArg (Option.map fun value => (key, value)) hget
    rwa [Option.map_map, Option.map_map] at hentry ⊢
  have hhead : (decoder.object static parts mark position entries).head.shown =
      (decoder'.object static parts' mark' position' entries).head.shown := by
    unfold object model
    simp only [Model.head, ModelHead.shown, ModelHead.bare, hconcrete, hm, hr]
  change Model.mk _ (Model.shownValues _) = Model.mk _ (Model.shownValues _)
  rw [Model.shownValues_eq, Model.shownValues_eq]
  exact congrArg₂ Model.mk hhead hvalues

theorem shown_value (json : Json) : ∀ shape shape' position position',
    pairing.Shapes shape shape' →
      (decoder.value shape position json).shown = (decoder'.value shape' position' json).shown := by
  intro shape shape' position position' h
  cases json with
  | obj entries =>
    cases h with
    | raw => rfl
    | object type hp =>
      refine congrArg Decoded.object (shown_object hb hr type _ _ hp rfl fun key json hj => ?_)
      have hsize := Json.sizeOf_find? hj
      exact shown_value json
    | connection type nodeType hp hn =>
      rw [value_connection, value_connection, Decoded.shown, Decoded.shown, Model.shownNodes_eq,
        Model.shownNodes_eq, List.map_map, List.map_map]
      congr 1
      · refine List.map_congr_left fun found hf => ?_
        have hnode := Json.sizeOf_nodeObjects hf
        refine shown_object hb hr nodeType _ _ hn ?_ fun key json hj => ?_
        · rw [Option.map_map, Option.map_map]
          rfl
        · have hsize := Json.sizeOf_find? hj
          exact shown_value json
      · rw [Option.map_map, Option.map_map]
        rfl
  | arr items =>
    have hitems : ∀ shape shape', pairing.Shapes shape shape' →
        (Decoded.list (decoder.items shape position items)).shown =
          (Decoded.list (decoder'.items shape' position' items)).shown := by
      intro shape shape' hs
      rw [Decoded.shown, Decoded.shown, Decoded.shownItems_eq, Decoded.shownItems_eq, items_eq,
        items_eq, List.map_map, List.map_map]
      refine congrArg Decoded.list (List.map_congr_left fun item hm => ?_)
      have hsize := Json.sizeOf_item hm
      exact shown_value item _ _ _ _ hs
    cases h with
    | raw => rfl
    | object type hp => exact hitems _ _ (.object type hp)
    | connection type nodeType hp hn => exact hitems _ _ (.object type hp)
  | _ => cases h <;> rfl
termination_by sizeOf json
decreasing_by all_goals omega

end

end Decoder

end GraphQLClient
