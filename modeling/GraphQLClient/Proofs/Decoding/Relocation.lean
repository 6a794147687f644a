import Mathlib.Data.List.Forall2
import GraphQLClient.Proofs.Decoding.Origins
import GraphQLClient.Proofs.Decoding.Places

set_option autoImplicit false

/-!
# Decoding a set that stands elsewhere

Origins decide which sets count as one when fields are merged, and nothing else. A set that stands at
another place, in another operation, decodes data to the same models: they differ at most in their
source and in the places that their page marks name.
-/

namespace GraphQLClient

/-- A page mark without the place and the operation it belongs to. -/
def PageMark.bare (mark : PageMark) : PageMark :=
  { mark with path := [], anchor := none, source := default }

def ModelHead.bare (head : ModelHead) : ModelHead :=
  { head with source := default, mark := head.mark.map PageMark.bare }

mutual
/-- A value without the places and the operation it was decoded for. -/
def Decoded.bare : Decoded → Decoded
  | .null => .null
  | .scalar value => .scalar value
  | .object model => .object model.bare
  | .list items => .list (Decoded.bareItems items)
  | .connection nodes info mark =>
    .connection (Model.bareNodes nodes) info (mark.map PageMark.bare)

def Decoded.bareItems : List Decoded → List Decoded
  | [] => []
  | item :: rest => item.bare :: Decoded.bareItems rest

def Model.bare : Model → Model
  | .mk head values => .mk head.bare (Model.bareValues values)

def Model.bareValues : List (String × Decoded) → List (String × Decoded)
  | [] => []
  | (key, value) :: rest => (key, value.bare) :: Model.bareValues rest

def Model.bareNodes : List Model → List Model
  | [] => []
  | node :: rest => node.bare :: Model.bareNodes rest
end

theorem Decoded.bareItems_eq (items : List Decoded) :
    Decoded.bareItems items = items.map Decoded.bare := by
  induction items with
  | nil => rfl
  | cons item rest ih => rw [Decoded.bareItems, ih, List.map_cons]

theorem Model.bareNodes_eq (nodes : List Model) : Model.bareNodes nodes = nodes.map Model.bare := by
  induction nodes with
  | nil => rfl
  | cons node rest ih => rw [Model.bareNodes, ih, List.map_cons]

/-- Where the sets below one origin stand when it is at another one. Fragments stay where they are. -/
inductive Origin.Moved (old new : Origin) : Origin → Origin → Prop
  | inside (path : List Nat) :
    Moved old new ⟨old.fragment, old.path ++ path⟩ ⟨new.fragment, new.path ++ path⟩
  | fragment (serial : Nat) (path : List Nat) (ho : old.fragment ≠ some serial)
      (hn : new.fragment ≠ some serial) : Moved old new ⟨some serial, path⟩ ⟨some serial, path⟩

namespace Origin.Moved

variable {old new a b a' b' : Origin}

theorem refl : Moved old new old new := by
  have h : Moved old new ⟨old.fragment, old.path ++ []⟩ ⟨new.fragment, new.path ++ []⟩ := .inside []
  rwa [List.append_nil, List.append_nil] at h

theorem child (h : Moved old new a b) (index : Nat) :
    Moved old new (a.child index) (b.child index) := by
  cases h with
  | inside path =>
    simp only [Origin.child, List.append_assoc]
    exact .inside (path ++ [index])
  | fragment serial path ho hn => exact .fragment serial (path ++ [index]) ho hn

/-- Sets at different places stay at different places. -/
theorem eq_iff (h : Moved old new a b) (h' : Moved old new a' b') : a = a' ↔ b = b' := by
  cases h with
  | inside path =>
    cases h' with
    | inside path' => simp
    | fragment serial path' ho hn => simp [ho, hn]
  | fragment serial path ho hn =>
    cases h' with
    | inside path' => simp [Ne.symm ho, Ne.symm hn]
    | fragment serial' path' ho' hn' => simp

end Origin.Moved

/-- A spread of a fragment in which neither origin stands. -/
def Selection.Elsewhere (old new : Origin) : Selection → Prop
  | .spread serial _ _ _ _ => old.fragment ≠ some serial ∧ new.fragment ≠ some serial
  | _ => True

structure Part.Moved (old new : Origin) (part part' : Part) : Prop where
  origin : Origin.Moved old new part.origin part'.origin
  set : part.set = part'.set
  elsewhere : Selection.EverywhereAll (Selection.Elsewhere old new) part.set.selections

structure Collected.Moved (old new : Origin) (collected collected' : Collected) : Prop where
  field : collected.field = collected'.field
  parts : List.Forall₂ (Part.Moved old new) collected.parts collected'.parts

inductive Shape.Moved (old new : Origin) : Shape → Shape → Prop
  | raw : Moved old new .raw .raw
  | object (type : TypeDescriptor) {parts parts' : List Part}
      (moved : List.Forall₂ (Part.Moved old new) parts parts') :
      Moved old new (.object type parts) (.object type parts')
  | connection (type nodeType : TypeDescriptor) {parts parts' : List Part} {nodes nodes' : Part}
      (moved : List.Forall₂ (Part.Moved old new) parts parts') (inner : nodes.Moved old new nodes') :
      Moved old new (.connection type parts nodeType nodes) (.connection type parts' nodeType nodes')

variable {old new : Origin}

namespace Part

theorem moved_merged {parts parts' : List Part} (h : List.Forall₂ (Part.Moved old new) parts parts') :
    merged parts = merged parts' := by
  have hsets : parts.map (·.set) = parts'.map (·.set) := by
    induction h with
    | nil => rfl
    | cons hp _ ih => rw [List.map_cons, List.map_cons, hp.set, ih]
  have hmerged : ∀ parts : List Part, merged parts =
      ⟨((parts.map (·.set)).head?.map (·.typeName)).getD "",
        (parts.map (·.set)).flatMap (·.selections)⟩ := by
    intro parts
    rw [merged, List.head?_map, Option.map_map, List.flatMap_map]
    rfl
  rw [hmerged, hmerged, hsets]

theorem moved_findIn? {key : String} {origin origin' : Origin} {index : Nat}
    {selections : List Selection} (h : Origin.Moved old new origin origin') :
    Option.Rel (fun found found' => Origin.Moved old new found.1 found'.1 ∧ found.2 = found'.2 ∧
        found.2 ∈ selections)
      (findIn? key origin index selections) (findIn? key origin' index selections) := by
  induction selections generalizing index with
  | nil => exact .none
  | cons selection rest ih =>
    rw [findIn?, findIn?]
    split
    · exact .some ⟨h.child index, rfl, List.mem_cons_self⟩
    · have hrest := @ih (index + 1)
      revert hrest
      cases findIn? key origin (index + 1) rest <;> cases findIn? key origin' (index + 1) rest
      all_goals
        intro hrest
        cases hrest
      · exact .none
      · rename_i hr
        exact .some ⟨hr.1, hr.2.1, List.mem_cons_of_mem _ hr.2.2⟩

theorem Moved.moved_findIn? {part part' : Part} (h : part.Moved old new part') (key : String) :
    Option.Rel (fun found found' => Origin.Moved old new found.1 found'.1 ∧ found.2 = found'.2 ∧
        found.2 ∈ part.set.selections)
      (findIn? key part.origin 0 part.set.selections)
      (findIn? key part'.origin 0 part.set.selections) :=
  Part.moved_findIn? h.origin

theorem moved_below? {parts parts' : List Part} (key : String)
    (h : List.Forall₂ (Part.Moved old new) parts parts') :
    Option.Rel (Part.Moved old new) (below? parts key) (below? parts' key) := by
  induction h with
  | nil => exact .none
  | @cons part part' rest rest' hp _ ih =>
    have hfind := hp.moved_findIn? key
    unfold below? at ih ⊢
    rw [List.findSome?_cons, List.findSome?_cons, ← hp.set]
    revert hfind
    cases findIn? key part.origin 0 part.set.selections <;>
      cases findIn? key part'.origin 0 part.set.selections
    all_goals
      intro hfind
      cases hfind
    · exact ih
    · rename_i found found' hf
      obtain ⟨origin, selection⟩ := found
      obtain ⟨origin', selection'⟩ := found'
      obtain ⟨ho, rfl, hm⟩ := hf
      have helsewhere := Selection.everywhereAll_iff.1 hp.elsewhere _ hm
      cases selection with
      | composite field typeName inner => exact .some ⟨ho, rfl, helsewhere.2⟩
      | _ => exact .none

theorem moved_nodes? {parts parts' : List Part}
    (h : List.Forall₂ (Part.Moved old new) parts parts') :
    Option.Rel (Part.Moved old new) (nodes? parts) (nodes? parts') := by
  have hedges := moved_below? "edges" h
  unfold nodes?
  revert hedges
  cases below? parts "edges" <;> cases below? parts' "edges"
  all_goals
    intro hedges
    cases hedges
  · exact .none
  · rename_i he
    exact moved_below? "node" (.cons he .nil)

end Part

namespace Collected

variable {bundle : Bundle} {type : TypeDescriptor}

theorem moved_extend {found found' : Collected} {added added' : List Part}
    (h : found.Moved old new found') (ha : List.Forall₂ (Part.Moved old new) added added') :
    (found.extend added).Moved old new (found'.extend added') := by
  obtain ⟨field, parts⟩ := found
  obtain ⟨field', parts'⟩ := found'
  obtain ⟨hf, hp⟩ := h
  obtain rfl : field = field' := hf
  cases hp with
  | nil => exact ⟨rfl, .nil⟩
  | @cons part part' more more' hpart hmore =>
    cases ha with
    | nil => cases hmore <;> exact ⟨rfl, .cons hpart (by first | exact .nil | exact .cons ‹_› ‹_›)⟩
    | @cons new₁ new₁' news news' hnew hnews =>
      cases hmore with
      | nil =>
        -- The origin is repeated on one side iff it is on the other.
        have hiff : ((new₁ :: news).map (·.origin) = [part.origin]) ↔
            ((new₁' :: news').map (·.origin) = [part'.origin]) := by
          cases hnews with
          | nil => simpa using hnew.origin.eq_iff hpart.origin
          | cons _ _ => simp
        simp only [extend, hiff]
        split
        · exact ⟨rfl, .cons hpart .nil⟩
        · exact ⟨rfl, .cons hpart (.cons hnew hnews)⟩
      | cons hsecond hrest =>
        exact ⟨rfl, List.rel_append (.cons hpart (.cons hsecond hrest)) (.cons hnew hnews)⟩

theorem moved_merge {field : Field} {added added' : List Part} {found found' : List Collected}
    (h : List.Forall₂ (Collected.Moved old new) found found')
    (ha : List.Forall₂ (Part.Moved old new) added added') :
    List.Forall₂ (Collected.Moved old new) (merge field added found) (merge field added' found') := by
  induction h with
  | nil => exact .cons ⟨rfl, ha⟩ .nil
  | @cons first first' rest rest' hfirst hrest ih =>
    have hkey : first.key = first'.key := congrArg Field.responseKey hfirst.field
    rw [merge, merge, hkey]
    split
    · exact .cons (moved_extend hfirst ha) hrest
    · exact .cons hfirst ih

mutual
theorem moved_add {origin origin' : Origin} {selection : Selection} {found found' : List Collected}
    (ho : Origin.Moved old new origin origin')
    (hs : selection.Everywhere (Selection.Elsewhere old new))
    (h : List.Forall₂ (Collected.Moved old new) found found') :
    List.Forall₂ (Collected.Moved old new) (add bundle type origin found selection)
      (add bundle type origin' found' selection) := by
  cases selection with
  | leaf field => exact moved_merge h .nil
  | composite field typeName selections => exact moved_merge h (.cons ⟨ho, rfl, hs.2⟩ .nil)
  | inlineFragment condition typeName selections =>
    rw [add, add]
    split
    · exact moved_addAll ho hs.2 h
    · exact h
  | spread serial name condition typeName selections =>
    rw [add, add]
    split
    · exact moved_addAll (.fragment serial [] hs.1.1 hs.1.2) hs.2 h
    · exact h

theorem moved_addAll {origin origin' : Origin} {index : Nat} {selections : List Selection}
    {found found' : List Collected} (ho : Origin.Moved old new origin origin')
    (hs : Selection.EverywhereAll (Selection.Elsewhere old new) selections)
    (h : List.Forall₂ (Collected.Moved old new) found found') :
    List.Forall₂ (Collected.Moved old new) (addAll bundle type origin index found selections)
      (addAll bundle type origin' index found' selections) := by
  cases selections with
  | nil => exact h
  | cons selection rest =>
    rw [addAll, addAll]
    exact moved_addAll ho hs.2 (moved_add (ho.child index) hs.1 h)
end

theorem moved_ofParts {parts parts' : List Part}
    (h : List.Forall₂ (Part.Moved old new) parts parts') :
    List.Forall₂ (Collected.Moved old new) (ofParts bundle type parts) (ofParts bundle type parts') := by
  refine List.rel_foldl (P := List.Forall₂ (Collected.Moved old new)) (R := Part.Moved old new)
    ?_ .nil h
  intro found found' hf part part' hp
  have hadded : List.Forall₂ (Collected.Moved old new)
      (addAll bundle type part.origin 0 found part.set.selections)
      (addAll bundle type part'.origin 0 found' part.set.selections) :=
    moved_addAll hp.origin hp.elsewhere hf
  rw [hp.set] at hadded
  simpa only [hp.set] using hadded

end Collected

theorem Shape.moved_ofCollected (bundle : Bundle) {collected collected' : Collected}
    (h : collected.Moved old new collected') :
    Moved old new (ofCollected bundle collected) (ofCollected bundle collected') := by
  obtain ⟨field, parts⟩ := collected
  obtain ⟨field', parts'⟩ := collected'
  obtain ⟨hf, hp⟩ := h
  obtain rfl : field = field' := hf
  have hnodes := Part.moved_nodes? hp
  cases hp with
  | nil => exact .raw
  | @cons part part' more more' hpart hmore =>
    simp only [ofCollected, ← hpart.set]
    cases bundle.get? part.set.typeName with
    | none => exact .raw
    | some type =>
      by_cases hc : field.connection = true
      · simp only [hc, if_true]
        revert hnodes
        cases Part.nodes? (part :: more) <;> cases Part.nodes? (part' :: more')
        all_goals
          intro hnodes
          cases hnodes
        · exact .object type (.cons hpart hmore)
        · rename_i nodes nodes' hn
          simp only [← hn.set]
          cases bundle.get? nodes.set.typeName with
          | none => exact .object type (.cons hpart hmore)
          | some nodeType => exact .connection type nodeType (.cons hpart hmore) hn
      · simp only [hc]
        exact .object type (.cons hpart hmore)

/-! ## The decoded values -/

namespace Decoder

variable {decoder decoder' : Decoder}

section

variable (hb : decoder'.bundle = decoder.bundle) (hr : decoder'.registry = decoder.registry)

include hb

theorem concreteType_eq (static : TypeDescriptor) (entries : List (String × Json)) :
    decoder'.concreteType static entries = decoder.concreteType static entries := by
  unfold concreteType
  rw [hb]

include hr

/-- Models agree as soon as the values in their data do. -/
theorem bare_object (static : TypeDescriptor) {parts parts' : List Part}
    {mark mark' : Option PageMark} (position position' : Position) {entries : List (String × Json)}
    (hp : List.Forall₂ (Part.Moved old new) parts parts')
    (hm : mark.map PageMark.bare = mark'.map PageMark.bare)
    (hv : ∀ name json, Keyed.find? name entries = some json →
      ∀ shape shape' position position', Shape.Moved old new shape shape' →
        (decoder.value shape position json).bare = (decoder'.value shape' position' json).bare) :
    (decoder.object static parts mark position entries).bare =
      (decoder'.object static parts' mark' position' entries).bare := by
  have hgroups : List.Forall₂ (Collected.Moved old new)
      (Collected.ofParts decoder.bundle (decoder.concreteType static entries) parts)
      (Collected.ofParts decoder.bundle (decoder.concreteType static entries) parts') :=
    Collected.moved_ofParts hp
  unfold object model
  rw [concreteType_eq hb, hb, hr, ← Part.moved_merged hp, Model.bare, Model.bare]
  congr 1
  · simp only [ModelHead.bare, hm]
  · generalize enter position _ _ entries = inside
    generalize enter position' _ _ entries = inside'
    simp only [valueOf_eq]
    generalize Collected.ofParts _ _ parts = groups at hgroups ⊢
    generalize Collected.ofParts _ _ parts' = groups' at hgroups ⊢
    induction hgroups with
    | nil => rfl
    | @cons first first' rest rest' hfirst _ ih =>
      have hkey : first.key = first'.key := congrArg Field.responseKey hfirst.field
      rw [List.filterMap_cons, List.filterMap_cons, ← hkey]
      cases hj : Keyed.find? first.key entries with
      | none => exact ih
      | some json =>
        have hvalue := hv _ json hj _ _ (inside.child first.key) (inside'.child first.key)
          (Shape.moved_ofCollected decoder.bundle hfirst)
        simp only [Option.map_some, Model.bareValues, hvalue, ih]

theorem bare_nodeModel {nodes nodes' : Part} (type : TypeDescriptor) (info : PageInfo)
    (position position' : Position) {found : Option String × List (String × Json)}
    (hn : nodes.Moved old new nodes')
    (hv : ∀ name json, Keyed.find? name found.2 = some json →
      ∀ shape shape' position position', Shape.Moved old new shape shape' →
        (decoder.value shape position json).bare = (decoder'.value shape' position' json).bare) :
    (decoder.nodeModel type nodes info position found).2.bare =
      (decoder'.nodeModel type nodes' info position' found).2.bare :=
  bare_object hb hr type position position' (.cons hn .nil) (by cases found.1 <;> rfl) hv

/-- A value is decoded alike by a shape whose sets stand elsewhere. -/
theorem bare_value (json : Json) : ∀ shape shape' position position',
    Shape.Moved old new shape shape' →
      (decoder.value shape position json).bare = (decoder'.value shape' position' json).bare := by
  intro shape shape' position position' h
  cases json with
  | obj entries =>
    cases h with
    | raw => rfl
    | object type hp =>
      refine congrArg Decoded.object (bare_object hb hr type _ _ hp rfl fun name json hj => ?_)
      have hsize := Json.sizeOf_find? hj
      exact bare_value json
    | connection type nodeType hp hn =>
      rw [value_connection, value_connection, Decoded.bare, Decoded.bare, Model.bareNodes_eq,
        Model.bareNodes_eq, List.map_map, List.map_map]
      congr 1
      · refine List.map_congr_left fun found hf => ?_
        have hnode := Json.sizeOf_nodeObjects hf
        refine bare_nodeModel hb hr nodeType _ _ _ hn fun name json hj => ?_
        have hsize := Json.sizeOf_find? hj
        exact bare_value json
      · rw [Option.map_map, Option.map_map]
        rfl
  | arr items =>
    have hitems : ∀ shape shape', Shape.Moved old new shape shape' →
        (Decoded.list (decoder.items shape position items)).bare =
          (Decoded.list (decoder'.items shape' position' items)).bare := by
      intro shape shape' hs
      rw [Decoded.bare, Decoded.bare, Decoded.bareItems_eq, Decoded.bareItems_eq, items_eq, items_eq,
        List.map_map, List.map_map]
      refine congrArg Decoded.list (List.map_congr_left fun item hm => ?_)
      have hsize := Json.sizeOf_item hm
      exact bare_value item _ _ _ _ hs
    cases h with
    | raw => rfl
    | object type hp => exact hitems _ _ (.object type hp)
    | connection type nodeType hp hn => exact hitems _ _ (.object type hp)
  | _ => cases h <;> rfl
termination_by sizeOf json
decreasing_by all_goals omega

/-- A connection gets alike nodes and the same page info from a set that stands elsewhere. -/
theorem bare_connection {type type' nodeType : TypeDescriptor} {parts parts' : List Part}
    {nodes nodes' : Part} {position position' : Position} {entries : List (String × Json)}
    {models : List Model} {info : PageInfo} {mark : Option PageMark}
    (hn : nodes.Moved old new nodes')
    (h : decoder.value (.connection type parts nodeType nodes) position (.obj entries) =
      .connection models info mark) :
    ∃ models' mark', decoder'.value (.connection type' parts' nodeType nodes') position'
        (.obj entries) = .connection models' info mark' ∧
      models'.map Model.bare = models.map Model.bare ∧
      mark'.map PageMark.bare = mark.map PageMark.bare := by
  rw [value_connection] at h
  obtain ⟨rfl, rfl, rfl⟩ := Decoded.connection.inj h
  refine ⟨_, _, value_connection _ _ _ _ _ _, ?_, ?_⟩
  · rw [List.map_map, List.map_map]
    refine List.map_congr_left fun found _ => ?_
    exact (bare_nodeModel hb hr nodeType _ _ _ hn fun _ json _ => bare_value hb hr json).symm
  · rw [Option.map_map, Option.map_map]
    rfl

end

end Decoder

/-! ## Sets inside fragments -/

theorem SelectionSet.sizeOf_descend? {set found : SelectionSet} {path : List Nat}
    (h : set.descend? path = some found) : sizeOf found.selections ≤ sizeOf set.selections := by
  induction path generalizing set with
  | nil => exact (Option.some.inj h) ▸ Nat.le_refl _
  | cons index rest ih =>
    obtain ⟨selection, hget, h⟩ := Option.bind_eq_some_iff.1 h
    obtain ⟨inner, hset, h⟩ := Option.bind_eq_some_iff.1 h
    have hlt := List.sizeOf_lt_of_mem (List.mem_of_getElem? hget)
    have hinner : sizeOf inner.selections ≤ sizeOf selection := by
      cases selection <;> cases hset <;> simp
    have hrest := ih h
    omega

namespace Selection

variable {table : Nat → Option SelectionSet}

mutual
theorem elsewhere_of_sizeOf {selection : Selection} (hr : selection.Everywhere (Registered table))
    (hs : ∀ serial, old.fragment = some serial ∨ new.fragment = some serial →
      ∃ body, table serial = some body ∧ sizeOf selection ≤ sizeOf body.selections) :
    selection.Everywhere (Elsewhere old new) := by
  cases selection with
  | leaf field => trivial
  | composite field typeName selections =>
    refine ⟨trivial, elsewhereAll_of_sizeOf hr.2 fun serial h => ?_⟩
    obtain ⟨body, hb, hsize⟩ := hs serial h
    exact ⟨body, hb, by simp at hsize; omega⟩
  | inlineFragment condition typeName selections =>
    refine ⟨trivial, elsewhereAll_of_sizeOf hr.2 fun serial h => ?_⟩
    obtain ⟨body, hb, hsize⟩ := hs serial h
    exact ⟨body, hb, by simp at hsize; omega⟩
  | spread serial name condition typeName selections =>
    have hbody : table serial = some ⟨typeName, selections⟩ := hr.1
    have hnot : ¬ (old.fragment = some serial ∨ new.fragment = some serial) := by
      intro h
      obtain ⟨body, hb, hsize⟩ := hs serial h
      obtain rfl := Option.some.inj (hbody.symm.trans hb)
      simp only [spread.sizeOf_spec] at hsize
      omega
    refine ⟨not_or.1 hnot, elsewhereAll_of_sizeOf hr.2 fun serial h => ?_⟩
    obtain ⟨body, hb, hsize⟩ := hs serial h
    exact ⟨body, hb, by simp at hsize; omega⟩

/-- A fragment is spread nowhere inside its own body, for want of room. -/
theorem elsewhereAll_of_sizeOf {selections : List Selection}
    (hr : EverywhereAll (Registered table) selections)
    (hs : ∀ serial, old.fragment = some serial ∨ new.fragment = some serial →
      ∃ body, table serial = some body ∧ sizeOf selections ≤ sizeOf body.selections) :
    EverywhereAll (Elsewhere old new) selections := by
  cases selections with
  | nil => trivial
  | cons selection rest =>
    refine ⟨elsewhere_of_sizeOf hr.1 fun serial h => ?_, elsewhereAll_of_sizeOf hr.2 fun serial h => ?_⟩
    · obtain ⟨body, hb, hsize⟩ := hs serial h
      exact ⟨body, hb, by simp at hsize; omega⟩
    · obtain ⟨body, hb, hsize⟩ := hs serial h
      exact ⟨body, hb, by simp at hsize; omega⟩
end

end Selection

namespace Part

variable {set set' : SelectionSet} {table : Nat → Option SelectionSet} {part part' : Part}

theorem Located.sizeOf_le {serial : Nat} (h : part.Located set table)
    (hf : part.origin.fragment = some serial) :
    ∃ body, table serial = some body ∧ sizeOf part.set.selections ≤ sizeOf body.selections := by
  unfold Located Origin.locate? at h
  rw [hf] at h
  obtain ⟨body, hb, hd⟩ := Option.bind_eq_some_iff.1 h
  exact ⟨body, hb, SelectionSet.sizeOf_descend? hd⟩

/-- One set at two places, with one table of fragments. -/
theorem Placed.moved (h : part.Placed set table) (h' : part'.Placed set' table)
    (hs : part.set = part'.set) : part.Moved part.origin part'.origin part' := by
  refine ⟨.refl, hs, Selection.elsewhereAll_of_sizeOf h.registered fun serial hf => ?_⟩
  rcases hf with hf | hf
  · exact h.located.sizeOf_le hf
  · rw [hs]
    exact h'.located.sizeOf_le hf

end Part

end GraphQLClient
