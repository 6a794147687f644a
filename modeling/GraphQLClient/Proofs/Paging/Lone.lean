import GraphQLClient.Proofs.Decoding.Sound
import GraphQLClient.Proofs.Paging.Lanes
import GraphQLClient.Proofs.Paging.Walking

set_option autoImplicit false

/-!
# Decoding without fragments

Without fragments a response key is selected once, so nothing is merged: every place is decoded with
one part, which is valid on the type that it is declared with.
-/

namespace GraphQLClient

namespace Selection

theorem fieldsOnAll_of_direct {bundle : Bundle} {type : TypeDescriptor} {selections : List Selection}
    (h : EverywhereAll Direct selections) : fieldsOnAll bundle type selections = selections := by
  induction selections with
  | nil => rfl
  | cons selection rest ih =>
    rw [fieldsOnAll, ih h.2]
    have hfield := h.1.self.isField
    cases selection with
    | leaf field => rfl
    | composite field typeName inner => rfl
    | inlineFragment condition typeName inner => cases hfield
    | spread serial name condition typeName inner => cases hfield

/-- At most one selection of a set answers to a key. -/
theorem Distinct.filter_answers {selections : List Selection} (h : Distinct selections) (key : String) :
    selections.filter (answers key) = [] ∨
      ∃ selection, selections.filter (answers key) = [selection] := by
  have hkey : ∀ selection ∈ selections.filter (answers key), selection.key? = some key := by
    intro selection hs
    have ha := (List.mem_filter.1 hs).2
    unfold answers at ha
    cases hf : selection.field? with
    | none => simp [hf] at ha
    | some field =>
      rw [hf] at ha
      rw [key?, hf, Option.map_some, beq_iff_eq.1 ha]
  have hnodup : ((selections.filter (answers key)).filterMap key?).Nodup :=
    h.1.sublist (List.filter_sublist.filterMap key?)
  cases hg : selections.filter (answers key) with
  | nil => exact .inl rfl
  | cons first rest =>
    rw [hg] at hkey hnodup
    cases rest with
    | nil => exact .inr ⟨first, rfl⟩
    | cons second rest =>
      rw [List.filterMap_cons_some (hkey first List.mem_cons_self),
        List.filterMap_cons_some (hkey second (List.mem_cons_of_mem _ List.mem_cons_self))] at hnodup
      exact absurd List.mem_cons_self (List.nodup_cons.1 hnodup).1

end Selection

/-- The part selects fields only, and is valid on the type. -/
structure Part.Lone (bundle : Bundle) (declarations : List VariableDefinition) (type : TypeDescriptor)
    (part : Part) : Prop where
  known : bundle.get? part.set.typeName = some type
  valid : Selection.AllValidOn ⟨bundle, declarations, type⟩ part.set.selections
  distinct : Selection.Distinct part.set.selections
  direct : Selection.EverywhereAll Selection.Direct part.set.selections

/-- All sets that a value is read by are in one part. -/
def Shape.Lone (bundle : Bundle) (declarations : List VariableDefinition) : Shape → Prop
  | .raw => True
  | .object type parts => ∃ part, parts = [part] ∧ part.Lone bundle declarations type
  | .connection type parts nodeType nodes =>
    (∃ part, parts = [part] ∧ part.Lone bundle declarations type) ∧
      nodes.Lone bundle declarations nodeType

variable {bundle : Bundle} {declarations : List VariableDefinition} {static : TypeDescriptor}

namespace Part.Lone

variable {part : Part}

theorem composite (h : part.Lone bundle declarations static) {field : Field} {below : Part}
    (hm : Selection.composite field below.set.typeName below.set.selections ∈ part.set.selections) :
    ∃ type, below.Lone bundle declarations type := by
  have hvalid := Selection.allValidOn_iff.1 h.valid _ hm
  unfold Selection.ValidOn at hvalid
  obtain ⟨type, ⟨⟨-, declared, -, hget, -⟩, -⟩, hp, hi⟩ := hvalid
  have hname : below.set.typeName = type.name := hp.1
  refine ⟨type, ?_, hi, hp.2.2, (Selection.everywhereAll_iff.1 h.direct _ hm).2⟩
  rw [hname]
  exact Bundle.get?_self hget

theorem below (h : part.Lone bundle declarations static) {key : String} {found : Part}
    (hb : below? [part] key = some found) : ∃ type, found.Lone bundle declarations type := by
  obtain ⟨other, ho, field, index, -, hget⟩ := below?_eq_some hb
  obtain rfl := List.mem_singleton.1 ho
  exact h.composite (List.mem_of_getElem? hget)

/-- On whatever type, at most one field of the part answers to a key. -/
theorem group (h : part.Lone bundle declarations static) (type : TypeDescriptor) (key : String) :
    (Collected.fieldsOfParts bundle type [part]).filter (·.key == key) = [] ∨
      ∃ collected, (Collected.fieldsOfParts bundle type [part]).filter (·.key == key) = [collected] ∧
        (collected.parts = [] ∨ ∃ below, collected.parts = [below] ∧
          ∃ type, below.Lone bundle declarations type) := by
  have hmerged : (Part.merged [part]).selections = part.set.selections := List.append_nil _
  have hfields : (Collected.fieldsOfParts bundle type [part]).map Collected.selection =
      part.set.selections := by
    rw [Collected.selections_fieldsOfParts, hmerged]
    exact Selection.fieldsOnAll_of_direct h.direct
  have htaken : ((Collected.fieldsOfParts bundle type [part]).filter (·.key == key)).map
      Collected.selection = part.set.selections.filter (Selection.answers key) := by
    rw [← hfields, Collected.filter_selections]
  rcases h.distinct.filter_answers key with hnil | ⟨selection, hone⟩
  · rw [hnil] at htaken
    exact .inl (List.map_eq_nil_iff.1 htaken)
  · rw [hone] at htaken
    obtain ⟨collected, rest, hgroup, -, hrest⟩ := List.map_eq_cons_iff.1 htaken
    obtain rfl := List.map_eq_nil_iff.1 hrest
    have hmem : collected ∈ Collected.fieldsOfParts bundle type [part] := by
      have hfilter : collected ∈ (Collected.fieldsOfParts bundle type [part]).filter (·.key == key) := by
        rw [hgroup]
        exact List.mem_cons_self
      exact (List.mem_filter.1 hfilter).1
    refine .inr ⟨collected, hgroup, ?_⟩
    obtain hleaf | ⟨pair, rfl⟩ := Collected.parts_fieldsOfParts _ _ hmem
    · exact .inl hleaf
    · have hselected : (Collected.ofPair pair).selection ∈ part.set.selections := by
        rw [← hfields]
        exact List.mem_map_of_mem hmem
      exact .inr ⟨pair.2, rfl, h.composite hselected⟩

end Part.Lone

theorem Shape.lone_ofCollected {collected : Collected}
    (h : collected.parts = [] ∨ ∃ part, collected.parts = [part] ∧
      ∃ type, part.Lone bundle declarations type) :
    (ofCollected bundle collected).Lone bundle declarations := by
  obtain ⟨field, parts⟩ := collected
  rcases h with hnil | ⟨part, hone, type, hpart⟩
  · obtain rfl : parts = [] := hnil
    trivial
  · obtain rfl : parts = [part] := hone
    have hobject : (Shape.object type [part]).Lone bundle declarations := ⟨part, rfl, hpart⟩
    simp only [ofCollected, hpart.known]
    split
    · split
      · exact hobject
      · rename_i nodes hnodes
        obtain ⟨edges, he, hn⟩ := Option.bind_eq_some_iff.1 hnodes
        obtain ⟨edgeType, hedges⟩ := hpart.below he
        obtain ⟨nodeType, hlone⟩ := hedges.below hn
        rw [hlone.known]
        exact ⟨hobject, hlone⟩
    · exact hobject

namespace Decoder

variable {decoder : Decoder} {spot next : Spot}

theorem step?_lone {move : Move} (h : spot.shape.Lone decoder.bundle declarations)
    (hs : decoder.step? spot move = some next) : next.shape.Lone decoder.bundle declarations := by
  cases steps_of_step? hs with
  | @field static parts position mark entries name collected json hj _ =>
    obtain ⟨part, rfl, hpart⟩ := h
    rcases hpart.group (decoder.concreteType static entries) name with hnil | ⟨other, hone, hother⟩
    · rw [hnil] at hj
      cases hj
    · rw [hone] at hj
      obtain rfl : other = collected := Option.some.inj hj
      exact Shape.lone_ofCollected hother
  | node _ => exact ⟨_, rfl, h.2⟩
  | object _ => exact h
  | connection _ => exact h.1

/-- Wherever an address leads, a value is read by one part. -/
theorem follow?_lone {address : List Move} (h : spot.shape.Lone decoder.bundle declarations)
    (hs : decoder.follow? spot address = some next) :
    next.shape.Lone decoder.bundle declarations := by
  induction address generalizing spot with
  | nil =>
    obtain rfl := Option.some.inj hs
    exact h
  | cons move rest ih =>
    obtain ⟨between, hb, hs⟩ := Option.bind_eq_some_iff.1 hs
    exact ih (step?_lone h hb) hs

end Decoder

end GraphQLClient
