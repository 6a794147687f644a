import GraphQLClient.Proofs.Decoding.Sound

set_option autoImplicit false

/-!
# Checking that fields agree

Whether the fields of every object in a decoded value agree can be found out by looking at the models
in it one after the other.
-/

namespace GraphQLClient

namespace Selection

def agrees (a b : Selection) : Bool :=
  match a.field?, b.field? with
  | some f, some g => f.responseKey != g.responseKey ||
      (f.name == g.name && f.connection == g.connection &&
        a.fieldSet?.map (·.typeName) == b.fieldSet?.map (·.typeName))
  | _, _ => true

theorem agree_iff {fields : List Selection} :
    Agree fields ↔ ∀ a ∈ fields, ∀ b ∈ fields, a.agrees b = true := by
  constructor
  · intro h a ha b hb
    unfold agrees
    split
    · rename_i f g hf hg
      by_cases hk : f.responseKey = g.responseKey
      · obtain ⟨hn, hc, ht⟩ := h a ha b hb f g hf hg hk
        simp [hk, hn, hc, ht]
      · simp [hk]
    · rfl
  · intro h a ha b hb f g hf hg hk
    have hab := h a ha b hb
    unfold agrees at hab
    rw [hf, hg] at hab
    simpa [hk, and_assoc] using hab

instance (fields : List Selection) : Decidable (Agree fields) :=
  decidable_of_iff _ agree_iff.symm

end Selection

mutual
/-- The models of all objects in a value. -/
def Decoded.models : Decoded → List Model
  | .object model => model.models
  | .list items => Decoded.modelsOfItems items
  | .connection nodes _ _ => Model.modelsOfNodes nodes
  | _ => []

def Decoded.modelsOfItems : List Decoded → List Model
  | [] => []
  | item :: rest => item.models ++ Decoded.modelsOfItems rest

def Model.models : Model → List Model
  | .mk head values => .mk head values :: Model.modelsOfValues values

def Model.modelsOfValues : List (String × Decoded) → List Model
  | [] => []
  | (_, value) :: rest => value.models ++ Model.modelsOfValues rest

def Model.modelsOfNodes : List Model → List Model
  | [] => []
  | node :: rest => node.models ++ Model.modelsOfNodes rest
end

namespace Decoded

theorem models_of_get? {model : Model} {key : String} {value : Decoded} (h : model.get? key = some value) :
    ∀ inner ∈ value.models, inner ∈ model.models := by
  obtain ⟨head, values⟩ := model
  have hvalues : ∀ inner ∈ value.models, inner ∈ Model.modelsOfValues values := by
    change Keyed.find? key values = some value at h
    induction values with
    | nil => cases h
    | cons entry rest ih =>
      obtain ⟨name, found⟩ := entry
      intro inner hi
      rw [Keyed.find?] at h
      split at h
      · obtain rfl := Option.some.inj h
        exact List.mem_append_left _ hi
      · exact List.mem_append_right _ (ih h inner hi)
  exact fun inner hi => List.mem_cons_of_mem _ (hvalues inner hi)

theorem models_of_item {items : List Decoded} {index : Nat} {item : Decoded}
    (h : items[index]? = some item) : ∀ inner ∈ item.models, inner ∈ modelsOfItems items := by
  induction items generalizing index with
  | nil => cases h
  | cons first rest ih =>
    intro inner hi
    cases index with
    | zero =>
      obtain rfl : first = item := by simpa using h
      exact List.mem_append_left _ hi
    | succ index => exact List.mem_append_right _ (ih (by simpa using h) inner hi)

theorem models_of_node {nodes : List Model} {index : Nat} {node : Model}
    (h : nodes[index]? = some node) : ∀ inner ∈ node.models, inner ∈ Model.modelsOfNodes nodes := by
  induction nodes generalizing index with
  | nil => cases h
  | cons first rest ih =>
    intro inner hi
    cases index with
    | zero =>
      obtain rfl : first = node := by simpa using h
      exact List.mem_append_left _ hi
    | succ index => exact List.mem_append_right _ (ih (by simpa using h) inner hi)

/-- An address leads to one of the models. -/
theorem mem_models_of_at? {decoded : Decoded} {address : List Move} {model : Model}
    (h : decoded.at? address = some (.object model)) : model ∈ decoded.models := by
  induction address generalizing decoded with
  | nil =>
    obtain rfl := Option.some.inj h
    obtain ⟨head, values⟩ := model
    exact List.mem_cons_self
  | cons move rest ih =>
    obtain ⟨next, hn, h⟩ := Option.bind_eq_some_iff.1 h
    have hinner := ih h
    cases decoded with
    | object outer =>
      cases move with
      | key name => exact models_of_get? hn _ hinner
      | item index => cases hn
    | list items =>
      cases move with
      | key name => cases hn
      | item index => exact models_of_item hn _ hinner
    | connection nodes info mark =>
      cases move with
      | key name => cases hn
      | item index =>
        obtain ⟨node, hnode, rfl⟩ := Option.map_eq_some_iff.1 hn
        exact models_of_node hnode _ hinner
    | _ => cases move <;> cases hn

end Decoded

namespace Decoder

def agreesOn (decoder : Decoder) (decoded : Decoded) : Bool :=
  decoded.models.all fun model => decide (Selection.Agree
    (Selection.fieldsOnAll decoder.bundle model.type model.head.set.selections))

/-- The fields agree as soon as they do in each of the models. -/
theorem agrees_of_agreesOn {decoder : Decoder} {decoded : Decoded}
    (h : decoder.agreesOn decoded = true) : decoder.Agrees decoded :=
  fun _ _ ha => of_decide_eq_true (List.all_eq_true.1 h _ (Decoded.mem_models_of_at? ha))

end Decoder

end GraphQLClient
