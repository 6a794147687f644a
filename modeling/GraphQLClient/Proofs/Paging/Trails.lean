import GraphQLClient.Paging.Prune
import GraphQLClient.Proofs.Decoding.Fields
import GraphQLClient.Proofs.Language.Counterparts

set_option autoImplicit false

/-!
# Trails through selections

A trail follows response keys through objects whose concrete types are known. `ends` lists the fields
that the last key may mean, in order; `Along` says that the fields on the way agree on the type of
their sets and that only the last one is a connection.
-/

namespace GraphQLClient

/-- From an object of type `type` to the value under `key`, which has a set on `typeName`. -/
structure Leg where
  type : TypeDescriptor
  key : String
  typeName : String

namespace Selection

def withCursor (cursor : String) : Selection → Selection
  | .leaf field => .leaf (field.withCursor cursor)
  | .composite field typeName selections => .composite (field.withCursor cursor) typeName selections
  | other => other

/-- The fields that a leg may mean. -/
def taken (bundle : Bundle) (leg : Leg) (selections : List Selection) : List Selection :=
  (fieldsOnAll bundle leg.type selections).filter (answers leg.key)

/-- The fields at the end of a trail. -/
def ends (bundle : Bundle) : List Leg → List Selection → List Selection
  | [], _ => []
  | [leg], selections => taken bundle leg selections
  | leg :: rest, selections =>
    (taken bundle leg selections).flatMap fun selection => ends bundle rest selection.inner

/-- A field that fits a leg of a trail, of which `last` is the last one. -/
def FitsLeg (leg : Leg) (last : Bool) : Selection → Prop
  | .composite field typeName _ => typeName = leg.typeName ∧ field.connection = last
  | _ => False

def Along (bundle : Bundle) : List Leg → List Selection → Prop
  | [], _ => True
  | leg :: rest, selections =>
    ∀ selection ∈ taken bundle leg selections,
      selection.FitsLeg leg rest.isEmpty ∧ Along bundle rest selection.inner

variable {bundle : Bundle} {leg next : Leg} {rest : List Leg} {before after : List Selection}

theorem ends_next : ends bundle (leg :: next :: rest) before =
    (taken bundle leg before).flatMap fun selection => ends bundle (next :: rest) selection.inner :=
  rfl

theorem taken_append : taken bundle leg (before ++ after) =
    taken bundle leg before ++ taken bundle leg after := by
  rw [taken, fieldsOnAll_append, List.filter_append]
  rfl

theorem ends_append (trail : List Leg) : ends bundle trail (before ++ after) =
    ends bundle trail before ++ ends bundle trail after := by
  rcases trail with _ | ⟨leg, _ | ⟨next, rest⟩⟩
  · rfl
  · exact taken_append
  · rw [ends_next, taken_append, List.flatMap_append]
    rfl

theorem along_append {trail : List Leg} : Along bundle trail (before ++ after) ↔
    Along bundle trail before ∧ Along bundle trail after := by
  cases trail with
  | nil => exact ⟨fun _ => ⟨trivial, trivial⟩, fun _ => trivial⟩
  | cons leg rest =>
    simp only [Along, taken_append, List.mem_append]
    refine ⟨fun h => ⟨fun s hs => h s (.inl hs), fun s hs => h s (.inr hs)⟩, fun h s hs => ?_⟩
    exact hs.elim (h.1 s) (h.2 s)

theorem ends_cons (trail : List Leg) (selection : Selection) : ends bundle trail (selection :: after) =
    ends bundle trail [selection] ++ ends bundle trail after := by
  rw [← ends_append, List.singleton_append]

theorem along_cons {trail : List Leg} {selection : Selection} :
    Along bundle trail (selection :: after) ↔
      Along bundle trail [selection] ∧ Along bundle trail after := by
  rw [← along_append, List.singleton_append]

theorem ends_of_taken_eq_nil (h : taken bundle leg after = []) :
    ends bundle (leg :: rest) after = [] := by
  cases rest with
  | nil => exact h
  | cons next rest => rw [ends_next, h, List.flatMap_nil]

/-- Where a trail ends somewhere, its first leg is taken. -/
theorem taken_ne_nil {selection : Selection}
    (h : (ends bundle (leg :: rest) after).head? = some selection) : taken bundle leg after ≠ [] := by
  intro hnil
  rw [ends_of_taken_eq_nil hnil] at h
  cases h

theorem along_of_taken_eq_nil (h : taken bundle leg after = []) : Along bundle (leg :: rest) after := by
  rw [Along, h]
  exact fun _ h => absurd h List.not_mem_nil

theorem taken_leaf {field : Field} (h : field.responseKey ≠ leg.key) :
    taken bundle leg [.leaf field] = [] := by
  simp [taken, fieldsOnAll, fieldsOn, answers, field?, h]

theorem taken_composite {field : Field} (typeName : String) (selections : List Selection)
    (h : field.responseKey = leg.key) :
    taken bundle leg [.composite field typeName selections] =
      [.composite field typeName selections] := by
  simp [taken, fieldsOnAll, fieldsOn, answers, field?, h]

theorem taken_composite_of_ne {field : Field} (typeName : String) (selections : List Selection)
    (h : field.responseKey ≠ leg.key) :
    taken bundle leg [.composite field typeName selections] = [] := by
  simp [taken, fieldsOnAll, fieldsOn, answers, field?, h]

theorem taken_inlineFragment (condition typeName : String) (selections : List Selection) :
    taken bundle leg [.inlineFragment condition typeName selections] =
      if Collected.applies bundle condition leg.type then taken bundle leg selections else [] := by
  simp only [taken, fieldsOnAll, fieldsOn, List.append_nil]
  split <;> rfl

theorem taken_spread (serial : Nat) (name condition typeName : String)
    (selections : List Selection) :
    taken bundle leg [.spread serial name condition typeName selections] =
      if Collected.applies bundle condition leg.type then taken bundle leg selections else [] := by
  simp only [taken, fieldsOnAll, fieldsOn, List.append_nil]
  split <;> rfl

/-- A leg and the trail after it see only what the leg takes. -/
theorem ends_congr (h : taken bundle leg before = taken bundle leg after) :
    ends bundle (leg :: rest) before = ends bundle (leg :: rest) after := by
  cases rest with
  | nil => exact h
  | cons next rest => rw [ends_next, h]; rfl

theorem along_congr (h : taken bundle leg before = taken bundle leg after) :
    Along bundle (leg :: rest) before ↔ Along bundle (leg :: rest) after := by
  rw [Along, h]
  rfl

theorem mem_taken {selection : Selection} {field : Field} (hs : selection ∈ before)
    (hf : selection.field? = some field) (hk : field.responseKey = leg.key) :
    selection ∈ taken bundle leg before := by
  induction before with
  | nil => cases hs
  | cons first others ih =>
    rw [← List.singleton_append, taken_append, List.mem_append]
    rcases List.mem_cons.1 hs with rfl | hs
    · refine .inl ?_
      cases selection <;> cases hf <;> simp [taken, fieldsOnAll, fieldsOn, answers, field?, hk]
    · exact .inr (ih hs)

/-! ## Selections that are the same -/

theorem sameAll_append {a b c d : List Selection} (h : sameAll a b = true) (h' : sameAll c d = true) :
    sameAll (a ++ c) (b ++ d) = true :=
  sameAll_iff.2 (List.rel_append (sameAll_iff.1 h) (sameAll_iff.1 h'))

theorem same_inner {a b : Selection} (h : a.same b = true) : sameAll a.inner b.inner = true := by
  cases a <;> cases b <;> simp only [same, Bool.false_eq_true, Bool.and_eq_true] at h <;>
    first
      | rfl
      | exact h.2

mutual
theorem same_fieldsOn (type : TypeDescriptor) {a b : Selection} (h : a.same b = true) :
    sameAll (fieldsOn bundle type a) (fieldsOn bundle type b) = true := by
  cases a with
  | leaf field =>
    cases b with
    | leaf field' => simp only [fieldsOn, sameAll, h, Bool.and_self]
    | _ => simp only [same, Bool.false_eq_true] at h
  | composite field typeName selections =>
    cases b with
    | composite field' typeName' selections' => simp only [fieldsOn, sameAll, h, Bool.and_self]
    | _ => simp only [same, Bool.false_eq_true] at h
  | inlineFragment condition typeName selections =>
    cases b with
    | inlineFragment condition' typeName' selections' =>
      simp only [same, Bool.and_eq_true, beq_iff_eq] at h
      obtain ⟨⟨rfl, -⟩, hs⟩ := h
      simp only [fieldsOn]
      split
      · exact sameAll_fieldsOnAll type hs
      · rfl
    | _ => simp only [same, Bool.false_eq_true] at h
  | spread serial name condition typeName selections =>
    cases b with
    | spread serial' name' condition' typeName' selections' =>
      simp only [same, Bool.and_eq_true, beq_iff_eq] at h
      obtain ⟨⟨⟨-, rfl⟩, -⟩, hs⟩ := h
      simp only [fieldsOn]
      split
      · exact sameAll_fieldsOnAll type hs
      · rfl
    | _ => simp only [same, Bool.false_eq_true] at h

theorem sameAll_fieldsOnAll (type : TypeDescriptor) {a b : List Selection}
    (h : sameAll a b = true) :
    sameAll (fieldsOnAll bundle type a) (fieldsOnAll bundle type b) = true := by
  cases a with
  | nil => cases b <;> first | rfl | cases h
  | cons s a =>
    cases b with
    | nil => cases h
    | cons t b =>
      simp only [sameAll, Bool.and_eq_true] at h
      simp only [fieldsOnAll]
      exact sameAll_append (same_fieldsOn type h.1) (sameAll_fieldsOnAll type h.2)
end

theorem sameAll_taken {a b : List Selection} (h : sameAll a b = true) :
    sameAll (taken bundle leg a) (taken bundle leg b) = true := by
  have hfields : sameAll (fieldsOnAll bundle leg.type a) (fieldsOnAll bundle leg.type b) = true :=
    sameAll_fieldsOnAll leg.type h
  refine sameAll_iff.2 (List.rel_filter (fun s t hst => ?_) (sameAll_iff.1 hfields))
  exact Bool.eq_iff_iff.1 (answers_of_same hst leg.key)

/-- Sets that are the same have the same ends. -/
theorem sameAll_ends (trail : List Leg) {a b : List Selection} (h : sameAll a b = true) :
    sameAll (ends bundle trail a) (ends bundle trail b) = true := by
  induction trail generalizing a b with
  | nil => rfl
  | cons leg rest ih =>
    cases rest with
    | nil => exact sameAll_taken h
    | cons next rest =>
      refine sameAll_iff.2 (List.rel_flatMap (sameAll_iff.1 (sameAll_taken h)) fun s t hst => ?_)
      exact sameAll_iff.1 (ih (same_inner hst))

theorem eq_nil_of_sameAll {a : List Selection} (h : sameAll [] a = true) : a = [] := by
  cases a <;> first | rfl | cases h

end Selection

end GraphQLClient
