import Mathlib
import GraphQLClient.Proofs.Language.Everywhere

set_option autoImplicit false

/-!
# Sameness is an equivalence

`Value.same` passes over the order of object fields and of arguments, and looks for each entry of the
first among those of the second. It is transitive, and it is symmetric where no name stands twice in
an object or among arguments, since then as many entries are the same entries.
-/

namespace GraphQLClient

namespace Value

mutual
/-- No name stands twice in an object, at any depth. -/
def WellKeyed : Value → Prop
  | .list items => WellKeyedItems items
  | .object fields => (Keyed.names fields).Nodup ∧ WellKeyedFields fields
  | _ => True

def WellKeyedItems : List Value → Prop
  | [] => True
  | item :: rest => WellKeyed item ∧ WellKeyedItems rest

def WellKeyedFields : List (String × Value) → Prop
  | [] => True
  | (_, value) :: rest => WellKeyed value ∧ WellKeyedFields rest
end

mutual
def decideWellKeyed : (value : Value) → Decidable (WellKeyed value)
  | .list items => decideWellKeyedItems items
  | .object fields =>
    have := decideWellKeyedFields fields
    inferInstanceAs (Decidable (_ ∧ _))
  | .null | .boolean _ | .int _ | .float _ | .string _ | .enum _ | .var _ => .isTrue trivial

def decideWellKeyedItems : (items : List Value) → Decidable (WellKeyedItems items)
  | [] => .isTrue trivial
  | item :: rest =>
    have := decideWellKeyed item
    have := decideWellKeyedItems rest
    inferInstanceAs (Decidable (_ ∧ _))

def decideWellKeyedFields : (fields : List (String × Value)) → Decidable (WellKeyedFields fields)
  | [] => .isTrue trivial
  | (_, value) :: rest =>
    have := decideWellKeyed value
    have := decideWellKeyedFields rest
    inferInstanceAs (Decidable (_ ∧ _))
end

instance (fields : List (String × Value)) : Decidable (WellKeyedFields fields) :=
  decideWellKeyedFields fields

theorem sameFields_iff {fields others : List (String × Value)} :
    sameFields fields others = true ↔
      ∀ entry ∈ fields, ∃ b, Keyed.find? entry.1 others = some b ∧ same entry.2 b = true := by
  induction fields with
  | nil => simp [sameFields]
  | cons entry rest ih =>
    obtain ⟨name, value⟩ := entry
    rw [sameFields, Bool.and_eq_true, ih, List.forall_mem_cons]
    cases Keyed.find? name others <;> simp

/-- As many entries with every name of `fields` are entries with just these names. -/
theorem names_perm_of_sameFields {fields others : List (String × Value)}
    (hn : (Keyed.names fields).Nodup) (hl : fields.length = others.length)
    (h : sameFields fields others = true) :
    (Keyed.names fields).Perm (Keyed.names others) := by
  have hsub : Keyed.names fields ⊆ Keyed.names others := by
    intro name hm
    obtain ⟨entry, he, rfl⟩ := List.mem_map.1 hm
    obtain ⟨b, hb, -⟩ := sameFields_iff.1 h entry he
    exact List.mem_map.2 ⟨(entry.1, b), Keyed.mem_of_find? hb, rfl⟩
  apply (List.subperm_of_subset hn hsub).perm_of_length_le
  simp [Keyed.names, hl]

/-- Entries are found the other way around, as far as their values are. -/
theorem sameFields_symm_of {fields others : List (String × Value)}
    (hn : (Keyed.names fields).Nodup) (hl : fields.length = others.length)
    (hv : ∀ entry ∈ fields, ∀ b, same entry.2 b = true → same b entry.2 = true)
    (h : sameFields fields others = true) : sameFields others fields = true := by
  have hperm := names_perm_of_sameFields hn hl h
  have hn' : (Keyed.names others).Nodup := hperm.nodup_iff.1 hn
  rw [sameFields_iff]
  rintro ⟨name, b⟩ hb
  have hname : name ∈ Keyed.names fields :=
    hperm.mem_iff.2 (List.mem_map_of_mem hb)
  obtain ⟨⟨_, a⟩, ha, rfl⟩ := List.mem_map.1 hname
  obtain ⟨b', hb', hsame⟩ := sameFields_iff.1 h _ ha
  obtain rfl := Option.some.inj (hb'.symm.trans (Keyed.find?_of_mem hn' hb))
  exact ⟨a, Keyed.find?_of_mem hn ha, hv _ ha _ hsame⟩

theorem sameFields_trans_of {fields others further : List (String × Value)}
    (hv : ∀ entry ∈ fields, ∀ b c, same entry.2 b = true → same b c = true → same entry.2 c = true)
    (h : sameFields fields others = true) (h' : sameFields others further = true) :
    sameFields fields further = true := by
  rw [sameFields_iff] at h h' ⊢
  intro entry he
  obtain ⟨b, hb, hab⟩ := h entry he
  obtain ⟨c, hc, hbc⟩ := h' _ (Keyed.mem_of_find? hb)
  exact ⟨c, hc, hv entry he b c hab hbc⟩

mutual
theorem same_symm {a b : Value} (hk : a.WellKeyed) (h : same a b = true) : same b a = true := by
  cases a <;> cases b <;> simp only [same, Bool.false_eq_true] at h ⊢
  case list.list items others => exact sameItems_symm hk h
  case object.object fields others =>
    rw [Bool.and_eq_true, beq_iff_eq] at h ⊢
    exact ⟨h.1.symm, sameFields_symm_of hk.1 h.1 (same_symm_of_mem hk.2) h.2⟩
  all_goals exact BEq.symm h

theorem sameItems_symm {items others : List Value} (hk : WellKeyedItems items)
    (h : sameItems items others = true) : sameItems others items = true := by
  cases items with
  | nil => cases others <;> first | rfl | simp [sameItems] at h
  | cons item rest =>
    cases others with
    | nil => simp [sameItems] at h
    | cons other others =>
      rw [sameItems, Bool.and_eq_true] at h ⊢
      exact ⟨same_symm hk.1 h.1, sameItems_symm hk.2 h.2⟩

theorem same_symm_of_mem {fields : List (String × Value)} (hk : WellKeyedFields fields) :
    ∀ entry ∈ fields, ∀ b, same entry.2 b = true → same b entry.2 = true := by
  cases fields with
  | nil => exact fun _ h => nomatch h
  | cons entry rest =>
    rw [List.forall_mem_cons]
    exact ⟨fun b => same_symm hk.1, same_symm_of_mem hk.2⟩
end

mutual
theorem same_trans {a b c : Value} (h : same a b = true) (h' : same b c = true) :
    same a c = true := by
  cases a <;> cases b <;> simp only [same, Bool.false_eq_true] at h <;> cases c <;>
    simp only [same, Bool.false_eq_true] at h' ⊢
  case list.list.list items others further => exact sameItems_trans h h'
  case object.object.object fields others further =>
    rw [Bool.and_eq_true, beq_iff_eq] at h h' ⊢
    exact ⟨h.1.trans h'.1, sameFields_trans_of (same_trans_of_mem fields) h.2 h'.2⟩
  all_goals exact BEq.trans h h'

theorem sameItems_trans {items others further : List Value} (h : sameItems items others = true)
    (h' : sameItems others further = true) : sameItems items further = true := by
  cases items <;> cases others <;> simp only [sameItems, Bool.false_eq_true] at h <;> cases further <;>
    simp only [sameItems, Bool.false_eq_true] at h' ⊢
  rw [Bool.and_eq_true] at h h' ⊢
  exact ⟨same_trans h.1 h'.1, sameItems_trans h.2 h'.2⟩

theorem same_trans_of_mem (fields : List (String × Value)) : ∀ entry ∈ fields, ∀ b c,
    same entry.2 b = true → same b c = true → same entry.2 c = true := by
  cases fields with
  | nil => exact fun _ h => nomatch h
  | cons entry rest =>
    rw [List.forall_mem_cons]
    exact ⟨fun b c => same_trans, same_trans_of_mem rest⟩
end

theorem sameArguments_symm {a b : List (String × Value)} (hn : (Keyed.names a).Nodup)
    (hk : WellKeyedFields a) (h : sameArguments a b = true) : sameArguments b a = true := by
  rw [sameArguments, Bool.and_eq_true, beq_iff_eq] at h ⊢
  exact ⟨h.1.symm, sameFields_symm_of hn h.1 (same_symm_of_mem hk) h.2⟩

theorem sameArguments_trans {a b c : List (String × Value)} (h : sameArguments a b = true)
    (h' : sameArguments b c = true) : sameArguments a c = true := by
  rw [sameArguments, Bool.and_eq_true, beq_iff_eq] at h h' ⊢
  exact ⟨h.1.trans h'.1, sameFields_trans_of (same_trans_of_mem a) h.2 h'.2⟩

end Value

namespace Field

/-- Arguments and the objects in them have distinct names. -/
def WellKeyed (field : Field) : Prop :=
  (Keyed.names field.arguments).Nodup ∧ Value.WellKeyedFields field.arguments

instance : DecidablePred WellKeyed := fun _ => inferInstanceAs (Decidable (_ ∧ _))

theorem same_symm {a b : Field} (hk : a.WellKeyed) (h : a.same b = true) : b.same a = true := by
  simp only [same, Bool.and_eq_true, beq_iff_eq] at h ⊢
  obtain ⟨⟨⟨hname, halias⟩, harguments⟩, hconnection⟩ := h
  exact ⟨⟨⟨hname.symm, halias.symm⟩, Value.sameArguments_symm hk.1 hk.2 harguments⟩,
    hconnection.symm⟩

theorem same_trans {a b c : Field} (h : a.same b = true) (h' : b.same c = true) :
    a.same c = true := by
  simp only [same, Bool.and_eq_true, beq_iff_eq] at h h' ⊢
  obtain ⟨⟨⟨hname, halias⟩, harguments⟩, hconnection⟩ := h
  obtain ⟨⟨⟨hname', halias'⟩, harguments'⟩, hconnection'⟩ := h'
  exact ⟨⟨⟨hname.trans hname', halias.trans halias'⟩,
    Value.sameArguments_trans harguments harguments'⟩, hconnection.trans hconnection'⟩

end Field

namespace Selection

/-- The fields of the selection, if it is one, are well keyed. -/
def WellKeyed (selection : Selection) : Prop :=
  ∀ field, selection.field? = some field → field.WellKeyed

instance : DecidablePred WellKeyed := fun selection =>
  decidable_of_iff (∀ field ∈ selection.field?, field.WellKeyed) Iff.rfl

mutual
theorem same_symm {a b : Selection} (hk : a.Everywhere WellKeyed) (h : a.same b = true) :
    b.same a = true := by
  cases a <;> cases b <;> simp only [same, Bool.and_eq_true, beq_iff_eq, Bool.false_eq_true] at h ⊢
  case leaf.leaf field other => exact Field.same_symm (hk field rfl) h
  case composite.composite field type selections other type' selections' =>
    exact ⟨⟨Field.same_symm (hk.1 field rfl) h.1.1, h.1.2.symm⟩, sameAll_symm hk.2 h.2⟩
  case inlineFragment.inlineFragment => exact ⟨⟨h.1.1.symm, h.1.2.symm⟩, sameAll_symm hk.2 h.2⟩
  case spread.spread =>
    exact ⟨⟨⟨h.1.1.1.symm, h.1.1.2.symm⟩, h.1.2.symm⟩, sameAll_symm hk.2 h.2⟩

theorem sameAll_symm {a b : List Selection} (hk : EverywhereAll WellKeyed a)
    (h : sameAll a b = true) : sameAll b a = true := by
  cases a <;> cases b <;> simp only [sameAll, Bool.and_eq_true, Bool.false_eq_true] at h ⊢
  exact ⟨same_symm hk.1 h.1, sameAll_symm hk.2 h.2⟩
end

mutual
theorem same_trans {a b c : Selection} (h : a.same b = true) (h' : b.same c = true) :
    a.same c = true := by
  cases a <;> cases b <;>
    simp only [same, Bool.and_eq_true, beq_iff_eq, Bool.false_eq_true] at h <;> cases c <;>
    simp only [same, Bool.and_eq_true, beq_iff_eq, Bool.false_eq_true] at h' ⊢
  case leaf.leaf.leaf => exact Field.same_trans h h'
  case composite.composite.composite =>
    exact ⟨⟨Field.same_trans h.1.1 h'.1.1, h.1.2.trans h'.1.2⟩, sameAll_trans h.2 h'.2⟩
  case inlineFragment.inlineFragment.inlineFragment =>
    exact ⟨⟨h.1.1.trans h'.1.1, h.1.2.trans h'.1.2⟩, sameAll_trans h.2 h'.2⟩
  case spread.spread.spread =>
    exact ⟨⟨⟨h.1.1.1.trans h'.1.1.1, h.1.1.2.trans h'.1.1.2⟩, h.1.2.trans h'.1.2⟩,
      sameAll_trans h.2 h'.2⟩

theorem sameAll_trans {a b c : List Selection} (h : sameAll a b = true) (h' : sameAll b c = true) :
    sameAll a c = true := by
  cases a <;> cases b <;> simp only [sameAll, Bool.and_eq_true, Bool.false_eq_true] at h <;> cases c <;>
    simp only [sameAll, Bool.and_eq_true, Bool.false_eq_true] at h' ⊢
  exact ⟨same_trans h.1 h'.1, sameAll_trans h.2 h'.2⟩
end

end Selection

end GraphQLClient
