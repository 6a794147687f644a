import Mathlib.Data.List.Forall2
import GraphQLClient.Language.Selection

set_option autoImplicit false

/-!
# What selections that are the same have in common

Selections that are the same answer to the same keys, and lists of them are the same one by one. So a
search by a key finds the same in both.
-/

namespace GraphQLClient

theorem Field.responseKey_of_same {a b : Field} (h : a.same b = true) :
    a.responseKey = b.responseKey := by
  simp only [Field.same, Bool.and_eq_true, beq_iff_eq] at h
  rw [Field.responseKey, Field.responseKey, h.1.1.1, h.1.1.2]

namespace Selection

theorem answers_of_same {a b : Selection} (h : a.same b = true) (key : String) :
    a.answers key = b.answers key := by
  cases a <;> cases b <;> simp only [same, Bool.false_eq_true, Bool.and_eq_true] at h <;>
    first
      | rfl
      | simp only [answers, field?, Field.responseKey_of_same h]
      | simp only [answers, field?, Field.responseKey_of_same h.1.1]

theorem sameAll_iff {selections others : List Selection} :
    sameAll selections others = true ↔
      List.Forall₂ (fun selection other => selection.same other = true) selections others := by
  induction selections generalizing others with
  | nil => cases others <;> simp [sameAll]
  | cons selection rest ih => cases others <;> simp [sameAll, ih]

/-- The first selections of a key belong together if selections that belong together answer to the
same keys. -/
theorem find?_forall₂ {R : Selection → Selection → Prop} {selections others : List Selection}
    (key : String) (hR : ∀ {selection other}, R selection other →
      selection.answers key = other.answers key) (h : List.Forall₂ R selections others) :
    Option.Rel R (selections.find? (answers key)) (others.find? (answers key)) := by
  induction h with
  | nil => exact .none
  | cons hfirst hrest ih =>
    rw [List.find?_cons, List.find?_cons, hR hfirst]
    split
    · exact .some hfirst
    · exact ih

end Selection

end GraphQLClient
