import GraphQLClient.Language.Selection

set_option autoImplicit false

/-!
# Properties of all selections below a selection

`Everywhere P` says that `P` holds at every depth, also in the bodies of fragments. `Registered` is
such a property: spreads with one serial number spread one fragment.
-/

namespace GraphQLClient.Selection

mutual
/-- The property holds of the selection and of all below it, fragment bodies included. -/
def Everywhere (P : Selection → Prop) : Selection → Prop
  | .leaf field => P (.leaf field)
  | .composite field typeName selections =>
    P (.composite field typeName selections) ∧ EverywhereAll P selections
  | .inlineFragment condition typeName selections =>
    P (.inlineFragment condition typeName selections) ∧ EverywhereAll P selections
  | .spread serial name condition typeName selections =>
    P (.spread serial name condition typeName selections) ∧ EverywhereAll P selections

def EverywhereAll (P : Selection → Prop) : List Selection → Prop
  | [] => True
  | selection :: rest => Everywhere P selection ∧ EverywhereAll P rest
end

variable {P : Selection → Prop}

mutual
def decideEverywhere [DecidablePred P] : (selection : Selection) → Decidable (Everywhere P selection)
  | .leaf field => inferInstanceAs (Decidable (P (.leaf field)))
  | .composite field typeName selections =>
    have := decideEverywhereAll selections
    inferInstanceAs (Decidable (P (.composite field typeName selections) ∧ EverywhereAll P selections))
  | .inlineFragment condition typeName selections =>
    have := decideEverywhereAll selections
    inferInstanceAs
      (Decidable (P (.inlineFragment condition typeName selections) ∧ EverywhereAll P selections))
  | .spread serial name condition typeName selections =>
    have := decideEverywhereAll selections
    inferInstanceAs
      (Decidable (P (.spread serial name condition typeName selections) ∧ EverywhereAll P selections))

def decideEverywhereAll [DecidablePred P] :
    (selections : List Selection) → Decidable (EverywhereAll P selections)
  | [] => .isTrue trivial
  | selection :: rest =>
    have := decideEverywhere selection
    have := decideEverywhereAll rest
    inferInstanceAs (Decidable (Everywhere P selection ∧ EverywhereAll P rest))
end

instance [DecidablePred P] (selections : List Selection) : Decidable (EverywhereAll P selections) :=
  decideEverywhereAll selections

theorem everywhereAll_iff {selections : List Selection} :
    EverywhereAll P selections ↔ ∀ selection ∈ selections, Everywhere P selection := by
  induction selections with
  | nil => simp [EverywhereAll]
  | cons selection rest ih => simp [EverywhereAll, ih]

theorem everywhereAll_append {before after : List Selection} :
    EverywhereAll P (before ++ after) ↔ EverywhereAll P before ∧ EverywhereAll P after := by
  simp only [everywhereAll_iff, List.mem_append, or_imp, forall_and]

theorem Everywhere.self {selection : Selection} (h : Everywhere P selection) : P selection := by
  cases selection <;> first | exact h | exact h.1

mutual
theorem Everywhere.and {Q R : Selection → Prop} (hr : ∀ selection, P selection → Q selection → R selection)
    {selection : Selection} (h : Everywhere P selection) (h' : Everywhere Q selection) :
    Everywhere R selection := by
  cases selection with
  | leaf field => exact hr _ h h'
  | composite field typeName selections => exact ⟨hr _ h.1 h'.1, EverywhereAll.and hr h.2 h'.2⟩
  | inlineFragment condition typeName selections =>
    exact ⟨hr _ h.1 h'.1, EverywhereAll.and hr h.2 h'.2⟩
  | spread serial name condition typeName selections =>
    exact ⟨hr _ h.1 h'.1, EverywhereAll.and hr h.2 h'.2⟩

theorem EverywhereAll.and {Q R : Selection → Prop}
    (hr : ∀ selection, P selection → Q selection → R selection) {selections : List Selection}
    (h : EverywhereAll P selections) (h' : EverywhereAll Q selections) :
    EverywhereAll R selections := by
  cases selections with
  | nil => trivial
  | cons selection rest => exact ⟨Everywhere.and hr h.1 h'.1, EverywhereAll.and hr h.2 h'.2⟩
end

theorem EverywhereAll.mono {Q : Selection → Prop} (hq : ∀ selection, P selection → Q selection)
    {selections : List Selection} (h : EverywhereAll P selections) : EverywhereAll Q selections :=
  h.and (fun selection hp _ => hq selection hp) h

theorem everywhere_below? {set inner : SelectionSet} {key : String}
    (h : EverywhereAll P set.selections) (hb : set.below? key = some inner) :
    EverywhereAll P inner.selections := by
  obtain ⟨selection, hs, hset⟩ := Option.bind_eq_some_iff.1 hb
  have hselection := everywhereAll_iff.1 h selection (List.mem_of_find?_eq_some hs)
  cases selection with
  | composite field typeName selections =>
    obtain rfl := Option.some.inj hset
    exact hselection.2
  | _ => cases hset

theorem everywhere_nodeSet? {set nodes : SelectionSet} (h : EverywhereAll P set.selections)
    (hn : set.nodeSet? = some nodes) : EverywhereAll P nodes.selections := by
  obtain ⟨edges, hedges, hnode⟩ := Option.bind_eq_some_iff.1 hn
  exact everywhere_below? (everywhere_below? h hedges) hnode

/-- A spread of a fragment that stands in the table. -/
def Registered (table : Nat → Option SelectionSet) : Selection → Prop
  | .spread serial _ _ typeName selections => table serial = some ⟨typeName, selections⟩
  | _ => True

end GraphQLClient.Selection
