import GraphQLClient.Proofs.Building.Growth
import GraphQLClient.Proofs.Language.Sameness

set_option autoImplicit false

/-!
# Gathering the fragments of an operation

The fragments of an operation are gathered by name, and a body is looked at where its name is met for
the first time. So they are all that the operation spreads at any depth exactly if the operation is
coherent, that is, if no two spreads of one name mean different fragments.
-/

namespace GraphQLClient

namespace Fragment

/-- The two are one fragment or have the same name, condition and body. -/
def Matches (a b : Fragment) : Prop := a = b ∨ a.same b = true

def WellKeyed (fragment : Fragment) : Prop :=
  Selection.EverywhereAll Selection.WellKeyed fragment.set.selections

theorem same_iff {a b : Fragment} : a.same b = true ↔
    a.name = b.name ∧ a.condition = b.condition ∧ a.set.typeName = b.set.typeName ∧
      Selection.sameAll a.set.selections b.set.selections = true := by
  simp only [same, Selection.ofFragment, Selection.same, Bool.and_eq_true, beq_iff_eq, and_assoc]

namespace Matches

variable {a b c : Fragment}

theorem name_eq (h : a.Matches b) : a.name = b.name :=
  h.elim (fun he => he ▸ rfl) fun hs => (same_iff.1 hs).1

theorem symm (hk : a.WellKeyed) (h : a.Matches b) : b.Matches a := by
  rcases h with rfl | h
  · exact .inl rfl
  · obtain ⟨hname, hcondition, htype, hset⟩ := same_iff.1 h
    exact .inr (same_iff.2
      ⟨hname.symm, hcondition.symm, htype.symm, Selection.sameAll_symm hk hset⟩)

theorem trans (h : a.Matches b) (h' : b.Matches c) : a.Matches c := by
  rcases h with rfl | h
  · exact h'
  · rcases h' with rfl | h'
    · exact .inr h
    · exact .inr (Selection.same_trans h h')

end Matches

end Fragment

namespace Selection

mutual
/-- The fragments spread in a selection and, in turn, in their bodies. -/
def reached : Selection → List Fragment
  | .leaf _ => []
  | .composite _ _ selections => reachedOfAll selections
  | .inlineFragment _ _ selections => reachedOfAll selections
  | .spread serial name condition typeName selections =>
    ⟨serial, name, condition, ⟨typeName, selections⟩⟩ :: reachedOfAll selections

def reachedOfAll : List Selection → List Fragment
  | [] => []
  | selection :: rest => reached selection ++ reachedOfAll rest
end

mutual
/-- Fragments reached from a selection are matched from every selection that is the same. -/
theorem reached_of_same {a b : Selection} (h : a.same b = true) :
    ∀ s ∈ a.reached, ∃ t ∈ b.reached, s.Matches t := by
  cases a <;> cases b <;> simp only [same, Bool.and_eq_true, beq_iff_eq, Bool.false_eq_true] at h <;>
    unfold reached
  case leaf.leaf => exact fun _ h => nomatch h
  case composite.composite => exact reached_of_sameAll h.2
  case inlineFragment.inlineFragment => exact reached_of_sameAll h.2
  case spread.spread =>
    obtain ⟨⟨⟨hname, hcondition⟩, htype⟩, hset⟩ := h
    rw [List.forall_mem_cons]
    constructor
    · exact ⟨_, List.mem_cons_self, .inr (Fragment.same_iff.2 ⟨hname, hcondition, htype, hset⟩)⟩
    · intro s hs
      obtain ⟨t, ht, hm⟩ := reached_of_sameAll hset s hs
      exact ⟨t, List.mem_cons_of_mem _ ht, hm⟩

theorem reached_of_sameAll {a b : List Selection} (h : sameAll a b = true) :
    ∀ s ∈ reachedOfAll a, ∃ t ∈ reachedOfAll b, s.Matches t := by
  cases a <;> cases b <;> simp only [sameAll, Bool.and_eq_true, Bool.false_eq_true] at h <;>
    unfold reachedOfAll
  case nil.nil => exact fun _ h => nomatch h
  case cons.cons =>
    intro s hs
    rcases List.mem_append.1 hs with hs | hs
    · obtain ⟨t, ht, hm⟩ := reached_of_same h.1 s hs
      exact ⟨t, List.mem_append_left _ ht, hm⟩
    · obtain ⟨t, ht, hm⟩ := reached_of_sameAll h.2 s hs
      exact ⟨t, List.mem_append_right _ ht, hm⟩
end

mutual
theorem spreadNames_of_same {a b : Selection} (h : a.same b = true) :
    a.spreadFragments.map (·.name) = b.spreadFragments.map (·.name) := by
  cases a <;> cases b <;> simp only [same, Bool.and_eq_true, beq_iff_eq, Bool.false_eq_true] at h <;>
    unfold spreadFragments
  case leaf.leaf => rfl
  case composite.composite => exact spreadNames_of_sameAll h.2
  case inlineFragment.inlineFragment => exact spreadNames_of_sameAll h.2
  case spread.spread => exact congrArg (fun name => [name]) h.1.1.1

theorem spreadNames_of_sameAll {a b : List Selection} (h : sameAll a b = true) :
    (spreadFragmentsOfAll a).map (·.name) = (spreadFragmentsOfAll b).map (·.name) := by
  cases a <;> cases b <;> simp only [sameAll, Bool.and_eq_true, Bool.false_eq_true] at h <;>
    unfold spreadFragmentsOfAll
  case nil.nil => rfl
  case cons.cons =>
    rw [List.map_append, List.map_append, spreadNames_of_same h.1, spreadNames_of_sameAll h.2]
end

end Selection

namespace Selection

mutual
theorem reached_subset {fragment : Fragment} {selection : Selection}
    (h : fragment ∈ selection.reached) :
    reachedOfAll fragment.set.selections ⊆ selection.reached := by
  cases selection with
  | leaf field => cases h
  | composite field typeName selections => exact reachedOfAll_subset h
  | inlineFragment condition typeName selections => exact reachedOfAll_subset h
  | spread serial name condition typeName selections =>
    unfold reached at h ⊢
    rcases List.mem_cons.1 h with rfl | h
    · exact List.subset_cons_self _ _
    · exact List.subset_cons_of_subset _ (reachedOfAll_subset h)

theorem reachedOfAll_subset {fragment : Fragment} {selections : List Selection}
    (h : fragment ∈ reachedOfAll selections) :
    reachedOfAll fragment.set.selections ⊆ reachedOfAll selections := by
  cases selections with
  | nil => cases h
  | cons selection rest =>
    rcases List.mem_append.1 h with h | h
    · exact fun _ hs => List.mem_append_left _ (reached_subset h hs)
    · exact fun _ hs => List.mem_append_right _ (reachedOfAll_subset h hs)
end

mutual
theorem Everywhere.reached {P : Selection → Prop} {selection : Selection}
    (h : selection.Everywhere P) {fragment : Fragment} (hf : fragment ∈ selection.reached) :
    EverywhereAll P fragment.set.selections := by
  cases selection with
  | leaf field => cases hf
  | composite field typeName selections => exact EverywhereAll.reachedOfAll h.2 hf
  | inlineFragment condition typeName selections => exact EverywhereAll.reachedOfAll h.2 hf
  | spread serial name condition typeName selections =>
    unfold Selection.reached at hf
    rcases List.mem_cons.1 hf with rfl | hf
    · exact h.2
    · exact EverywhereAll.reachedOfAll h.2 hf

theorem EverywhereAll.reachedOfAll {P : Selection → Prop} {selections : List Selection}
    (h : EverywhereAll P selections) {fragment : Fragment}
    (hf : fragment ∈ reachedOfAll selections) : EverywhereAll P fragment.set.selections := by
  cases selections with
  | nil => cases hf
  | cons selection rest =>
    rcases List.mem_append.1 hf with hf | hf
    · exact Everywhere.reached h.1 hf
    · exact EverywhereAll.reachedOfAll h.2 hf
end

end Selection

/-- The fragments spread in the body and, in turn, in theirs. -/
def Fragment.reached (fragment : Fragment) : List Fragment :=
  Selection.reachedOfAll fragment.set.selections

/-- What is reached from a fragment is matched from a fragment that it matches. -/
theorem Fragment.Matches.reached {a b s : Fragment} (h : a.Matches b) (hs : s ∈ a.reached) :
    ∃ t ∈ b.reached, s.Matches t := by
  rcases h with rfl | h
  · exact ⟨s, hs, .inl rfl⟩
  · exact Selection.reached_of_sameAll (Fragment.same_iff.1 h).2.2.2 s hs

/-- What gathering adds to the fragments found before: all that is spread is known by its name, and
so is all that is spread in the body of a fragment that was added. -/
structure Gathers (spread reached before after : List Fragment) : Prop where
  nodup : (before.map (·.name)).Nodup → (after.map (·.name)).Nodup
  kept : before ⊆ after
  known : ∀ s ∈ spread, s.name ∈ after.map (·.name)
  added : ∀ f ∈ after, f ∈ before ∨ f ∈ reached ∧
    ∀ s ∈ Selection.spreadFragmentsOfAll f.set.selections, s.name ∈ after.map (·.name)

namespace Gathers

variable {spread spread' reached reached' before between after : List Fragment}

theorem refl (before : List Fragment) : Gathers [] [] before before :=
  ⟨id, fun _ h => h, fun _ h => absurd h List.not_mem_nil, fun _ h => .inl h⟩

theorem trans (h : Gathers spread reached before between)
    (h' : Gathers spread' reached' between after) :
    Gathers (spread ++ spread') (reached ++ reached') before after := by
  have hnames : between.map (·.name) ⊆ after.map (·.name) := List.map_subset _ h'.kept
  constructor
  · exact fun hn => h'.nodup (h.nodup hn)
  · exact fun f hf => h'.kept (h.kept hf)
  · intro s hs
    rcases List.mem_append.1 hs with hs | hs
    · exact hnames (h.known s hs)
    · exact h'.known s hs
  · intro f hf
    rcases h'.added f hf with hf | ⟨hr, hf⟩
    · rcases h.added f hf with hf | ⟨hr, hf⟩
      · exact .inl hf
      · exact .inr ⟨List.mem_append_left _ hr, fun s hs => hnames (hf s hs)⟩
    · exact .inr ⟨List.mem_append_right _ hr, hf⟩

/-- A fragment is added in front of those that its body spreads. -/
theorem snoc {fragment : Fragment} (hf : fragment.name ∉ before.map (·.name))
    (h : Gathers (Selection.spreadFragmentsOfAll fragment.set.selections) reached
      (before ++ [fragment]) after) :
    Gathers [fragment] (fragment :: reached) before after := by
  have hmem : fragment ∈ after := h.kept (List.mem_append_right _ List.mem_cons_self)
  constructor
  · intro hn
    apply h.nodup
    rw [List.map_append, List.nodup_append]
    refine ⟨hn, by simp, fun name ha other hb hab => ?_⟩
    obtain rfl := List.mem_singleton.1 hb
    rw [hab] at ha
    exact hf ha
  · exact fun f hf => h.kept (List.mem_append_left _ hf)
  · intro s hs
    obtain rfl := List.mem_singleton.1 hs
    exact List.mem_map_of_mem hmem
  · intro f hf
    rcases h.added f hf with hf | ⟨hr, hf⟩
    · rcases List.mem_append.1 hf with hf | hf
      · exact .inl hf
      · obtain rfl := List.mem_singleton.1 hf
        exact .inr ⟨List.mem_cons_self, h.known⟩
    · exact .inr ⟨List.mem_cons_of_mem _ hr, hf⟩

end Gathers

namespace Selection

mutual
theorem gathers_addFragments (selection : Selection) (found : List Fragment) :
    Gathers selection.spreadFragments selection.reached found (selection.addFragments found) := by
  cases selection with
  | leaf field => exact .refl found
  | composite field typeName selections => exact gathers_addFragmentsOfAll selections found
  | inlineFragment condition typeName selections =>
    exact gathers_addFragmentsOfAll selections found
  | spread serial name condition typeName selections =>
    unfold spreadFragments reached addFragments
    by_cases hf : found.any (·.name == name) = true
    · rw [if_pos hf]
      have hname : name ∈ found.map (·.name) := by simpa using hf
      exact ⟨id, fun _ h => h, by simpa using hname, fun _ h => .inl h⟩
    · rw [if_neg hf]
      apply Gathers.snoc
      · simpa using hf
      · exact gathers_addFragmentsOfAll selections _

theorem gathers_addFragmentsOfAll (selections : List Selection) (found : List Fragment) :
    Gathers (spreadFragmentsOfAll selections) (reachedOfAll selections) found
      (addFragmentsOfAll found selections) := by
  cases selections with
  | nil => exact .refl found
  | cons selection rest =>
    exact (gathers_addFragments selection found).trans (gathers_addFragmentsOfAll rest _)
end

end Selection

namespace Operation

/-- The fragments spread at any depth, those included that gathering passes over. -/
def reached (operation : Operation) : List Fragment :=
  Selection.reachedOfAll operation.set.selections

/-- Spreads of one name mean one fragment. -/
def Coherent (operation : Operation) : Prop :=
  ∀ s ∈ operation.reached, ∀ t ∈ operation.reached, s.name = t.name → s.Matches t

variable {operation : Operation}

theorem gathers_fragments (operation : Operation) :
    Gathers (Selection.spreadFragmentsOfAll operation.set.selections) operation.reached []
      operation.fragments :=
  Selection.gathers_addFragmentsOfAll operation.set.selections []

theorem nodup_fragments (operation : Operation) : (operation.fragments.map (·.name)).Nodup :=
  operation.gathers_fragments.nodup List.nodup_nil

theorem fragments_subset_reached (operation : Operation) :
    operation.fragments ⊆ operation.reached := fun f hf =>
  (operation.gathers_fragments.added f hf).elim (fun h => nomatch h) And.left

end Operation

namespace Selection

/-- The fragments `known` stand for all spreads of their names among `reached`, and their bodies spread
known names. -/
structure Stand (known reached : List Fragment) : Prop where
  matching : ∀ c ∈ known, ∀ s ∈ reached, c.name = s.name → c.Matches s
  closed : ∀ c ∈ known, ∀ s ∈ spreadFragmentsOfAll c.set.selections, s.name ∈ known.map (·.name)

variable {known every : List Fragment}

/-- The body of a spread that a known fragment matches spreads known names. -/
theorem Stand.body {fragment : Fragment} (h : Stand known every) (hf : fragment ∈ every)
    (hn : fragment.name ∈ known.map (·.name)) :
    ∀ s ∈ spreadFragmentsOfAll fragment.set.selections, s.name ∈ known.map (·.name) := by
  obtain ⟨c, hc, hname⟩ := List.mem_map.1 hn
  intro s hs
  rcases h.matching c hc fragment hf hname with rfl | hsame
  · exact h.closed c hc s hs
  · have hs' : s.name ∈ (spreadFragmentsOfAll c.set.selections).map (·.name) := by
      rw [spreadNames_of_sameAll (Fragment.same_iff.1 hsame).2.2.2]
      exact List.mem_map_of_mem hs
    obtain ⟨t, ht, heq⟩ := List.mem_map.1 hs'
    exact heq ▸ h.closed c hc t ht

mutual
/-- Known names lead to known names only, however deep the spreads are nested. -/
theorem Stand.reached (h : Stand known every) {selection : Selection}
    (hs : ∀ s ∈ selection.spreadFragments, s.name ∈ known.map (·.name))
    (hr : selection.reached ⊆ every) : ∀ s ∈ selection.reached, s.name ∈ known.map (·.name) := by
  cases selection with
  | leaf field => exact fun _ h => nomatch h
  | composite field typeName selections =>
    unfold spreadFragments at hs
    unfold Selection.reached at hr ⊢
    exact Stand.reachedOfAll h hs hr
  | inlineFragment condition typeName selections =>
    unfold spreadFragments at hs
    unfold Selection.reached at hr ⊢
    exact Stand.reachedOfAll h hs hr
  | spread serial name condition typeName selections =>
    unfold spreadFragments at hs
    unfold Selection.reached at hr ⊢
    have hname := hs _ List.mem_cons_self
    rw [List.cons_subset] at hr
    rw [List.forall_mem_cons]
    exact ⟨hname, Stand.reachedOfAll h (h.body hr.1 hname) hr.2⟩

theorem Stand.reachedOfAll (h : Stand known every) {selections : List Selection}
    (hs : ∀ s ∈ spreadFragmentsOfAll selections, s.name ∈ known.map (·.name))
    (hr : reachedOfAll selections ⊆ every) :
    ∀ s ∈ reachedOfAll selections, s.name ∈ known.map (·.name) := by
  cases selections with
  | nil => exact fun _ h => nomatch h
  | cons selection rest =>
    unfold spreadFragmentsOfAll at hs
    unfold Selection.reachedOfAll at hr ⊢
    rw [List.append_subset] at hr
    rw [List.forall_mem_append] at hs ⊢
    exact ⟨Stand.reached h hs.1 hr.1, Stand.reachedOfAll h hs.2 hr.2⟩
end

end Selection

namespace Operation

variable {operation : Operation}

/-- In a coherent operation every spread has its definition among the fragments. -/
theorem Coherent.exists_fragment (h : operation.Coherent) {s : Fragment}
    (hs : s ∈ operation.reached) : ∃ c ∈ operation.fragments, c.name = s.name ∧ c.Matches s := by
  have hstand : Selection.Stand operation.fragments operation.reached := by
    constructor
    · exact fun c hc s hs hname => h c (operation.fragments_subset_reached hc) s hs hname
    · intro c hc
      rcases operation.gathers_fragments.added c hc with hnone | hadded
      · cases hnone
      · exact hadded.2
  have hname := hstand.reachedOfAll operation.gathers_fragments.known (fun _ h => h) s hs
  obtain ⟨c, hc, hname⟩ := List.mem_map.1 hname
  exact ⟨c, hc, hname, hstand.matching c hc s hs hname⟩

end Operation

end GraphQLClient
