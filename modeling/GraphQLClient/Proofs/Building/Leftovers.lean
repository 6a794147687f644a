import GraphQLClient.Proofs.Building.Documents

set_option autoImplicit false

/-!
# What a refused operation leaves behind

An operation that is refused for its name leaves the document as it is. One that is refused for a
fragment does not: the fragments in front of it were taken over and stay. Definitions and operations
that come later meet them, although no operation of the document spreads them.
-/

namespace GraphQLClient

namespace DocumentDraft

variable {draft : DocumentDraft} {operation : Operation}

/-- A different fragment of the name is held. -/
def refuses (draft : DocumentDraft) (fragment : Fragment) : Bool :=
  (draft.fragment? fragment.name).any fun found => !found.same fragment

/-- What taking over the fragments ends with: an error at the first that is refused. -/
def verdict (draft : DocumentDraft) (fragments : List Fragment) : Except BuildError Unit :=
  match fragments.find? draft.refuses with
  | some fragment => .error (.duplicateFragmentName fragment.name)
  | none => .ok ()

/-- Those fragments in front of the first refused one whose names are free. -/
def taken (draft : DocumentDraft) (fragments : List Fragment) : List Fragment :=
  (fragments.takeWhile (!draft.refuses ·)).filter fun fragment =>
    (draft.fragment? fragment.name).isNone

/-- What a refused operation leaves in the document. -/
def leftovers (draft : DocumentDraft) (operation : Operation) : List Fragment :=
  match draft.nameError? operation.name with
  | some _ => []
  | none => draft.taken operation.fragments

def holding (draft : DocumentDraft) (fragments : List Fragment) : DocumentDraft :=
  { draft with fragments := draft.fragments ++ fragments }

variable {draft : DocumentDraft} {operation : Operation} {fragment : Fragment}
  {fragments : List Fragment}

@[simp] theorem holding_nil (draft : DocumentDraft) : draft.holding [] = draft := by
  simp [holding]

theorem holding_eq_self_iff : draft.holding fragments = draft ↔ fragments = [] := by
  constructor
  · intro h
    exact List.append_right_eq_self.1 (congrArg DocumentDraft.fragments h)
  · rintro rfl
    exact draft.holding_nil

/-- Fragments that come to the document change nothing for other names. -/
theorem fragment?_holding {name : String} (hn : name ∉ fragments.map (·.name)) :
    (draft.holding fragments).fragment? name = draft.fragment? name := by
  have hnone : fragments.find? (·.name == name) = none := by
    rw [List.find?_eq_none]
    intro fragment hf heq
    exact hn (List.mem_map.2 ⟨fragment, hf, eq_of_beq heq⟩)
  rw [fragment?, fragment?, holding, List.find?_append, hnone, Option.or_none]

/-- A fragment that is there already, or whose name is free, is passed. -/
theorem verdict_cons_of_not_refuses (h : draft.refuses fragment = false) :
    draft.verdict (fragment :: fragments) = draft.verdict fragments := by
  rw [verdict, verdict, List.find?_cons_of_neg (by simp [h])]

theorem verdict_cons_of_refuses (h : draft.refuses fragment = true) :
    draft.verdict (fragment :: fragments) = .error (.duplicateFragmentName fragment.name) := by
  rw [verdict, List.find?_cons_of_pos h]

theorem taken_cons_of_free (h : draft.fragment? fragment.name = none) :
    draft.taken (fragment :: fragments) = fragment :: draft.taken fragments := by
  simp [taken, refuses, h]

theorem taken_cons_of_same {found : Fragment} (h : draft.fragment? fragment.name = some found)
    (hs : found.same fragment = true) :
    draft.taken (fragment :: fragments) = draft.taken fragments := by
  simp [taken, refuses, h, hs]

theorem taken_cons_of_refuses (h : draft.refuses fragment = true) :
    draft.taken (fragment :: fragments) = [] := by
  simp [taken, h]

/-- Fragments that came before do not decide which are refused, since names differ. -/
theorem addFragments_holding (draft : DocumentDraft) (earlier fragments : List Fragment)
    (hn : ((earlier ++ fragments).map (·.name)).Nodup) :
    (draft.holding earlier).addFragments fragments =
      (draft.verdict fragments, draft.holding (earlier ++ draft.taken fragments)) := by
  induction fragments generalizing earlier with
  | nil => simp [addFragments, taken, verdict]
  | cons fragment rest ih =>
    have hfresh : fragment.name ∉ earlier.map (·.name) := by
      intro hmem
      rw [List.map_append, List.nodup_append] at hn
      exact hn.2.2 _ hmem _ (List.mem_map_of_mem List.mem_cons_self) rfl
    rw [addFragments, fragment?_holding hfresh]
    cases hf : draft.fragment? fragment.name with
    | none =>
      have hsnoc : ({ draft.holding earlier with
          fragments := (draft.holding earlier).fragments ++ [fragment] } : DocumentDraft) =
          draft.holding (earlier ++ [fragment]) := by
        simp [holding]
      rw [hsnoc, ih (earlier ++ [fragment]) (by simpa using hn), taken_cons_of_free hf,
        verdict_cons_of_not_refuses (by simp [refuses, hf]), List.append_assoc,
        List.singleton_append]
    | some found =>
      by_cases hs : found.same fragment = true
      · have hrest : ((earlier ++ rest).map (·.name)).Nodup :=
          hn.sublist (((List.sublist_cons_self fragment rest).append_left earlier).map _)
        simp only [hs, if_true]
        rw [ih earlier hrest, taken_cons_of_same hf hs,
          verdict_cons_of_not_refuses (by simp [refuses, hf, hs])]
      · have hrefused : draft.refuses fragment = true := by simp [refuses, hf, hs]
        rw [taken_cons_of_refuses hrefused, verdict_cons_of_refuses hrefused, List.append_nil]
        simp [hs]

theorem addFragments_eq (draft : DocumentDraft) (operation : Operation) :
    draft.addFragments operation.fragments = (draft.verdict operation.fragments,
      draft.holding (draft.taken operation.fragments)) := by
  have h := draft.addFragments_holding [] operation.fragments operation.nodup_fragments
  rwa [holding_nil, List.nil_append] at h

/-- A refused operation leaves its leftovers and nothing else. -/
theorem addOperation_eq_of_error {e : BuildError} (h : (draft.addOperation operation).1 = .error e) :
    (draft.addOperation operation).2 = draft.holding (draft.leftovers operation) ∧
    (draft.nameError? operation.name = some e ∨ draft.nameError? operation.name = none ∧
      ∃ fragment, operation.fragments.find? draft.refuses = some fragment ∧
        e = .duplicateFragmentName fragment.name) := by
  rcases draft.addOperation_cases operation with
    ⟨e', hn, heq⟩ | ⟨hn, ⟨e', he, heq⟩ | ⟨-, heq⟩⟩
  · rw [heq] at h ⊢
    obtain rfl := Except.error.inj h
    exact ⟨by simp [leftovers, hn], .inl hn⟩
  · rw [heq] at h ⊢
    obtain rfl := Except.error.inj h
    rw [addFragments_eq] at he ⊢
    refine ⟨by simp [leftovers, hn], .inr ⟨hn, ?_⟩⟩
    unfold verdict at he
    split at he
    · next fragment hf => exact ⟨fragment, hf, (Except.error.inj he).symm⟩
    · cases he
  · rw [heq] at h
    cases h

theorem mem_leftovers (h : fragment ∈ draft.leftovers operation) :
    draft.nameError? operation.name = none ∧ fragment ∈ operation.fragments ∧
      draft.fragment? fragment.name = none := by
  unfold leftovers at h
  cases hn : draft.nameError? operation.name with
  | some e => simp [hn] at h
  | none =>
    rw [hn] at h
    obtain ⟨hmem, hfree⟩ := List.mem_filter.1 h
    exact ⟨rfl, (List.takeWhile_prefix _).subset hmem, Option.isNone_iff_eq_none.1 hfree⟩

theorem fragment?_holding_isSome (h : fragment ∈ fragments) :
    ((draft.holding fragments).fragment? fragment.name).isSome = true := by
  rw [fragment?, List.find?_isSome]
  exact ⟨fragment, List.mem_append_right _ h, by simp⟩

end DocumentDraft

inductive DocumentAnswer where
  | defined (outcome : BuildOutcome Fragment)
  | added (result : Except BuildError Unit)

namespace DocumentDraft

variable {draft : DocumentDraft} {operation : Operation}

def answer (draft : DocumentDraft) : DocumentCall → DocumentAnswer
  | .define serial fragment => .defined (draft.defineFragment serial fragment).1
  | .add operation => .added (draft.addOperation operation).1

/-- A different fragment of the same name. -/
def rival (fragment : Fragment) : Fragment :=
  ⟨fragment.serial, fragment.name, fragment.condition ++ "Rival", ⟨fragment.condition, []⟩⟩

theorem same_rival (fragment : Fragment) : fragment.same (rival fragment) = false := by
  have hne : fragment.condition ≠ fragment.condition ++ "Rival" := by
    intro h
    have hlength := congrArg String.length h
    rw [String.length_append] at hlength
    simp at hlength
  simp [Fragment.same, Selection.ofFragment, rival, Selection.same, hne]

/-- An operation that takes the place of another and spreads nothing but the fragment. -/
def instead (operation : Operation) (fragment : Fragment) : Operation :=
  { operation with set := ⟨operation.set.typeName, [.ofFragment fragment]⟩ }

/-- The first leftover decides a later call. -/
theorem answer_instead {first : Fragment} {rest : List Fragment}
    (h : draft.leftovers operation = first :: rest) :
    draft.answer (.add (instead operation (rival first))) = .added (.ok ()) ∧
      (draft.holding (first :: rest)).answer (.add (instead operation (rival first))) =
        .added (.error (.duplicateFragmentName first.name)) := by
  obtain ⟨hn, -, hfree⟩ := mem_leftovers (h ▸ List.mem_cons_self : first ∈ draft.leftovers operation)
  have hn' : (draft.holding (first :: rest)).nameError? operation.name = none := hn
  have hheld : (draft.holding (first :: rest)).fragment? first.name = some first := by
    rw [fragment?] at hfree ⊢
    rw [holding, List.find?_append, hfree, Option.none_or, List.find?_cons_of_pos (by simp)]
  have hfragments : (instead operation (rival first)).fragments = [rival first] := rfl
  have hname : (instead operation (rival first)).name = operation.name := rfl
  have hrival : (rival first).name = first.name := rfl
  simp [answer, addOperation, hname, hn, hn', hfragments, addFragments, hrival, hfree, hheld,
    same_rival]

/-- A refused operation leaves the operations as they are and its leftovers among the fragments. The
document is as if it had never been offered, for every later call, if and only if nothing is left over:
the name was refused, or all gathered fragments in front of the one that clashes were held before. A
name that is left over is never defined again. -/
theorem addOperation_refused (draft : DocumentDraft) (operation : Operation) {e : BuildError}
    (h : (draft.addOperation operation).1 = .error e) :
    (draft.addOperation operation).2 = draft.holding (draft.leftovers operation) ∧
    (draft.nameError? operation.name = some e ∨ draft.nameError? operation.name = none ∧
      ∃ fragment, operation.fragments.find? draft.refuses = some fragment ∧
        e = .duplicateFragmentName fragment.name) ∧
    ((draft.addOperation operation).2 = draft ↔ draft.leftovers operation = []) ∧
    ((∀ call, (draft.addOperation operation).2.answer call = draft.answer call) ↔
      draft.leftovers operation = []) ∧
    ∀ leftover ∈ draft.leftovers operation, leftover ∈ operation.fragments ∧
      draft.fragment? leftover.name = none ∧
      ∀ (serial : Nat) (fragment : FragmentDraft), fragment.name = leftover.name →
        ((draft.addOperation operation).2.defineFragment serial fragment).1.result =
          .error (.duplicateFragmentName leftover.name) := by
  obtain ⟨hafter, hreason⟩ := addOperation_eq_of_error h
  rw [hafter]
  refine ⟨rfl, hreason, holding_eq_self_iff, ⟨fun hsame => ?_, fun hnone => ?_⟩, ?_⟩
  · cases hleft : draft.leftovers operation with
    | nil => rfl
    | cons first rest =>
      obtain ⟨hbefore, hlater⟩ := answer_instead hleft
      rw [hleft] at hsame
      rw [hsame, hbefore] at hlater
      cases hlater
  · rw [hnone, holding_nil]
    exact fun _ => rfl
  · intro leftover hmem
    obtain ⟨-, hgathered, hfree⟩ := mem_leftovers hmem
    refine ⟨hgathered, hfree, fun serial fragment hname => ?_⟩
    simp [defineFragment, buildFragment, fragmentScope, hname, fragment?_holding_isSome hmem]

end DocumentDraft

def shopBadge : Fragment := shopFragment 2 "Badge" [.leaf (.plain "name")]

/-- Two documents define different labels, the second one a badge before. -/
def badgeCalls : List (Nat × DocumentCall) :=
  [(0, .define 0 ⟨"Label", "Shop", [.field "name" .none]⟩),
   (1, .define 2 ⟨"Badge", "Shop", [.field "name" .none]⟩),
   (1, .define 1 ⟨"Label", "Shop", [.field "id" .none]⟩)]

/-- A listing with the other label and then the badge. -/
def labelledFirst : Operation := shopListing [.ofFragment otherLabel, .ofFragment shopBadge]

/-- A listing with the badge and then the other label. -/
def badgedFirst : Operation := shopListing [.ofFragment shopBadge, .ofFragment otherLabel]

/-- The clash comes first, and nothing is left over. -/
theorem labelledFirst_refused :
    ((sampleBundle.documents badgeCalls 0).addOperation labelledFirst).1 =
        .error (.duplicateFragmentName "Label") ∧
      ((sampleBundle.documents badgeCalls 0).addOperation labelledFirst).2 =
        sampleBundle.documents badgeCalls 0 := by
  have h : ((sampleBundle.documents badgeCalls 0).addOperation labelledFirst).1 =
      .error (.duplicateFragmentName "Label") := rfl
  have hunchanged :=
    (DocumentDraft.addOperation_refused (sampleBundle.documents badgeCalls 0) labelledFirst h).2.2.1
  exact ⟨h, hunchanged.2 rfl⟩

/-- The badge stays in the document that refuses the listing, and a badge of its own is refused. -/
theorem badgedFirst_leaves_badge :
    ((⟨.query, some "Listing", [], [], [.object "shop" .none
      [.spread shopBadge, .spread otherLabel]]⟩ : OperationDraft).build sampleBundle).result =
        .ok badgedFirst ∧
      ((sampleBundle.documents badgeCalls 0).addOperation badgedFirst).1 =
        .error (.duplicateFragmentName "Label") ∧
      (sampleBundle.documents badgeCalls 0).document = ⟨[], [shopLabel]⟩ ∧
      ((sampleBundle.documents badgeCalls 0).addOperation badgedFirst).2.document =
        ⟨[], [shopLabel, shopBadge]⟩ ∧
      ((sampleBundle.documents badgeCalls 0).defineFragment 3
        ⟨"Badge", "Shop", [.field "id" .none]⟩).1.result = .ok (shopFragment 3 "Badge" []) ∧
      (((sampleBundle.documents badgeCalls 0).addOperation badgedFirst).2.defineFragment 3
        ⟨"Badge", "Shop", [.field "id" .none]⟩).1.result =
          .error (.duplicateFragmentName "Badge") :=
  ⟨rfl, rfl, rfl, rfl, rfl, rfl⟩

end GraphQLClient
