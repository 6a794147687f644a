import GraphQLClient.Proofs.Building.Documents

set_option autoImplicit false

/-!
# Names in a document

Whatever a document is asked for, in any order and with any operations, its operations have different
names, an anonymous operation is alone, and its fragments have different names. So the operation that
is sent for a name is the one that was accepted under it.
-/

namespace GraphQLClient

/-- No name stands for two things, and an operation without a name has no other beside it. -/
structure Document.WellNamed (document : Document) : Prop where
  operations : (document.operations.map (·.name)).Nodup
  anonymous : ∀ operation ∈ document.operations,
    operation.name = none → document.operations = [operation]
  fragments : (document.fragments.map (·.name)).Nodup

namespace DocumentDraft

variable {draft : DocumentDraft}

theorem nameError?_eq_none_iff {name : Option String} :
    draft.nameError? name = none ↔
      (name = none → draft.operations = []) ∧
      (∀ operation ∈ draft.operations, operation.name ≠ none ∧ operation.name ≠ name) := by
  cases name with
  | none =>
    cases hops : draft.operations <;> simp [nameError?, hops]
  | some name =>
    by_cases hanonymous : draft.operations.any (·.name.isNone) = true
    · rw [nameError?, if_pos hanonymous]
      simp only [reduceCtorEq, false_iff]
      rintro ⟨-, hnamed⟩
      obtain ⟨operation, ho, hnone⟩ := List.any_eq_true.1 hanonymous
      exact (hnamed operation ho).1 (Option.isNone_iff_eq_none.1 hnone)
    · have hnamed : ∀ operation ∈ draft.operations, operation.name ≠ none := by
        intro operation ho hnone
        exact hanonymous (List.any_eq_true.2 ⟨operation, ho, Option.isNone_iff_eq_none.2 hnone⟩)
      by_cases hsame : draft.operations.any (·.name == some name) = true
      · rw [nameError?, if_neg hanonymous, if_pos hsame]
        simp only [reduceCtorEq, false_iff]
        rintro ⟨-, hfree⟩
        obtain ⟨operation, ho, heq⟩ := List.any_eq_true.1 hsame
        exact (hfree operation ho).2 (eq_of_beq heq)
      · rw [nameError?, if_neg hanonymous, if_neg hsame]
        refine iff_of_true rfl ⟨by simp, fun operation ho => ?_⟩
        refine ⟨hnamed operation ho, fun heq => hsame ?_⟩
        exact List.any_eq_true.2 ⟨operation, ho, beq_iff_eq.2 heq⟩

theorem GrowsTo.wellNamed {after : DocumentDraft} (hgrows : GrowsTo draft after)
    (h : draft.document.WellNamed) : after.document.WellNamed := by
  have hops : after.document.operations = draft.document.operations := hgrows.operations
  constructor
  · rw [hops]
    exact h.operations
  · rw [hops]
    exact h.anonymous
  · exact hgrows.distinct h.fragments

/-- An operation joins others with its name free. -/
theorem wellNamed_snoc {operation : Operation} (h : draft.document.WellNamed)
    (hn : draft.nameError? operation.name = none) :
    (document { draft with operations := draft.operations ++ [operation] }).WellNamed := by
  obtain ⟨halone, hfree⟩ := nameError?_eq_none_iff.1 hn
  constructor
  · change ((draft.operations ++ [operation]).map (·.name)).Nodup
    rw [List.map_append, List.nodup_append]
    refine ⟨h.operations, by simp, fun name hname other hother => ?_⟩
    obtain ⟨earlier, he, rfl⟩ := List.mem_map.1 hname
    rw [List.map_singleton, List.mem_singleton] at hother
    rw [hother]
    exact (hfree earlier he).2
  · intro other ho hnone
    rcases List.mem_append.1 ho with ho | ho
    · exact absurd hnone (hfree other ho).1
    · obtain rfl := List.mem_singleton.1 ho
      change draft.operations ++ [other] = [other]
      rw [halone hnone, List.nil_append]
  · exact h.fragments

/-- Every call keeps names apart, whether it is granted or refused. -/
theorem wellNamed_next (h : draft.document.WellNamed) (call : DocumentCall) :
    (draft.next call).document.WellNamed := by
  cases call with
  | define serial fragment => exact (growsTo_defineFragment draft serial fragment).wellNamed h
  | add operation =>
    have hgrows := growsTo_addFragments operation.fragments draft
    rcases draft.addOperation_cases operation with
      ⟨e, -, heq⟩ | ⟨hn, ⟨e, -, heq⟩ | ⟨-, heq⟩⟩
    · rwa [next, heq]
    · rw [next, heq]
      exact hgrows.wellNamed h
    · rw [next, heq, ← hgrows.operations]
      refine wellNamed_snoc (hgrows.wellNamed h) ?_
      rw [nameError?_eq_none_iff] at hn ⊢
      rwa [hgrows.operations]

def run (draft : DocumentDraft) (calls : List DocumentCall) : DocumentDraft := calls.foldl next draft

theorem wellNamed_run (h : draft.document.WellNamed) (calls : List DocumentCall) :
    (draft.run calls).document.WellNamed := by
  induction calls generalizing draft with
  | nil => exact h
  | cons call rest ih => exact ih (wellNamed_next h call)

/-- The operations for which a call was answered with success, in their order. -/
def accepted (draft : DocumentDraft) : List DocumentCall → List Operation
  | [] => []
  | .define serial fragment :: rest => accepted (draft.next (.define serial fragment)) rest
  | .add operation :: rest =>
    match (draft.addOperation operation).1 with
    | .ok () => operation :: accepted (draft.next (.add operation)) rest
    | .error _ => accepted (draft.next (.add operation)) rest

theorem operations_run (draft : DocumentDraft) (calls : List DocumentCall) :
    (draft.run calls).operations = draft.operations ++ draft.accepted calls := by
  induction calls generalizing draft with
  | nil => exact (List.append_nil _).symm
  | cons call rest ih =>
    refine (ih (draft.next call)).trans ?_
    cases call with
    | define serial fragment =>
      rw [accepted, next, (growsTo_defineFragment draft serial fragment).operations]
    | add operation =>
      have hkept := (growsTo_addFragments operation.fragments draft).operations
      rcases draft.addOperation_cases operation with
        ⟨e, -, heq⟩ | ⟨-, ⟨e, -, heq⟩ | ⟨-, heq⟩⟩
      · simp only [accepted, next, heq]
      · simp only [accepted, next, heq, hkept]
      · simp only [accepted, next, heq, List.append_assoc, List.singleton_append]

end DocumentDraft

namespace Document.WellNamed

variable {document : Document} {operation : Operation} {fragment : Fragment} {name : String}

theorem eq_of_name_eq {other : Operation} (h : document.WellNamed)
    (ho : operation ∈ document.operations) (ho' : other ∈ document.operations)
    (hn : operation.name = other.name) : operation = other :=
  List.inj_on_of_nodup_map h.operations ho ho' hn

theorem operation_some_eq_ok_iff (h : document.WellNamed) :
    document.operation (some name) = .ok operation ↔
      operation ∈ document.operations ∧ operation.name = some name := by
  cases hf : document.operations.find? (·.name == some name) with
  | none =>
    simp only [Document.operation, hf, reduceCtorEq, false_iff]
    rintro ⟨ho, hn⟩
    exact List.find?_eq_none.1 hf operation ho (beq_iff_eq.2 hn)
  | some found =>
    have hname : found.name = some name := by simpa using List.find?_some hf
    simp only [Document.operation, hf, Except.ok.injEq]
    constructor
    · rintro rfl
      exact ⟨List.mem_of_find?_eq_some hf, hname⟩
    · rintro ⟨ho, hn⟩
      exact h.eq_of_name_eq (List.mem_of_find?_eq_some hf) ho (hname.trans hn.symm)

theorem fragment?_eq_some_iff (h : document.WellNamed) :
    document.fragment? name = some fragment ↔
      fragment ∈ document.fragments ∧ fragment.name = name := by
  constructor
  · intro hf
    exact ⟨List.mem_of_find?_eq_some hf, by simpa using List.find?_some hf⟩
  · rintro ⟨hf, rfl⟩
    rw [Document.fragment?, ← List.head?_filter, DocumentDraft.filter_name_eq h.fragments hf,
      List.head?_cons]

end Document.WellNamed

namespace Document

variable {document : Document}

theorem operation_some_eq_error_iff {name : String} {e : OperationChoiceError} :
    document.operation (some name) = .error e ↔
      e = .unknown name ∧ ∀ operation ∈ document.operations, operation.name ≠ some name := by
  cases hf : document.operations.find? (·.name == some name) with
  | none =>
    simp only [Document.operation, hf, Except.error.injEq]
    constructor
    · rintro rfl
      exact ⟨rfl, fun operation ho hn => List.find?_eq_none.1 hf operation ho (beq_iff_eq.2 hn)⟩
    · exact fun h => h.1.symm
  | some found =>
    simp only [Document.operation, hf, reduceCtorEq, false_iff]
    rintro ⟨-, hnone⟩
    exact hnone found (List.mem_of_find?_eq_some hf) (by simpa using List.find?_some hf)

theorem operation_none_eq_ok_iff {operation : Operation} :
    document.operation none = .ok operation ↔ document.operations = [operation] := by
  rcases hops : document.operations with _ | ⟨first, _ | ⟨second, rest⟩⟩ <;>
    simp [Document.operation, hops]

theorem operation_none_eq_error_iff {e : OperationChoiceError} :
    document.operation none = .error e ↔
      (e = .empty ∧ document.operations = []) ∨
      (e = .ambiguous document.operations.length ∧ 2 ≤ document.operations.length) := by
  rcases hops : document.operations with _ | ⟨first, _ | ⟨second, rest⟩⟩ <;>
    simp [Document.operation, hops, eq_comm]

end Document

namespace DocumentDraft

/-- After any calls no name in the document stands for two things, and an operation is chosen among
those that were accepted: the one of the name, or without a name the only one. -/
theorem run_names (bundle : Bundle) (calls : List DocumentCall) :
    ((empty bundle).run calls).document.WellNamed ∧
    ((empty bundle).run calls).document.operations = (empty bundle).accepted calls ∧
    (∀ name operation, ((empty bundle).run calls).document.operation (some name) = .ok operation ↔
      operation ∈ (empty bundle).accepted calls ∧ operation.name = some name) ∧
    (∀ name e, ((empty bundle).run calls).document.operation (some name) = .error e ↔
      e = .unknown name ∧ ∀ operation ∈ (empty bundle).accepted calls, operation.name ≠ some name) ∧
    (∀ operation, ((empty bundle).run calls).document.operation none = .ok operation ↔
      (empty bundle).accepted calls = [operation]) ∧
    (∀ e, ((empty bundle).run calls).document.operation none = .error e ↔
      (e = .empty ∧ (empty bundle).accepted calls = []) ∨
      (e = .ambiguous ((empty bundle).accepted calls).length ∧
        2 ≤ ((empty bundle).accepted calls).length)) ∧
    ∀ name fragment, ((empty bundle).run calls).document.fragment? name = some fragment ↔
      fragment ∈ ((empty bundle).run calls).document.fragments ∧ fragment.name = name := by
  have hops : ((empty bundle).run calls).document.operations = (empty bundle).accepted calls :=
    ((empty bundle).operations_run calls).trans (List.nil_append _)
  have hstart : (empty bundle).document.WellNamed :=
    ⟨List.nodup_nil, fun _ h => absurd h List.not_mem_nil, List.nodup_nil⟩
  have hnames := wellNamed_run hstart calls
  rw [← hops]
  exact ⟨hnames, rfl, fun _ _ => hnames.operation_some_eq_ok_iff,
    fun _ _ => Document.operation_some_eq_error_iff, fun _ => Document.operation_none_eq_ok_iff,
    fun _ => Document.operation_none_eq_error_iff, fun _ _ => hnames.fragment?_eq_some_iff⟩

end DocumentDraft

end GraphQLClient
