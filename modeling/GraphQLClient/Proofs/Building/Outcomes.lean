import GraphQLClient.Building.Document
import GraphQLClient.Proofs.Building.Growth

set_option autoImplicit false

/-!
# What a build gives

A build that ends well has passed each of its checks. `DefinedOver bundle` holds of the fragments
that documents over the bundle define, with fragments that were defined in the same way.
-/

namespace GraphQLClient

open Building

namespace VariableDraft

variable {bundle : Bundle}

theorem resolve_eq_ok_iff {resolved after : List VariableDefinition} {draft : VariableDraft} :
    resolve bundle resolved draft = .ok after ↔
      (∀ definition ∈ resolved, definition.name ≠ draft.name) ∧
        ∃ type, draft.type = .ok type ∧ bundle.contains type.namedType = true ∧
          after = resolved ++ [⟨draft.name, type, draft.defaultValue⟩] := by
  unfold resolve
  by_cases hn : resolved.any (·.name == draft.name) = true
  · obtain ⟨definition, hd, he⟩ := List.any_eq_true.1 hn
    rw [if_pos hn]
    refine ⟨fun h => (by cases h), fun h => ?_⟩
    exact absurd (by simpa using he) (h.1 definition hd)
  · have hfree : ∀ definition ∈ resolved, definition.name ≠ draft.name := by simpa using hn
    rw [if_neg hn]
    cases draft.type with
    | error e =>
      refine ⟨fun h => (by cases h), ?_⟩
      rintro ⟨-, _, ht, -⟩
      cases ht
    | ok type =>
      by_cases hc : bundle.contains type.namedType = true
      · simp only [hc, if_true, Except.ok.injEq]
        refine ⟨fun h => ⟨hfree, type, rfl, hc, h.symm⟩, ?_⟩
        rintro ⟨-, _, rfl, -, rfl⟩
        rfl
      · simp only [hc]
        refine ⟨fun h => (by cases h), ?_⟩
        rintro ⟨-, _, ht, hk, -⟩
        obtain rfl := Except.ok.inj ht
        exact absurd hk hc

end VariableDraft

/-- Variables with distinct names and types that the bundle knows. -/
structure Bundle.Declares (bundle : Bundle) (declarations : List VariableDefinition) : Prop where
  distinct : (declarations.map (·.name)).Nodup
  known : ∀ definition ∈ declarations, bundle.contains definition.type.namedType = true

namespace VariableDraft

variable {bundle : Bundle}

/-- What one variable after the other keeps holds of all. -/
theorem resolveAll_induction {P : List VariableDraft → List VariableDefinition → Prop}
    (hnil : P [] [])
    (hsnoc : ∀ done resolved draft type, P done resolved →
      (∀ definition ∈ resolved, definition.name ≠ draft.name) →
      bundle.contains type.namedType = true →
      P (done ++ [draft]) (resolved ++ [⟨draft.name, type, draft.defaultValue⟩]))
    {drafts : List VariableDraft} {declarations : List VariableDefinition}
    (h : resolveAll bundle drafts = .ok declarations) : P drafts declarations := by
  have hfold : ∀ (rest done : List VariableDraft) (resolved : List VariableDefinition),
      P done resolved → rest.foldlM (resolve bundle) resolved = .ok declarations →
        P (done ++ rest) declarations := by
    intro rest
    induction rest with
    | nil =>
      intro done resolved hr h
      obtain rfl : resolved = declarations := Except.ok.inj h
      rw [List.append_nil]
      exact hr
    | cons draft rest ih =>
      intro done resolved hr h
      rw [List.foldlM_cons] at h
      cases hd : resolve bundle resolved draft with
      | error e =>
        rw [hd] at h
        cases h
      | ok after =>
        rw [hd] at h
        obtain ⟨hfree, type, -, hknown, rfl⟩ := resolve_eq_ok_iff.1 hd
        have hall := ih _ _ (hsnoc done resolved draft type hr hfree hknown) h
        rwa [List.append_assoc] at hall
  exact hfold drafts [] [] hnil h

theorem declares_of_resolveAll {drafts : List VariableDraft} {declarations : List VariableDefinition}
    (h : resolveAll bundle drafts = .ok declarations) : bundle.Declares declarations := by
  refine resolveAll_induction (P := fun _ resolved => bundle.Declares resolved)
    ⟨List.nodup_nil, fun _ h => absurd h List.not_mem_nil⟩ ?_ h
  intro done resolved draft type hr hfree hknown
  refine ⟨?_, ?_⟩
  · rw [List.map_append, List.nodup_append]
    refine ⟨hr.distinct, by simp, ?_⟩
    simpa using hfree
  · rw [List.forall_mem_append, List.forall_mem_singleton]
    exact ⟨hr.known, hknown⟩

end VariableDraft

namespace OperationDraft

variable {bundle : Bundle} {draft : OperationDraft} {shared : Fragment → Prop}

theorem undeclaredInDirectives?_eq_none_iff {directives : List Directive}
    {declarations : List VariableDefinition} :
    undeclaredInDirectives? directives declarations = none ↔
      ∀ used ∈ directives.flatMap fun directive => Value.usesInFields directive.arguments,
        declarations.any (·.name == used) = true := by
  simp only [undeclaredInDirectives?, List.find?_eq_none, Bool.not_eq_true', Bool.not_eq_false]

theorem scope_eq_ok {scope : Scope} (h : draft.scope bundle = .ok scope) :
    root? bundle draft.kind = .ok scope.type ∧
      VariableDraft.resolveAll bundle draft.declarations = .ok scope.declarations ∧
      undeclaredInDirectives? draft.directives scope.declarations = none ∧ scope.bundle = bundle := by
  unfold OperationDraft.scope at h
  cases hr : root? bundle draft.kind with
  | error e => simp [hr] at h
  | ok root =>
    cases hd : VariableDraft.resolveAll bundle draft.declarations with
    | error e => simp [hr, hd] at h
    | ok declarations =>
      cases hu : undeclaredInDirectives? draft.directives declarations with
      | some name => simp [hr, hd, hu] at h
      | none =>
        simp only [hr, hd, hu, Except.ok.injEq] at h
        subst h
        exact ⟨rfl, rfl, hu, rfl⟩

/-- Once everything else is checked, the program makes the operation. -/
theorem build_of_scope {scope : Scope} (h : draft.scope bundle = .ok scope) :
    draft.build bundle = { buildSet scope draft.program with
      result := (buildSet scope draft.program).result.map fun set =>
        ⟨draft.kind, draft.name, scope.declarations, draft.directives, set⟩ } := by
  rw [build, h]

theorem build_eq_ok {operation : Operation} (h : (draft.build bundle).result = .ok operation) :
    ∃ scope set, draft.scope bundle = .ok scope ∧
      (buildSet scope draft.program).result = .ok set ∧
      operation = ⟨draft.kind, draft.name, scope.declarations, draft.directives, set⟩ := by
  unfold build at h
  cases hs : draft.scope bundle with
  | error e => simp [hs] at h
  | ok scope =>
    simp only [hs] at h
    cases hb : (buildSet scope draft.program).result with
    | error e => simp [hb, Except.map] at h
    | ok set =>
      simp only [hb, Except.map, Except.ok.injEq] at h
      exact ⟨scope, set, rfl, hb, h.symm⟩

/-- The operation that a draft is built into. -/
@[irreducible] def built (draft : OperationDraft) (bundle : Bundle) : Operation :=
  (draft.build bundle).result.toOption.getD default

theorem build_eq_built (h : (draft.build bundle).result.toBool = true) :
    (draft.build bundle).result = .ok (draft.built bundle) := by
  unfold built
  cases hr : (draft.build bundle).result with
  | error e =>
    rw [hr] at h
    cases h
  | ok operation => rfl

/-- A set is made by a run that starts with nothing. -/
theorem buildSet_of_runs {scope : Scope} {program : List Step} {Q : List Selection → Prop}
    {E : BuildError → List Selection → Prop}
    (h : scope.Opens → Runs scope.opening (Step.runAll scope program) (fun _ s => Q s) E) :
    match (buildSet scope program).result with
    | .ok set => set.typeName = scope.type.name ∧ set.selections ≠ [] ∧ scope.Opens ∧ Q set.selections
    | .error e => ¬ scope.Opens ∨ (∃ s, E e s) ∨ Q [] := by
  have hrun := Scope.runs_opened h Draft.empty rfl
  rcases hr : (show Building Unit from do
      scope.start
      Step.runAll scope program).run Draft.empty with ⟨e | _, after⟩
  · have hdef : (buildSet scope program).result = .error e := by
      unfold buildSet
      rw [hr]
    rw [hdef]
    simp only [hr] at hrun
    rcases hrun with hn | he
    · exact .inl hn
    · exact .inr (.inl ⟨_, he⟩)
  · have hdef : (buildSet scope program).result =
        if after.selections.isEmpty then .error (.emptySelection scope.type.name)
        else .ok ⟨scope.type.name, after.selections⟩ := by
      unfold buildSet
      rw [hr]
    rw [hdef]
    simp only [hr] at hrun
    by_cases hne : after.selections = []
    · simp only [hne, List.isEmpty_nil, if_true]
      exact .inr (.inr (hne ▸ hrun.2))
    · have hempty : ¬ after.selections.isEmpty = true := by simpa using hne
      simp only [hempty]
      exact ⟨rfl, hne, hrun⟩

theorem grown_of_buildSet (raw : Prop) {scope : Scope} {program : List Step} {set : SelectionSet}
    (hs : ∀ fragment ∈ Step.fragmentsOfAll program, shared fragment)
    (hr : raw ∨ Step.allGuided program = true) (h : (buildSet scope program).result = .ok set) :
    set.typeName = scope.type.name ∧ set.selections ≠ [] ∧ scope.Opens ∧
      Grown.From raw shared scope scope.opening set.selections := by
  have hset := buildSet_of_runs fun ho : scope.Opens => Grown.runs_steps hs hr (.opening ho)
  rw [h] at hset
  exact hset

/-- Whatever a program selects, the set that it builds was grown from an opening. -/
theorem freelyGrown_of_buildSet {scope : Scope} {program : List Step} {set : SelectionSet}
    (h : (buildSet scope program).result = .ok set) :
    set.typeName = scope.type.name ∧ set.selections ≠ [] ∧ scope.Opens ∧
      Grown.From True (fun _ => True) scope scope.opening set.selections :=
  grown_of_buildSet True (fun _ _ => trivial) (.inl trivial) h

end OperationDraft

/-- The fragment is one that a document over the bundle has defined. -/
inductive Fragment.DefinedOver (bundle : Bundle) : Fragment → Prop
  | intro {fragment : Fragment} (document : DocumentDraft) (serial : Nat) (draft : FragmentDraft)
      (same : document.bundle = bundle)
      (spread : ∀ used ∈ Step.fragmentsOfAll draft.program, DefinedOver bundle used)
      (defined : (document.buildFragment serial draft).result = .ok fragment) :
      DefinedOver bundle fragment

namespace DocumentDraft

theorem buildFragment_of_scope {document : DocumentDraft} {draft : FragmentDraft} {scope : Scope}
    (serial : Nat) (h : document.fragmentScope draft = .ok scope) :
    document.buildFragment serial draft = { OperationDraft.buildSet scope draft.program with
      result := (OperationDraft.buildSet scope draft.program).result.map fun set =>
        ⟨serial, draft.name, scope.type.name, set⟩ } := by
  rw [buildFragment, h]

theorem fragmentScope_of_get? {document : DocumentDraft} {draft : FragmentDraft}
    {target : TypeDescriptor} (hf : document.fragment? draft.name = none)
    (ht : document.bundle.get? draft.typeName = some target) (hc : target.isComposite = true) :
    document.fragmentScope draft = .ok ⟨document.bundle, [], target⟩ := by
  simp [fragmentScope, hf, ht, hc]

theorem buildFragment_eq_ok {document : DocumentDraft} {serial : Nat} {draft : FragmentDraft}
    {fragment : Fragment} (h : (document.buildFragment serial draft).result = .ok fragment) :
    ∃ target set, document.bundle.get? draft.typeName = some target ∧ target.isComposite = true ∧
      (document.fragment? draft.name) = none ∧
      (OperationDraft.buildSet ⟨document.bundle, [], target⟩ draft.program).result = .ok set ∧
      fragment = ⟨serial, draft.name, target.name, set⟩ := by
  unfold buildFragment fragmentScope at h
  cases hf : document.fragment? draft.name with
  | some found => simp [hf] at h
  | none =>
    cases ht : document.bundle.get? draft.typeName with
    | none => simp [hf, ht] at h
    | some target =>
      by_cases hc : target.isComposite = true
      · simp only [hf, ht, hc, Option.isSome_none, Bool.false_eq_true, if_false, if_true] at h
        cases hb : (OperationDraft.buildSet ⟨document.bundle, [], target⟩ draft.program).result with
        | error e => simp [hb, Except.map] at h
        | ok set =>
          simp only [hb, Except.map, Except.ok.injEq] at h
          exact ⟨target, set, rfl, hc, rfl, hb, h.symm⟩
      · simp [hf, ht, hc] at h

end DocumentDraft

end GraphQLClient
