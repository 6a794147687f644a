import GraphQLClient.Proofs.Building.TrimmedBundles

set_option autoImplicit false

/-!
# Specifications

A specification says how an operation is built, with the fragments that it may spread. It can be built
over any bundle: its fragments are defined one after the other, each from those before it, and then
the operation is built. Over a bundle that is trimmed to what such a build visited it gives the same
operation, unless a variable is of a type that was not visited.
-/

namespace GraphQLClient

structure Specification where
  fragments : List (List Fragment → FragmentDraft)
  operation : List Fragment → OperationDraft

namespace Specification

/-- Defines fragments in a document, under serial numbers that count them; the first error ends it. -/
def define (document : DocumentDraft) :
    List (List Fragment → FragmentDraft) → BuildOutcome DocumentDraft
  | [] => ⟨.ok document, [], []⟩
  | next :: rest =>
    let (outcome, after) :=
      document.defineFragment document.fragments.length (next document.fragments)
    match outcome.result with
    | .error e => { outcome with result := .error e }
    | .ok _ =>
      let further := define after rest
      ⟨further.result, outcome.visits ++ further.visits, outcome.journal ++ further.journal⟩

def build (specification : Specification) (bundle : Bundle) : BuildOutcome Operation :=
  let defined := define (.empty bundle) specification.fragments
  match defined.result with
  | .error e => { defined with result := .error e }
  | .ok document =>
    let outcome := (specification.operation document.fragments).build bundle
    { outcome with
      visits := defined.visits ++ outcome.visits
      journal := defined.journal ++ outcome.journal }

end Specification

section Trimmed

open Building

variable {keep : String → Prop} {bundle small : Bundle}

namespace OperationDraft

variable {scope : Scope} {program : List Step}

theorem mem_visits_buildSet (scope : Scope) (program : List Step) :
    scope.type.name ∈ (buildSet scope program).visits := by
  have hstart : scope.type.name ∈ (scope.start.run Draft.empty).2.visits :=
    Scope.mem_visits_of_visit Scope.keeps_opening scope.type.name .empty
  exact (visits_bind scope.start (fun _ => Step.keeps_runAll scope program) .empty).subset hstart

/-- A set is made again over the smaller bundle. -/
theorem buildSet_basedOn {set : SelectionSet} (hb : scope.bundle.Retains keep small)
    (hkept : ∀ name ∈ (buildSet scope program).visits, keep name)
    (h : (buildSet scope program).result = .ok set) :
    (buildSet (scope.basedOn small) program).result = .ok set := by
  have hmimics : Mimics keep (do scope.start; Step.runAll scope program)
      (do (scope.basedOn small).start; Step.runAll (scope.basedOn small) program) :=
    ((Scope.mimicry hb).program scope.type program (.inl trivial)).1
  unfold buildSet at h ⊢
  rcases mimics_cases hmimics (@rfl _ Draft.empty.selections) rfl hkept with
    ⟨e, e', after, after', hr, hr', -, -⟩ | ⟨_, after, after', hr, hr', hsel, -⟩
  · simp only [hr] at h
    cases h
  · simp only [hr, hr'] at h ⊢
    rw [hsel]
    exact h

end OperationDraft

namespace VariableDraft

/-- The first declared variable of a type that the bundle does not have. -/
def missing? (bundle : Bundle) (declarations : List VariableDefinition) : Option VariableDefinition :=
  declarations.find? fun declared => !bundle.contains declared.type.namedType

/-- Variables that are resolved over a bundle are so over another one until a type is missing. -/
theorem resolveAll_missing {drafts : List VariableDraft} {declarations : List VariableDefinition}
    (h : resolveAll bundle drafts = .ok declarations) :
    resolveAll small drafts =
      match missing? small declarations with
      | none => .ok declarations
      | some declared => .error (.unknownType declared.type.namedType) := by
  have hfold : ∀ (drafts : List VariableDraft) (resolved : List VariableDefinition),
      drafts.foldlM (resolve bundle) resolved = .ok declarations →
        ∃ added, declarations = resolved ++ added ∧
          drafts.foldlM (resolve small) resolved =
            match missing? small added with
            | none => .ok declarations
            | some declared => .error (.unknownType declared.type.namedType) := by
    intro drafts
    induction drafts with
    | nil =>
      intro resolved h
      obtain rfl : resolved = declarations := Except.ok.inj h
      exact ⟨[], (List.append_nil _).symm, rfl⟩
    | cons draft rest ih =>
      intro resolved h
      rw [List.foldlM_cons] at h ⊢
      cases hd : resolve bundle resolved draft with
      | error e =>
        rw [hd] at h
        cases h
      | ok after =>
        rw [hd] at h
        obtain ⟨added, rfl, hrest⟩ := ih after h
        obtain ⟨hfree, type, ht, -, rfl⟩ := resolve_eq_ok_iff.1 hd
        refine ⟨⟨draft.name, type, draft.defaultValue⟩ :: added, by simp, ?_⟩
        unfold missing? at hrest ⊢
        by_cases hc : small.contains type.namedType = true
        · have hsmall := resolve_eq_ok_iff.2 ⟨hfree, type, ht, hc, rfl⟩
          rw [hsmall, List.find?_cons_of_neg (by simpa using hc)]
          exact hrest
        · have hany : ¬ resolved.any (·.name == draft.name) = true := by simpa using hfree
          have hsmall : resolve small resolved draft = .error (.unknownType type.namedType) := by
            rw [resolve, if_neg hany, ht]
            exact if_neg hc
          rw [hsmall, List.find?_cons_of_pos (by simpa using hc)]
          rfl
  obtain ⟨added, rfl, hall⟩ := hfold drafts [] h
  exact hall

end VariableDraft

namespace OperationDraft

variable {draft : OperationDraft} {scope : Scope}

/-- The scope of the root is the same over the smaller bundle until the type of a variable is missing. -/
theorem scope_basedOn (hb : bundle.Retains keep small) (h : draft.scope bundle = .ok scope) :
    draft.scope small =
      match VariableDraft.missing? small scope.declarations with
      | none => .ok (scope.basedOn small)
      | some declared => .error (.unknownType declared.type.namedType) := by
  obtain ⟨hroot, hdeclared, hdirectives, -⟩ := scope_eq_ok h
  have hroot' : root? small draft.kind = .ok scope.type := by
    rw [← hroot]
    unfold root?
    rw [hb.queryRoot, hb.mutationRoot]
  unfold OperationDraft.scope
  rw [hroot', VariableDraft.resolveAll_missing hdeclared]
  cases VariableDraft.missing? small scope.declarations with
  | some declared => rfl
  | none =>
    simp only [hdirectives]
    rfl

theorem build_basedOn {operation : Operation} (hb : bundle.Retains keep small)
    (hkept : ∀ name ∈ (draft.build bundle).visits, keep name)
    (h : (draft.build bundle).result = .ok operation) :
    (draft.build small).result =
      match VariableDraft.missing? small operation.declarations with
      | none => .ok operation
      | some declared => .error (.unknownType declared.type.namedType) := by
  obtain ⟨scope, set, hscope, hset, rfl⟩ := build_eq_ok h
  obtain ⟨-, -, -, rfl⟩ := scope_eq_ok hscope
  rw [build_of_scope hscope] at hkept
  have hsmall := scope_basedOn hb hscope
  cases hm : VariableDraft.missing? small scope.declarations with
  | some declared =>
    rw [hm] at hsmall
    simp [build, hsmall]
  | none =>
    rw [hm] at hsmall
    rw [build_of_scope hsmall]
    have hset' := buildSet_basedOn hb hkept hset
    simp only [hset']
    rfl

end OperationDraft

namespace DocumentDraft

variable {document after : DocumentDraft}

/-- The document over another bundle. -/
def basedOn (document : DocumentDraft) (small : Bundle) : DocumentDraft :=
  { document with bundle := small }

theorem buildFragment_basedOn {serial : Nat} {draft : FragmentDraft} {fragment : Fragment}
    (hb : document.bundle.Retains keep small)
    (hkept : ∀ name ∈ (document.buildFragment serial draft).visits, keep name)
    (h : (document.buildFragment serial draft).result = .ok fragment) :
    ((document.basedOn small).buildFragment serial draft).result = .ok fragment := by
  obtain ⟨target, set, ht, hc, hf, hset, rfl⟩ := buildFragment_eq_ok h
  rw [buildFragment_of_scope serial (fragmentScope_of_get? hf ht hc)] at hkept
  have hname : keep target.name := hkept _ (OperationDraft.mem_visits_buildSet _ _)
  have ht' : small.get? draft.typeName = some target :=
    (hb.kept _ (Bundle.get?_name ht ▸ hname)).trans ht
  have hset' : (OperationDraft.buildSet (Scope.basedOn ⟨document.bundle, [], target⟩ small)
      draft.program).result = .ok set := OperationDraft.buildSet_basedOn hb hkept hset
  have hscope' : (document.basedOn small).fragmentScope draft = .ok ⟨small, [], target⟩ :=
    fragmentScope_of_get? hf ht' hc
  rw [buildFragment_of_scope serial hscope']
  exact congrArg (Except.map _) hset'

theorem defineFragment_eq_ok {serial : Nat} {draft : FragmentDraft} {fragment : Fragment}
    (h : (document.buildFragment serial draft).result = .ok fragment) :
    document.defineFragment serial draft = (document.buildFragment serial draft,
      { document with fragments := document.fragments ++ [fragment] }) := by
  simp only [defineFragment, h]

end DocumentDraft

namespace Specification

/-- The first fragment and the document that the rest is defined in. -/
theorem define_cons_eq_ok {document after : DocumentDraft} {next : List Fragment → FragmentDraft}
    {rest : List (List Fragment → FragmentDraft)}
    (h : (define document (next :: rest)).result = .ok after) :
    ∃ fragment,
      (document.buildFragment document.fragments.length (next document.fragments)).result =
        .ok fragment ∧
      (define { document with fragments := document.fragments ++ [fragment] } rest).result =
        .ok after := by
  cases hr : (document.buildFragment document.fragments.length (next document.fragments)).result with
  | error e => simp [define, DocumentDraft.defineFragment, hr] at h
  | ok fragment =>
    unfold define at h
    rw [DocumentDraft.defineFragment_eq_ok hr] at h
    simp only [hr] at h
    exact ⟨fragment, rfl, h⟩

theorem define_cons {document : DocumentDraft} {next : List Fragment → FragmentDraft}
    {rest : List (List Fragment → FragmentDraft)} {fragment : Fragment}
    (h : (document.buildFragment document.fragments.length (next document.fragments)).result =
      .ok fragment) :
    let outcome := document.buildFragment document.fragments.length (next document.fragments)
    let further := define { document with fragments := document.fragments ++ [fragment] } rest
    define document (next :: rest) =
      ⟨further.result, outcome.visits ++ further.visits, outcome.journal ++ further.journal⟩ := by
  intro outcome further
  unfold define
  rw [DocumentDraft.defineFragment_eq_ok h]
  simp only [h]
  rfl

/-- Fragments are defined again over the smaller bundle. -/
theorem define_basedOn {document after : DocumentDraft}
    {drafts : List (List Fragment → FragmentDraft)} (hb : document.bundle.Retains keep small)
    (hkept : ∀ name ∈ (define document drafts).visits, keep name)
    (h : (define document drafts).result = .ok after) :
    (define (document.basedOn small) drafts).result = .ok (after.basedOn small) := by
  induction drafts generalizing document with
  | nil =>
    obtain rfl : document = after := Except.ok.inj h
    rfl
  | cons next rest ih =>
    obtain ⟨fragment, hfragment, hrest⟩ := define_cons_eq_ok h
    rw [define_cons hfragment] at hkept
    have hfirst : ((document.basedOn small).buildFragment (document.basedOn small).fragments.length
        (next (document.basedOn small).fragments)).result = .ok fragment :=
      DocumentDraft.buildFragment_basedOn hb
        (fun name hn => hkept name (List.mem_append_left _ hn)) hfragment
    have hbundle : ({ document with fragments := document.fragments ++ [fragment] } :
      DocumentDraft).bundle.Retains keep small := hb
    rw [define_cons hfirst]
    exact ih hbundle (fun name hn => hkept name (List.mem_append_right _ hn)) hrest

/-- Once its fragments are defined, a specification is built as its operation is. -/
theorem build_of_define {specification : Specification} {document : DocumentDraft}
    (h : (define (.empty bundle) specification.fragments).result = .ok document) :
    let defined := define (.empty bundle) specification.fragments
    let outcome := (specification.operation document.fragments).build bundle
    specification.build bundle =
      ⟨outcome.result, defined.visits ++ outcome.visits, defined.journal ++ outcome.journal⟩ := by
  simp only [build, h]

theorem exists_define_of_build {specification : Specification} {operation : Operation}
    (h : (specification.build bundle).result = .ok operation) :
    ∃ document, (define (.empty bundle) specification.fragments).result = .ok document := by
  cases hd : (define (.empty bundle) specification.fragments).result with
  | error e => simp [build, hd] at h
  | ok document => exact ⟨document, rfl⟩

theorem build_basedOn {specification : Specification} {operation : Operation}
    (hb : bundle.Retains keep small) (hkept : ∀ name ∈ (specification.build bundle).visits, keep name)
    (h : (specification.build bundle).result = .ok operation) :
    (specification.build small).result =
      match VariableDraft.missing? small operation.declarations with
      | none => .ok operation
      | some declared => .error (.unknownType declared.type.namedType) := by
  obtain ⟨document, hd⟩ := exists_define_of_build h
  rw [build_of_define hd] at h hkept
  have hdocument : (define (.empty small) specification.fragments).result =
      .ok (document.basedOn small) :=
    define_basedOn hb (fun name hn => hkept name (List.mem_append_left _ hn)) hd
  rw [build_of_define hdocument]
  exact OperationDraft.build_basedOn hb (fun name hn => hkept name (List.mem_append_right _ hn)) h

/-- A specification that can be built gives the same operation over a bundle that is trimmed to what a
tracker recorded, or fails at the first variable whose type is not there. -/
theorem build_trimmed {specification : Specification} {operation : Operation} {tracker : Tracker}
    (ha : tracker.active = true) (h : (specification.build bundle).result = .ok operation) :
    let small := bundle.trimmed (tracker.recordAll (specification.build bundle).visits).types
    (specification.build small).result =
      match VariableDraft.missing? small operation.declarations with
      | none => .ok operation
      | some declared => .error (.unknownType declared.type.namedType) :=
  build_basedOn (bundle.retains_trimmed _)
    (fun _ hn => (Tracker.mem_recordAll ha).2 (.inr hn)) h

end Specification

end Trimmed

/-- The sample operation with a fragment that it defines itself. -/
def sampleSpecification : Specification :=
  ⟨[fun _ => ⟨"Title", "Product", [.field "title" .none]⟩], fun fragments =>
    { sampleDraft with program :=
      [.object "shop" .none
        [.connection "products" ⟨none, [("first", .var "count")]⟩ (fragments.map .spread)],
       .attempt (.object "shop" .none [.field "name" .none]),
       .object "node" ⟨none, [("id", .string "p1")]⟩
        [.attempt (.fragmentOn "PageInfo" [.field "hasNextPage" .none]),
         .fragmentOn "Product" [.field "handle" .none]]] }⟩

/-- The type of its one variable is built in. -/
theorem sampleSpecification_trimmed :
    let small := sampleBundle.trimmed
      (Tracker.new.start.recordAll (sampleSpecification.build sampleBundle).visits).types
    ∃ operation, (sampleSpecification.build sampleBundle).result = .ok operation ∧
      (sampleSpecification.build small).result = .ok operation := by
  intro small
  have hnone : (sampleSpecification.build sampleBundle).result.toOption.any (fun operation =>
      (VariableDraft.missing? small operation.declarations).isNone) = true := by decide +kernel
  cases h : (sampleSpecification.build sampleBundle).result with
  | error e =>
    rw [h] at hnone
    cases hnone
  | ok operation =>
    rw [h] at hnone
    have hmissing : VariableDraft.missing? small operation.declarations = none :=
      Option.isNone_iff_eq_none.1 hnone
    refine ⟨operation, rfl, (@Specification.build_trimmed _ _ _ Tracker.new.start rfl h).trans ?_⟩
    rw [hmissing]

/-- A search whose filter is of an input type. -/
def filterBundle : Bundle :=
  let query := TypeDescriptor.mk "Query" .object
    [⟨"search", .named "String", [("filter", .named "Filter")]⟩] [] false []
  ⟨query, none, (builtinScalars.map (TypeDescriptor.ofKind · .scalar)) ++
    [query, TypeDescriptor.ofKind "Filter" .inputObject]⟩

def filterSpecification : Specification :=
  ⟨[], fun _ => ⟨.query, some "Search", [⟨"filter", .ok (.named "Filter"), none⟩], [],
    [.field "search" ⟨none, [("filter", .var "filter")]⟩]⟩⟩

/-- The type of the filter is looked up and not visited, so that it is not there any more. -/
theorem filter_type_trimmed :
    let tracker := Tracker.new.start.recordAll (filterSpecification.build filterBundle).visits
    tracker.types = ["Query", "String"] ∧
      (filterSpecification.build filterBundle).result.toBool = true ∧
      (filterSpecification.build (filterBundle.trimmed tracker.types)).result =
        .error (.unknownType "Filter") := by
  refine ⟨by decide +kernel, by decide +kernel, ?_⟩
  rfl

end GraphQLClient
