import GraphQLClient.Proofs.Building.Validity
import GraphQLClient.Proofs.Language.WrittenValues

set_option autoImplicit false

/-!
# Which values a build checks

Every argument of a field is checked when the field is selected, and again when a finished selection
is added. Defaults of variables and arguments of directives are taken over as they are, and so is
the body of a spread fragment: that one was checked if a document defined the fragment, and not
otherwise. So an operation writes `null` for a float exactly if one of these brings it in.
-/

namespace GraphQLClient

namespace Scope

variable {scope : Scope} {name : String} {arguments : List (String × Value)}

/-- What is asked of an argument in the scope. -/
structure Passes (scope : Scope) (value : Value) : Prop where
  finite : value.isFinite = true
  declared : ∀ used ∈ value.variableUses, scope.declares used = true

theorem Offers.passes {type : TypeDescriptor} (h : scope.Offers name arguments type) :
    ∀ value ∈ arguments.map Prod.snd, scope.Passes value := by
  obtain ⟨-, declared, -, -, hfit⟩ := h
  rw [List.forall_mem_map]
  exact fun argument ha => ⟨(hfit argument ha).2.1, (hfit argument ha).2.2⟩

theorem OffersLeaf.passes (h : scope.OffersLeaf name arguments) :
    ∀ value ∈ arguments.map Prod.snd, scope.Passes value := by
  rcases h with ⟨-, rfl⟩ | ⟨type, hoffers, -⟩
  · exact fun _ hv => absurd hv List.not_mem_nil
  · exact hoffers.passes

end Scope

namespace Selection

theorem valuesOfAll_concat (before : List Selection) (selection : Selection) :
    valuesOfAll (before ++ [selection]) = valuesOfAll before ++ selection.values := by
  rw [valuesOfAll_append, valuesOfAll, valuesOfAll, List.append_nil]

end Selection

namespace Grown

variable {raw : Prop} {shared : Fragment → Prop} {scope : Scope} {selections : List Selection}

/-- All arguments in a grown set passed the check of the scope. -/
theorem values_pass (h : Grown raw shared scope selections) :
    ∀ value ∈ Selection.valuesOfAll selections, scope.Passes value := by
  induction h with
  | nil => exact fun _ hv => absurd hv List.not_mem_nil
  | leaf grown plain offered free ih =>
    rw [Selection.valuesOfAll_concat, List.forall_mem_append]
    exact ⟨ih, offered.passes⟩
  | composite grown offered below nonempty furnished free ih ihBelow =>
    rw [Selection.valuesOfAll_concat, List.forall_mem_append]
    refine ⟨ih, List.forall_mem_append.2 ⟨offered.1.passes, fun value hv => ?_⟩⟩
    exact ⟨(ihBelow value hv).finite, (ihBelow value hv).declared⟩
  | inlineFragment grown admitted below nonempty ih ihBelow =>
    rw [Selection.valuesOfAll_concat, List.forall_mem_append]
    exact ⟨ih, fun value hv => ⟨(ihBelow value hv).finite, (ihBelow value hv).declared⟩⟩
  | spread grown admitted known free ih =>
    rw [Selection.valuesOfAll_concat, List.forall_mem_append]
    exact ⟨ih, fun _ hv => absurd hv List.not_mem_nil⟩

end Grown

/-- The values in the body of a fragment that was defined are finite and use no variables. -/
theorem Fragment.DefinedOver.values {bundle : Bundle} {fragment : Fragment}
    (h : fragment.DefinedOver bundle) : ∀ value ∈ Selection.valuesOfAll fragment.set.selections,
      value.isFinite = true ∧ value.variableUses = [] := by
  obtain ⟨document, serial, draft, -, -, hdefined⟩ := h
  obtain ⟨target, set, -, -, -, hset, rfl⟩ := DocumentDraft.buildFragment_eq_ok hdefined
  obtain ⟨-, -, -, hgrown, -⟩ := OperationDraft.freelyGrown_of_buildSet hset
  intro value hv
  have hpass := hgrown.values_pass value hv
  exact ⟨hpass.finite, List.eq_nil_iff_forall_not_mem.2 fun used hu =>
    Bool.noConfusion (hpass.declared used hu)⟩

namespace VariableDraft

variable {bundle : Bundle}

/-- Variables are declared in order, with the defaults that were given. -/
theorem resolveAll_defaults {drafts : List VariableDraft} {declarations : List VariableDefinition}
    (h : resolveAll bundle drafts = .ok declarations) :
    declarations.map (fun definition => (definition.name, definition.defaultValue)) =
      drafts.map fun draft => (draft.name, draft.defaultValue) := by
  refine resolveAll_induction (P := fun drafts resolved =>
    resolved.map (fun definition => (definition.name, definition.defaultValue)) =
      drafts.map fun draft => (draft.name, draft.defaultValue)) rfl ?_ h
  intro done resolved draft type hr _ _
  rw [List.map_append, List.map_append, hr]
  rfl

theorem filterMap_defaultValue {drafts : List VariableDraft}
    {declarations : List VariableDefinition} (h : resolveAll bundle drafts = .ok declarations) :
    declarations.filterMap (·.defaultValue) = drafts.filterMap (·.defaultValue) := by
  have hpairs := congrArg (List.filterMap Prod.snd) (resolveAll_defaults h)
  rwa [List.filterMap_map, List.filterMap_map] at hpairs

end VariableDraft

namespace OperationDraft

variable {bundle : Bundle} {draft : OperationDraft}

/-- The values that a build takes over without looking at them. -/
def unchecked (draft : OperationDraft) : List Value :=
  draft.declarations.filterMap (·.defaultValue) ++
    draft.directives.flatMap (·.arguments.map Prod.snd)

/-- What an operation writes: its unchecked values, checked arguments, and the bodies of its
fragments. -/
theorem values_of_build {operation : Operation} (h : (draft.build bundle).result = .ok operation) :
    ∃ arguments, (∀ value ∈ arguments, value.isFinite = true) ∧
      operation.values = draft.unchecked ++ (arguments ++
        operation.fragments.flatMap fun fragment =>
          Selection.valuesOfAll fragment.set.selections) := by
  obtain ⟨scope, set, hscope, hset, rfl⟩ := build_eq_ok h
  obtain ⟨-, hdeclared, -, -⟩ := scope_eq_ok hscope
  obtain ⟨-, -, -, hgrown, -⟩ := freelyGrown_of_buildSet hset
  refine ⟨Selection.valuesOfAll set.selections, fun value hv => (hgrown.values_pass value hv).finite, ?_⟩
  simp only [Operation.values, unchecked, VariableDraft.filterMap_defaultValue hdeclared,
    List.append_assoc]

/-- Each value that a built operation writes stands in its text, and a float in it is written `null`
if it is not finite. All of them are finite exactly if the defaults of variables and the arguments
of directives are, and the bodies of fragments that no document defined. -/
theorem finite_of_build_iff {operation : Operation}
    (h : (draft.build bundle).result = .ok operation) :
    (∀ value ∈ operation.values, value.chars <:+: (operation.text none).toList ∧
      (value.isFinite = true ↔ ∀ x ∈ value.floats, Json.floatText x ≠ "null")) ∧
    ((∀ value ∈ operation.values, value.isFinite = true) ↔
      (∀ value ∈ draft.unchecked, value.isFinite = true) ∧
        ∀ fragment ∈ operation.fragments, fragment.DefinedOver bundle ∨
          ∀ value ∈ Selection.valuesOfAll fragment.set.selections, value.isFinite = true) := by
  refine ⟨fun value hv => ⟨Operation.infix_value hv, value.isFinite_iff_floatText⟩, ?_⟩
  obtain ⟨arguments, hfinite, heq⟩ := values_of_build h
  rw [heq, List.forall_mem_append, List.forall_mem_append]
  refine and_congr_right fun _ => ⟨fun hall fragment hf => .inr fun value hv => ?_, fun hall => ?_⟩
  · exact hall.2 value (List.mem_flatMap.2 ⟨fragment, hf, hv⟩)
  · refine ⟨hfinite, fun value hv => ?_⟩
    obtain ⟨fragment, hf, hv⟩ := List.mem_flatMap.1 hv
    rcases hall fragment hf with hdefined | hbody
    · exact (hdefined.values value hv).1
    · exact hbody value hv

end OperationDraft

/-- No float in what the sample draft is built into is written `null`. -/
theorem sampleDraft_finite :
    (sampleDraft.build sampleBundle).result = .ok (sampleDraft.built sampleBundle) ∧
      ∀ value ∈ (sampleDraft.built sampleBundle).values, value.isFinite = true := by
  have hunchecked : (sampleDraft.unchecked.all Value.isFinite) = true := by decide +kernel
  have hbodies : ((sampleDraft.built sampleBundle).fragments.all fun fragment =>
      (Selection.valuesOfAll fragment.set.selections).all Value.isFinite) = true := by decide +kernel
  refine ⟨sampleDraft_built, (OperationDraft.finite_of_build_iff sampleDraft_built).2.2
    ⟨List.all_eq_true.1 hunchecked, ?_⟩⟩
  exact fun fragment hf => .inr (List.all_eq_true.1 (List.all_eq_true.1 hbodies fragment hf))

def sampledDraft : OperationDraft :=
  ⟨.query, none, [⟨"ratio", .ok (.named "Int"), some (.float (0.0 / 0.0))⟩],
    [⟨"sampled", [("rate", .float (1.0 / 0.0))]⟩], [.object "shop" .none [.field "name" .none]]⟩

def sampledOperation : Operation :=
  ⟨.query, none, [⟨"ratio", .named "Int", some (.float (0.0 / 0.0))⟩],
    [⟨"sampled", [("rate", .float (1.0 / 0.0))]⟩],
    ⟨"Query", [.composite (.plain "shop") "Shop" [.leaf (.plain "id"), .leaf (.plain "name")]]⟩⟩

/-- A default that is no number and an infinite argument of a directive are written `null`, while the
same float as an argument of a field is refused. -/
theorem sampled_written_null :
    (sampledDraft.build sampleBundle).result = .ok sampledOperation ∧
      sampledOperation.text none =
        "query ($ratio: Int = null) @sampled(rate: null) \x7b shop \x7b id name \x7d \x7d" ∧
      (¬ ∀ value ∈ sampledOperation.values, value.isFinite = true) ∧
      ((OperationDraft.ofProgram .query [.object "node" ⟨none, [("id", .float (0.0 / 0.0))]⟩ []]).build
        sampleBundle).result = .error (.nonFiniteFloat "Query" "node" "id") := by
  have hratio : (Value.float (0.0 / 0.0)).text = "null" := by decide +kernel
  have hrate : (Value.float (1.0 / 0.0)).text = "null" := by decide +kernel
  refine ⟨rfl, ?_, fun h => ?_, rfl⟩
  · simp [Operation.text, Operation.definitionText, Operation.headText, Operation.directivesText,
      Directive.text, sampledOperation, OperationKind.keyword, VariableDefinition.listText,
      VariableDefinition.text, hratio, hrate, TypeRef.text, SelectionSet.text, Selection.setText,
      Selection.listText, Selection.text, Field.text, Field.plain, Field.ofOptions,
      FieldOptions.none, Value.argumentsText, Value.fieldsText]
    decide
  · have hfinite := h (.float (0.0 / 0.0)) (by simp [sampledOperation, Operation.values])
    exact absurd hfinite (by decide +kernel)

end GraphQLClient
