import GraphQLClient.Proofs.Building.CheckedValues
import GraphQLClient.Proofs.Building.Parallels
import GraphQLClient.Proofs.Building.Revalidation
import GraphQLClient.Proofs.Building.Uses

set_option autoImplicit false

/-!
# Undeclared variables

A build looks for undeclared variables in the arguments of directives and of all fields, but not in
the body of a spread fragment. The fragments of documents use no variables; the body of any other
fragment is taken as it is, with the variables in it. Everywhere else a program that uses a variable
goes wrong with an error that names an undeclared one, as is seen beside the same program with
more variables declared: `Shadows lacking passing m m'` says that `m'` does what `m` does, or meets a
variable that is lacking.
-/

namespace GraphQLClient

namespace Selection

theorem mem_usesInFields {used : String} {arguments : List (String × Value)} :
    used ∈ Value.usesInFields arguments ↔
      ∃ value ∈ arguments.map Prod.snd, used ∈ value.variableUses := by
  simp only [Scope.mem_usesInFields, List.mem_map, exists_exists_and_eq_and]

mutual
/-- A variable is used in an argument or in the body of a fragment. -/
theorem mem_variableUses_iff {used : String} {selection : Selection} :
    used ∈ selection.variableUses ↔ (∃ value ∈ selection.values, used ∈ value.variableUses) ∨
      ∃ fragment ∈ selection.spreadFragments, used ∈ usesInAll fragment.set.selections := by
  cases selection with
  | leaf field => simp [variableUses, values, spreadFragments, mem_usesInFields]
  | composite field typeName selections =>
    rw [variableUses, List.mem_append, mem_usesInFields, mem_usesInAll_iff, ← or_assoc, values,
      spreadFragments]
    simp only [List.mem_append, or_and_right, exists_or]
  | inlineFragment condition typeName selections => exact mem_usesInAll_iff
  | spread serial name condition typeName selections =>
    simp [variableUses, values, spreadFragments]

theorem mem_usesInAll_iff {used : String} {selections : List Selection} :
    used ∈ usesInAll selections ↔ (∃ value ∈ valuesOfAll selections, used ∈ value.variableUses) ∨
      ∃ fragment ∈ spreadFragmentsOfAll selections, used ∈ usesInAll fragment.set.selections := by
  cases selections with
  | nil => simp [usesInAll, valuesOfAll, spreadFragmentsOfAll]
  | cons selection rest =>
    rw [usesInAll, List.mem_append, mem_variableUses_iff, mem_usesInAll_iff, or_or_or_comm,
      valuesOfAll, spreadFragmentsOfAll]
    simp only [List.mem_append, or_and_right, exists_or]
end

theorem spreadFragmentsOfAll_concat (before : List Selection) (selection : Selection) :
    spreadFragmentsOfAll (before ++ [selection]) =
      spreadFragmentsOfAll before ++ selection.spreadFragments := by
  induction before with
  | nil => simp [spreadFragmentsOfAll]
  | cons first rest ih => simp [spreadFragmentsOfAll, ih]

end Selection

namespace Grown

variable {raw : Prop} {shared : Fragment → Prop} {scope : Scope} {selections : List Selection}

theorem shared_of_mem (h : Grown raw shared scope selections) :
    ∀ fragment ∈ Selection.spreadFragmentsOfAll selections, shared fragment := by
  induction h with
  | nil => exact fun _ hf => absurd hf List.not_mem_nil
  | leaf grown plain offered free ih =>
    rw [Selection.spreadFragmentsOfAll_concat, List.forall_mem_append]
    exact ⟨ih, fun _ hf => absurd hf List.not_mem_nil⟩
  | composite grown offered below nonempty furnished free ih ihBelow =>
    rw [Selection.spreadFragmentsOfAll_concat, List.forall_mem_append]
    exact ⟨ih, ihBelow⟩
  | inlineFragment grown admitted below nonempty ih ihBelow =>
    rw [Selection.spreadFragmentsOfAll_concat, List.forall_mem_append]
    exact ⟨ih, ihBelow⟩
  | spread grown admitted known free ih =>
    rw [Selection.spreadFragmentsOfAll_concat, List.forall_mem_append]
    exact ⟨ih, List.forall_mem_singleton.2 known⟩

end Grown

/-- A fragment that was defined uses no variables, nor do the fragments that it spreads. -/
theorem Fragment.DefinedOver.uses {bundle : Bundle} {fragment : Fragment}
    (h : fragment.DefinedOver bundle) : Selection.usesInAll fragment.set.selections = [] := by
  induction h with
  | intro document serial draft same spread defined ih =>
    rename_i fragment
    have hvalues := Fragment.DefinedOver.values (.intro document serial draft same spread defined)
    obtain ⟨target, set, -, -, -, hset, rfl⟩ := DocumentDraft.buildFragment_eq_ok defined
    obtain ⟨-, -, -, hgrown, -⟩ := OperationDraft.grown_of_buildSet True ih (.inl trivial) hset
    refine List.eq_nil_iff_forall_not_mem.2 fun used hu => ?_
    rcases Selection.mem_usesInAll_iff.1 hu with ⟨value, hv, hu⟩ | ⟨inner, hi, hu⟩
    · rw [(hvalues value hv).2] at hu
      cases hu
    · rw [hgrown.shared_of_mem inner hi] at hu
      cases hu

namespace Building

variable {α β : Type} {lacking : String → Prop} {passing : Prop}

/-- The run ended with a variable that is lacking, or, if steps are attempted, one of its steps did. -/
def Misses (lacking : String → Prop) (passing : Prop) (outcome : Except BuildError α × Draft) : Prop :=
  ∃ name, lacking name ∧ (outcome.1 = .error (.undeclaredVariable name) ∨
    passing ∧ ∃ entry ∈ outcome.2.journal, entry.error? = some (.undeclaredVariable name))

/-- The second computation does what the first does, unless it misses a variable. -/
def Shadows (lacking : String → Prop) (passing : Prop) (m m' : Building α) : Prop :=
  ∀ draft : Draft, m'.run draft = m.run draft ∨ Misses lacking passing (m'.run draft)

variable {m m' : Building α} {f f' : α → Building β} {body body' : Building Unit}

theorem shadows_refl (m : Building α) : Shadows lacking passing m m := fun _ => .inl rfl

theorem shadows_bind (h : Shadows lacking passing m m') (hk : ∀ a, Keeps (f' a))
    (hf : ∀ a, Shadows lacking passing (f a) (f' a)) :
    Shadows lacking passing (m >>= f) (m' >>= f') := by
  intro draft
  rw [run_bind, run_bind]
  rcases h draft with heq | ⟨name, hl, herror | ⟨hp, entry, he, herror⟩⟩
  · rw [heq]
    rcases m.run draft with ⟨e | a, after⟩
    · exact .inl rfl
    · exact hf a after
  · rcases hr : m'.run draft with ⟨e | a, after⟩ <;> rw [hr] at herror
    · exact .inr ⟨name, hl, .inl (congrArg Except.error (Except.error.inj herror))⟩
    · cases herror
  · rcases hr : m'.run draft with ⟨e | a, after⟩ <;> rw [hr] at he
    · exact .inr ⟨name, hl, .inr ⟨hp, entry, he, herror⟩⟩
    · exact .inr ⟨name, hl, .inr ⟨hp, entry, (hf a after).elim
        (fun _ => (hk a after).2.subset he) (fun _ => (hk a after).2.subset he), herror⟩⟩

theorem shadows_nested (h : Shadows lacking passing body body') :
    Shadows lacking passing (nested body) (nested body') := by
  intro draft
  rw [run_nested, run_nested]
  rcases h { draft with selections := [] } with heq | ⟨name, hl, herror | hjournal⟩
  · exact .inl (by rw [heq])
  · exact .inr ⟨name, hl, .inl (by rw [herror]; rfl)⟩
  · exact .inr ⟨name, hl, .inr hjournal⟩

theorem shadows_journaled (kind : StepKind) (typeName : String)
    (h : Shadows lacking passing body body') :
    Shadows lacking passing (journaled kind typeName body) (journaled kind typeName body') := by
  intro draft
  rw [run_journaled, run_journaled]
  rcases h draft with heq | ⟨name, hl, herror | ⟨hp, entry, he, herror⟩⟩
  · exact .inl (by rw [heq])
  · rcases hr : body'.run draft with ⟨e | _, after⟩ <;> rw [hr] at herror
    · exact .inr ⟨name, hl, .inl herror⟩
    · cases herror
  · rcases hr : body'.run draft with ⟨e | _, after⟩ <;> rw [hr] at he <;>
      exact .inr ⟨name, hl, .inr ⟨hp, entry, List.mem_append_left _ he, herror⟩⟩

/-- A step that ends with an error says so in the journal. -/
theorem error_journaled {scope : Scope} {step : Step} {draft after : Draft} {e : BuildError}
    (h : (step.run scope).run draft = (.error e, after)) :
    ∃ entry ∈ after.journal, entry.error? = some e := by
  have hentry : ∀ (kind : StepKind) (typeName : String) (body : Building Unit),
      (journaled kind typeName body).run draft = (.error e, after) →
        ∃ entry ∈ after.journal, entry.error? = some e := by
    intro kind typeName body h
    rw [run_journaled] at h
    rcases hr : body.run draft with ⟨e' | _, inner⟩ <;> rw [hr] at h
    · obtain ⟨he, rfl⟩ := Prod.mk.inj h
      exact ⟨_, List.mem_append_right _ List.mem_cons_self, congrArg some (Except.error.inj he)⟩
    · cases (Prod.mk.inj h).1
  cases step with
  | snapshot =>
    unfold Step.run at h
    cases (Prod.mk.inj h).1
  | _ =>
    unfold Step.run at h
    exact hentry _ _ _ h

/-- What a step ended with is still told by the journal after the error was passed over. -/
theorem shadows_attempted {scope scope' : Scope} {step : Step} (hp : passing)
    (h : Shadows lacking passing (step.run scope) (step.run scope')) :
    Shadows lacking passing (do let _ ← caught (step.run scope))
      (do let _ ← caught (step.run scope')) := by
  intro draft
  rw [run_bind, run_bind, run_caught, run_caught]
  rcases h draft with heq | ⟨name, hl, herror | ⟨-, entry, he, herror⟩⟩
  · exact .inl (by rw [heq])
  · rcases hr : (step.run scope').run draft with ⟨e | _, after⟩ <;> rw [hr] at herror
    · obtain rfl := Except.error.inj herror
      exact .inr ⟨name, hl, .inr ⟨hp, error_journaled hr⟩⟩
    · cases herror
  · rcases hr : (step.run scope').run draft with ⟨e | _, after⟩ <;> rw [hr] at he <;>
      exact .inr ⟨name, hl, .inr ⟨hp, entry, he, herror⟩⟩

end Building

namespace Scope

open Building

theorem declares_iff (scope : Scope) (name : String) :
    scope.declares name = true ↔ name ∈ scope.variableNames := by
  simp [declares, variableNames]

/-- The scope with other variables. -/
def declaring (scope : Scope) (declarations : List VariableDefinition) : Scope :=
  { scope with declarations := declarations }

variable {scope : Scope} {fewer : List VariableDefinition}

/-- The check of an argument with fewer variables is the same or stops at one that is not declared. -/
theorem argumentError?_declaring
    (hd : ∀ name, (scope.declaring fewer).declares name = true → scope.declares name = true)
    (name : String) (argument : String × Value) :
    (scope.declaring fewer).argumentError? name argument = scope.argumentError? name argument ∨
      ∃ missing, (scope.declaring fewer).declares missing = false ∧
        (scope.declaring fewer).argumentError? name argument = some (.undeclaredVariable missing) := by
  unfold argumentError?
  by_cases hf : argument.2.isFinite = true
  · rw [if_pos hf, if_pos hf]
    cases hu : (scope.declaring fewer).undeclared? argument.2 with
    | none =>
      have hall := (@undeclared?_eq_none_iff (scope.declaring fewer) argument.2).1 hu
      have hnone : scope.undeclared? argument.2 = none :=
        (undeclared?_eq_none_iff argument.2).2 fun used h => hd used (hall used h)
      exact .inl (by rw [hnone])
    | some missing =>
      have hmissing := List.find?_some hu
      exact .inr ⟨missing, by simpa using hmissing, rfl⟩
  · rw [if_neg hf, if_neg hf]
    exact .inl rfl

theorem findSome?_declaring
    (hd : ∀ name, (scope.declaring fewer).declares name = true → scope.declares name = true)
    (name : String) (arguments : List (String × Value)) :
    arguments.findSome? ((scope.declaring fewer).argumentError? name) =
        arguments.findSome? (scope.argumentError? name) ∨
      ∃ missing, (scope.declaring fewer).declares missing = false ∧
        arguments.findSome? ((scope.declaring fewer).argumentError? name) =
          some (.undeclaredVariable missing) := by
  induction arguments with
  | nil => exact .inl rfl
  | cons argument rest ih =>
    rw [List.findSome?_cons, List.findSome?_cons]
    rcases argumentError?_declaring hd name argument with heq | ⟨missing, hm, herror⟩
    · rw [heq]
      cases scope.argumentError? name argument with
      | none => exact ih
      | some e => exact .inl rfl
    · rw [herror]
      exact .inr ⟨missing, hm, rfl⟩

theorem check_declaring
    (hd : ∀ name, (scope.declaring fewer).declares name = true → scope.declares name = true)
    (name : String) (options : FieldOptions) :
    (scope.declaring fewer).check name options = scope.check name options ∨
      ∃ missing, (scope.declaring fewer).declares missing = false ∧
        (scope.declaring fewer).check name options = .error (.undeclaredVariable missing) := by
  have hfield : (scope.declaring fewer).type.field? name = scope.type.field? name := rfl
  unfold check
  split
  · exact .inl rfl
  · rw [hfield]
    cases scope.type.field? name with
    | none => exact .inl rfl
    | some field =>
      dsimp only
      cases options.arguments.find? fun argument => !Keyed.contains argument.1 field.arguments with
      | some argument => exact .inl rfl
      | none =>
        rcases findSome?_declaring hd name options.arguments with heq | ⟨missing, hm, herror⟩
        · exact .inl (by rw [heq]; rfl)
        · exact .inr ⟨missing, hm, by rw [herror]⟩

theorem shadows_resolve {passing : Prop} (scope : Scope)
    (hd : ∀ name, (scope.declaring fewer).declares name = true → scope.declares name = true)
    (name : String) (options : FieldOptions) :
    Shadows (fun name => (scope.declaring fewer).declares name = false) passing
      (scope.resolve name options) ((scope.declaring fewer).resolve name options) := by
  intro draft
  unfold resolve
  rcases check_declaring hd name options with heq | ⟨missing, hm, herror⟩
  · rw [heq]
    exact .inl rfl
  · rw [herror]
    exact .inr ⟨missing, hm, .inl rfl⟩

/-- With fewer variables a program does the same until it misses one. -/
theorem shadowing {passing : Prop}
    (hd : ∀ name, (scope.declaring fewer).declares name = true → scope.declares name = true) :
    Parallel (fun _ m m' => Shadows (fun name => (scope.declaring fewer).declares name = false)
      passing m m' ∧ Keeps m') passing scope (scope.declaring fewer) where
  value a := ⟨shadows_refl _, keeps_pure a⟩
  error e := ⟨shadows_refl _, keeps_throw e⟩
  visit typeName := ⟨shadows_refl _, keeps_visit typeName⟩
  note entry := ⟨shadows_refl _, keeps_note entry⟩
  selections := ⟨shadows_refl _, keeps_selections⟩
  push selection := ⟨shadows_refl _, keeps_push selection⟩
  bind h hf := ⟨shadows_bind h.1 (fun a => (hf a).2) fun a => (hf a).1, keeps_bind h.2 fun a => (hf a).2⟩
  nested h := ⟨shadows_nested h.1, keeps_nested h.2⟩
  journaled kind typeName h := ⟨shadows_journaled kind typeName h.1, keeps_journaled h.2⟩
  attempted hp _ _ h :=
    ⟨shadows_attempted hp h.1, keeps_bind (keeps_caught h.2) fun _ => keeps_pure ()⟩
  resolve type name options :=
    ⟨shadows_resolve (scope.within type) hd name options, keeps_resolve name options⟩
  targeted _ condition _ hf :=
    ⟨shadows_bind (shadows_refl _) (fun target => (hf target).2) fun target => (hf target).1,
      keeps_bind (keeps_fragmentTarget condition) fun target => (hf target).2⟩

end Scope

namespace VariableDraft

variable {bundle : Bundle}

/-- The first of some variables are resolved by themselves in the same way. -/
theorem resolveAll_append {drafts more : List VariableDraft} {declarations : List VariableDefinition}
    (h : resolveAll bundle (drafts ++ more) = .ok declarations) :
    ∃ first, resolveAll bundle drafts = .ok first := by
  rw [resolveAll, List.foldlM_append] at h
  cases hd : drafts.foldlM (resolve bundle) [] with
  | ok first => exact ⟨first, hd⟩
  | error e =>
    rw [hd] at h
    cases h

theorem names_of_resolveAll {drafts : List VariableDraft} {declarations : List VariableDefinition}
    (h : resolveAll bundle drafts = .ok declarations) :
    declarations.map (·.name) = drafts.map (·.name) := by
  have hpairs := congrArg (List.map Prod.fst) (resolveAll_defaults h)
  rwa [List.map_map, List.map_map] at hpairs

end VariableDraft

/-- What an operation uses outside of the fragments that it spreads. -/
def Operation.ownUses (operation : Operation) : List String :=
  operation.directiveUses ++
    (Selection.valuesOfAll operation.set.selections).flatMap Value.variableUses

theorem Operation.mem_references {operation : Operation} {used : String} :
    used ∈ operation.references ↔ used ∈ operation.ownUses ∨
      ∃ fragment ∈ Selection.spreadFragmentsOfAll operation.set.selections,
        used ∈ fragment.set.references := by
  rw [Operation.references, List.mem_eraseDups, List.mem_append, Selection.mem_usesInAll_iff,
    Operation.ownUses, List.mem_append, or_assoc, List.mem_flatMap]
  simp only [SelectionSet.references, List.mem_eraseDups]

namespace OperationDraft

open Building

variable {bundle : Bundle} {draft : OperationDraft}

/-- The names of the variables to be declared. -/
def variableNames (draft : OperationDraft) : List String := draft.declarations.map (·.name)

/-- The draft with further variables. -/
def declaring (draft : OperationDraft) (more : List VariableDraft) : OperationDraft :=
  { draft with declarations := draft.declarations ++ more }

/-- A set that is made with fewer variables is the same, unless one of them is missing. -/
theorem buildSet_declaring {passing : Prop} {scope : Scope} {fewer : List VariableDefinition}
    {program : List Step}
    (hd : ∀ name, (scope.declaring fewer).declares name = true → scope.declares name = true)
    (hs : passing ∨ Step.allStrict program = true) :
    buildSet (scope.declaring fewer) program = buildSet scope program ∨
      ∃ missing, (scope.declaring fewer).declares missing = false ∧
        ((buildSet (scope.declaring fewer) program).result = .error (.undeclaredVariable missing) ∨
          passing ∧ ∃ entry ∈ (buildSet (scope.declaring fewer) program).journal,
            entry.error? = some (.undeclaredVariable missing)) := by
  have hrun : Shadows (fun name => (scope.declaring fewer).declares name = false) passing
      (do
        scope.start
        Step.runAll scope program)
      (do
        (scope.declaring fewer).start
        Step.runAll (scope.declaring fewer) program) :=
    ((Scope.shadowing hd).program scope.type program hs).1
  unfold buildSet
  rcases hrun Draft.empty with heq | ⟨missing, hm, herror | hjournal⟩
  · rw [heq]
    exact .inl rfl
  · refine .inr ⟨missing, hm, .inl ?_⟩
    rcases hr : ((scope.declaring fewer).start >>= fun _ =>
      Step.runAll (scope.declaring fewer) program).run Draft.empty with ⟨e | _, after⟩ <;>
      rw [hr] at herror
    · exact congrArg Except.error (Except.error.inj herror)
    · cases herror
  · exact .inr ⟨missing, hm, .inr hjournal⟩

theorem scope_declaring {more : List VariableDraft} {scope : Scope}
    (h : (draft.declaring more).scope bundle = .ok scope) :
    ∃ fewer, (scope.declaring fewer).variableNames = draft.variableNames ∧
      (∀ name, (scope.declaring fewer).declares name = true → scope.declares name = true) ∧
      draft.scope bundle = match undeclaredInDirectives? draft.directives fewer with
        | some name => .error (.undeclaredVariable name)
        | none => .ok (scope.declaring fewer) := by
  obtain ⟨hroot, hdeclared, -, rfl⟩ := scope_eq_ok h
  obtain ⟨fewer, hfewer⟩ := VariableDraft.resolveAll_append hdeclared
  have hnames : (scope.declaring fewer).variableNames = draft.variableNames :=
    VariableDraft.names_of_resolveAll hfewer
  refine ⟨fewer, hnames, fun name hn => ?_, ?_⟩
  · have hfirst : name ∈ draft.variableNames := hnames ▸ (Scope.declares_iff _ name).1 hn
    have hall : scope.variableNames = (draft.declarations ++ more).map (·.name) :=
      VariableDraft.names_of_resolveAll hdeclared
    rw [Scope.declares_iff, hall, List.map_append]
    exact List.mem_append_left _ hfirst
  · unfold OperationDraft.scope
    have hroot' : root? scope.bundle draft.kind = .ok scope.type := hroot
    rw [hroot', hfewer]
    rfl

/-- Outside of fragments a built operation uses declared variables only. -/
theorem ownUses_declared {operation : Operation} (h : (draft.build bundle).result = .ok operation) :
    ∀ used ∈ operation.ownUses, used ∈ draft.variableNames := by
  obtain ⟨scope, set, hscope, hset, rfl⟩ := build_eq_ok h
  obtain ⟨-, hdeclared, hdirectives, -⟩ := scope_eq_ok hscope
  obtain ⟨-, -, -, hgrown, -⟩ := freelyGrown_of_buildSet hset
  have hnames : scope.variableNames = draft.variableNames :=
    VariableDraft.names_of_resolveAll hdeclared
  have hdeclares : ∀ name, scope.declares name = true → name ∈ draft.variableNames :=
    fun name hn => hnames ▸ (scope.declares_iff name).1 hn
  refine List.forall_mem_append.2 ⟨fun used hu => ?_, fun used hu => ?_⟩
  · exact hdeclares used (undeclaredInDirectives?_eq_none_iff.1 hdirectives used hu)
  · obtain ⟨value, hv, hu⟩ := List.mem_flatMap.1 hu
    exact hdeclares used ((hgrown.values_pass value hv).declared used hu)

/-- With fewer variables a draft makes the same set and uses only what it declares, or it misses a
variable. -/
theorem build_declaring {passing : Prop} {more : List VariableDraft} {operation : Operation}
    (hs : passing ∨ Step.allStrict draft.program = true)
    (h : ((draft.declaring more).build bundle).result = .ok operation) :
    (∀ used ∈ operation.ownUses, used ∈ draft.variableNames) ∨
      ∃ missing, missing ∉ draft.variableNames ∧
        ((draft.build bundle).result = .error (.undeclaredVariable missing) ∨
          passing ∧ ∃ entry ∈ (draft.build bundle).journal,
            entry.error? = some (.undeclaredVariable missing)) := by
  obtain ⟨scope, set, hscope, hset, rfl⟩ := build_eq_ok h
  obtain ⟨fewer, hnames, hd, hdraft⟩ := scope_declaring hscope
  have hlacking : ∀ name, (scope.declaring fewer).declares name = false → name ∉ draft.variableNames := by
    intro name hn hmem
    have hdeclares : (scope.declaring fewer).declares name = true :=
      (Scope.declares_iff _ name).2 (hnames.symm ▸ hmem)
    rw [hn] at hdeclares
    cases hdeclares
  cases hu : undeclaredInDirectives? draft.directives fewer with
  | some missing =>
    have hmissing := List.find?_some hu
    rw [hu] at hdraft
    refine .inr ⟨missing, hlacking missing (Bool.not_eq_true' _ ▸ hmissing), .inl ?_⟩
    rw [build, hdraft]
  | none =>
    rw [hu] at hdraft
    have hbuild := build_of_scope hdraft
    rcases buildSet_declaring hd hs with heq | ⟨missing, hm, herror | hjournal⟩
    · have hset' : (buildSet (scope.declaring fewer) draft.program).result = .ok set := by
        rw [heq]
        exact hset
      have hbuilt : (draft.build bundle).result =
          .ok ⟨draft.kind, draft.name, fewer, draft.directives, set⟩ := by
        rw [hbuild, hset']
        rfl
      have hown := ownUses_declared hbuilt
      exact .inl hown
    · exact .inr ⟨missing, hlacking missing hm, .inl (by rw [hbuild, herror]; rfl)⟩
    · exact .inr ⟨missing, hlacking missing hm, .inr (by rw [hbuild]; exact hjournal)⟩

/-- All that a built operation uses is declared exactly if that holds of the bodies of the fragments
it spreads which no document defined. Where a draft uses an undeclared variable outside of
fragments, as is seen when further ones are declared, its build ends with an error that names an
undeclared variable, or an attempted step did. -/
theorem references_declared_iff (draft : OperationDraft) (bundle : Bundle) :
    (∀ operation, (draft.build bundle).result = .ok operation →
      ((∀ used ∈ operation.references, used ∈ draft.variableNames) ↔
        ∀ fragment ∈ Selection.spreadFragmentsOfAll operation.set.selections,
          fragment.DefinedOver bundle ∨
            ∀ used ∈ fragment.set.references, used ∈ draft.variableNames)) ∧
    ∀ more operation, ((draft.declaring more).build bundle).result = .ok operation →
      (∃ used ∈ operation.ownUses, used ∉ draft.variableNames) →
        ∃ missing, missing ∉ draft.variableNames ∧
          ((draft.build bundle).result = .error (.undeclaredVariable missing) ∨
            Step.allStrict draft.program = false ∧ ∃ entry ∈ (draft.build bundle).journal,
              entry.error? = some (.undeclaredVariable missing)) := by
  refine ⟨fun operation h => ?_, fun more operation h ⟨used, hu, hn⟩ => ?_⟩
  · refine ⟨fun hall fragment hf => .inr fun used hu => ?_, fun hall used hu => ?_⟩
    · exact hall used (Operation.mem_references.2 (.inr ⟨fragment, hf, hu⟩))
    · rcases Operation.mem_references.1 hu with hu | ⟨fragment, hf, hu⟩
      · exact ownUses_declared h used hu
      · rcases hall fragment hf with hdefined | hbody
        · rw [SelectionSet.references, hdefined.uses] at hu
          cases hu
        · exact hbody used hu
  · have hs : Step.allStrict draft.program = false ∨ Step.allStrict draft.program = true :=
      (Bool.eq_false_or_eq_true _).symm
    rcases build_declaring hs h with hall | hmissing
    · exact absurd (hall used hu) hn
    · exact hmissing

end OperationDraft

/-- The products of the shop, as many as a variable says. -/
def countedBody : List Selection :=
  [.composite (.plain "shop") "Shop" [.composite ⟨"products", none, [("first", .var "count")], false⟩
    "ProductConnection" [.composite (.plain "pageInfo") "PageInfo" [.leaf (.plain "hasNextPage")]]]]

def countedDraft : OperationDraft :=
  .ofProgram .query [.object "shop" .none
    [.connection "products" ⟨none, [("first", .var "count")]⟩ [.field "title" .none]]]

/-- All that the sample draft uses is declared, and a draft that declares nothing misses a variable. -/
theorem sampleDraft_references :
    (∀ used ∈ (sampleDraft.built sampleBundle).references, used ∈ sampleDraft.variableNames) ∧
      ∃ missing, missing ∉ countedDraft.variableNames ∧
        ((countedDraft.build sampleBundle).result = .error (.undeclaredVariable missing) ∨
          Step.allStrict countedDraft.program = false ∧
            ∃ entry ∈ (countedDraft.build sampleBundle).journal,
              entry.error? = some (.undeclaredVariable missing)) := by
  have hspread : ((Selection.spreadFragmentsOfAll (sampleDraft.built sampleBundle).set.selections).all
      fun fragment => fragment.set.references.isEmpty) = true := by decide +kernel
  have hmore : ((countedDraft.declaring [⟨"count", .ok (.named "Int"), none⟩]).build
      sampleBundle).result = .ok ((countedDraft.declaring [⟨"count", .ok (.named "Int"), none⟩]).built
        sampleBundle) := OperationDraft.build_eq_built (by decide +kernel)
  refine ⟨((OperationDraft.references_declared_iff sampleDraft sampleBundle).1 _ sampleDraft_built).2 ?_,
    (OperationDraft.references_declared_iff countedDraft sampleBundle).2 _ _ hmore
      ⟨"count", by decide +kernel, by decide⟩⟩
  intro fragment hf
  have hnone : fragment.set.references = [] :=
    List.isEmpty_iff.1 (List.all_eq_true.1 hspread fragment hf)
  refine .inr fun used hu => ?_
  rw [hnone] at hu
  cases hu

/-- A variable that nobody declares is used in the body of a spread fragment, and refused in an inline
fragment with the same body. -/
theorem counted_undeclared :
    ((OperationDraft.ofProgram .query [.selection (.spread 0 "Listing" "Query" "Query" countedBody)]).build
        sampleBundle).result =
      .ok ⟨.query, none, [], [], ⟨"Query", [.spread 0 "Listing" "Query" "Query" countedBody]⟩⟩ ∧
    (Operation.mk .query none [] []
      ⟨"Query", [.spread 0 "Listing" "Query" "Query" countedBody]⟩).references = ["count"] ∧
    ((OperationDraft.ofProgram .query [.selection (.inlineFragment "Query" "Query" countedBody)]).build
        sampleBundle).result = .error (.undeclaredVariable "count") :=
  ⟨rfl, by decide +kernel, rfl⟩

end GraphQLClient
