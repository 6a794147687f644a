import GraphQLClient.Proofs.Building.Validity
import GraphQLClient.Proofs.Language.Everywhere

set_option autoImplicit false

/-!
# What built sets share

Without raw selections every connection has the shape that the builder gives it. The fragments of one
document have serial numbers of their own, so a serial number stands for one fragment in every set
that spreads them.
-/

namespace GraphQLClient

namespace Selection

/-- A connection has the shape that the builder gives it, and a leaf is none. -/
def Furnished (bundle : Bundle) : Selection → Prop
  | .leaf field => field.connection = false
  | .composite field typeName selections =>
    field.connection = true → ∃ (child : Scope) (edges node info : TypeDescriptor)
      (nodes : List Selection), child.bundle = bundle ∧ child.type.name = typeName ∧
        child.Connects edges node info ∧ selections = child.connectionSet edges node info nodes
  | _ => True

theorem furnished_composite {bundle : Bundle} {child : Scope} {field : Field} {inner : List Selection}
    (hb : child.bundle = bundle) (h : child.Furnishes field inner) :
    (Selection.composite field child.type.name inner).Furnished bundle := by
  intro hc
  obtain ⟨edges, node, info, nodes, hconnects, rfl⟩ := h.2 hc
  exact ⟨child, edges, node, info, nodes, hb, rfl, hconnects, rfl⟩

/-- No alias hides which object a response shows. -/
def Unaliased (selection : Selection) : Prop :=
  ∀ field, selection.field? = some field →
    field.aliasName ≠ some "id" ∧ field.aliasName ≠ some typenameField

instance : DecidablePred Unaliased := fun selection =>
  decidable_of_iff (∀ field ∈ selection.field?, field.aliasName ≠ some "id" ∧
    field.aliasName ≠ some typenameField) Iff.rfl

structure Plain (bundle : Bundle) (selection : Selection) : Prop where
  furnished : selection.Furnished bundle
  unaliased : selection.Unaliased

end Selection

namespace Grown

variable {raw : Prop} {shared : Fragment → Prop} {scope : Scope} {selections : List Selection}

/-- What every way to select ensures holds everywhere in a grown set. -/
theorem everywhere {P : Selection → Prop} {bundle : Bundle}
    (h : Grown raw shared scope selections) (hb : scope.bundle = bundle)
    (hleaf : ∀ field, raw ∨ field.connection = false → P (.leaf field))
    (hcomposite : ∀ (child : Scope) field inner, child.bundle = bundle →
      bundle.get? child.type.name = some child.type → raw ∨ child.Furnishes field inner →
      P (.composite field child.type.name inner))
    (hinline : ∀ condition typeName inner, P (.inlineFragment condition typeName inner))
    (hspread : ∀ fragment, shared fragment → (Selection.ofFragment fragment).Everywhere P) :
    Selection.EverywhereAll P selections := by
  induction h with
  | nil => trivial
  | leaf grown plain offered free ih =>
    exact Selection.everywhereAll_append.2 ⟨ih hb, hleaf _ plain, trivial⟩
  | composite grown offered below nonempty furnished free ih ihBelow =>
    obtain ⟨⟨-, _, -, hget, -⟩, -⟩ := offered
    have hself := Bundle.get?_self (hb ▸ hget)
    exact Selection.everywhereAll_append.2
      ⟨ih hb, ⟨hcomposite (Scope.within _ _) _ _ hb hself furnished, ihBelow hb⟩, trivial⟩
  | inlineFragment grown admitted below nonempty ih ihBelow =>
    exact Selection.everywhereAll_append.2 ⟨ih hb, ⟨hinline _ _ _, ihBelow hb⟩, trivial⟩
  | spread grown admitted known free ih =>
    exact Selection.everywhereAll_append.2 ⟨ih hb, hspread _ known, trivial⟩

end Grown

/-- Fragments that one document over the bundle defines one after the other, each without raw
selections and under a serial number of its own. -/
inductive DocumentDraft.Defines (bundle : Bundle) : List Fragment → Prop
  | nil : Defines bundle []
  | snoc {fragments : List Fragment} {fragment : Fragment} (earlier : Defines bundle fragments)
      (operations : List Operation) (serial : Nat) (draft : FragmentDraft)
      (fresh : ∀ other ∈ fragments, other.serial ≠ serial)
      (guided : Step.allGuided draft.program = true)
      (spread : ∀ used ∈ Step.fragmentsOfAll draft.program, used ∈ fragments)
      (defined : ((⟨bundle, operations, fragments⟩ : DocumentDraft).buildFragment serial
        draft).result = .ok fragment) :
      Defines bundle (fragments ++ [fragment])

/-- Fragments that documents over the bundle define one after the other, in whatever way and each under
a serial number of its own. -/
inductive Bundle.Issues (bundle : Bundle) : List Fragment → Prop
  | nil : Issues bundle []
  | snoc {fragments : List Fragment} {fragment : Fragment} (earlier : Issues bundle fragments)
      (document : DocumentDraft) (serial : Nat) (draft : FragmentDraft)
      (same : document.bundle = bundle)
      (fresh : ∀ other ∈ fragments, other.serial ≠ serial)
      (spread : ∀ used ∈ Step.fragmentsOfAll draft.program, used ∈ fragments)
      (defined : (document.buildFragment serial draft).result = .ok fragment) :
      Issues bundle (fragments ++ [fragment])

/-- Some document over the bundle has defined the fragment without raw selections, and likewise those
that it spreads. -/
inductive Fragment.GuidedOver (bundle : Bundle) : Fragment → Prop
  | intro {fragment : Fragment} (document : DocumentDraft) (serial : Nat) (draft : FragmentDraft)
      (same : document.bundle = bundle)
      (guided : Step.allGuided draft.program = true)
      (spread : ∀ used ∈ Step.fragmentsOfAll draft.program, GuidedOver bundle used)
      (defined : (document.buildFragment serial draft).result = .ok fragment) :
      GuidedOver bundle fragment

theorem Fragment.GuidedOver.definedOver {bundle : Bundle} {fragment : Fragment}
    (h : fragment.GuidedOver bundle) : fragment.DefinedOver bundle := by
  induction h with
  | intro document serial draft same _ _ defined ih => exact .intro document serial draft same ih defined

/-- The sets of fragments by serial number. -/
def Fragment.table (fragments : List Fragment) (serial : Nat) : Option SelectionSet :=
  (fragments.find? (·.serial == serial)).map (·.set)

/-- A fragment that is registered, whose body satisfies `P` everywhere. -/
def Fragment.KnownBy (table : Nat → Option SelectionSet) (P : Selection → Prop)
    (fragment : Fragment) : Prop :=
  table fragment.serial = some fragment.set ∧
    Selection.EverywhereAll P fragment.set.selections

/-- A fragment with a new serial number joins the table. -/
theorem Fragment.table_snoc {fragments : List Fragment} {fragment : Fragment}
    (h : ∀ found ∈ fragments, table fragments found.serial = some found.set)
    (fresh : ∀ other ∈ fragments, other.serial ≠ fragment.serial) :
    ∀ found ∈ fragments ++ [fragment],
      table (fragments ++ [fragment]) found.serial = some found.set := by
  unfold table at h ⊢
  intro found hf
  rw [List.find?_append]
  rcases List.mem_append.1 hf with hf | hf
  · obtain ⟨first, hfirst, hset⟩ := Option.map_eq_some_iff.1 (h found hf)
    rw [hfirst]
    exact congrArg some hset
  · obtain rfl := List.mem_singleton.1 hf
    have hnone : fragments.find? (·.serial == found.serial) = none := by
      rw [List.find?_eq_none]
      intro other ho
      simpa using fresh other ho
    rw [hnone]
    simp

namespace Bundle.Issues

variable {bundle : Bundle} {fragments : List Fragment}

theorem table_eq (h : bundle.Issues fragments) :
    ∀ fragment ∈ fragments, Fragment.table fragments fragment.serial = some fragment.set := by
  induction h with
  | nil => exact fun _ h => absurd h List.not_mem_nil
  | @snoc fragments fragment earlier document serial draft same fresh spread defined ih =>
    obtain ⟨_, set, -, -, -, -, rfl⟩ := DocumentDraft.buildFragment_eq_ok defined
    exact Fragment.table_snoc ih fresh

/-- The bodies of the fragments spread fragments that are registered. -/
theorem registered {table : Nat → Option SelectionSet} (h : bundle.Issues fragments)
    (ht : ∀ fragment ∈ fragments, table fragment.serial = some fragment.set) :
    ∀ fragment ∈ fragments, fragment.KnownBy table (Selection.Registered table) := by
  induction h with
  | nil => exact fun _ h => absurd h List.not_mem_nil
  | @snoc fragments fragment earlier document serial draft same fresh spread defined ih =>
    have hearlier := ih fun other ho => ht other (List.mem_append_left _ ho)
    refine List.forall_mem_append.2 ⟨hearlier, List.forall_mem_singleton.2 ⟨ht fragment (by simp), ?_⟩⟩
    obtain ⟨target, set, -, -, -, hset, rfl⟩ := DocumentDraft.buildFragment_eq_ok defined
    obtain ⟨-, -, -, hgrown, -⟩ := OperationDraft.grown_of_buildSet True spread (.inl trivial) hset
    exact hgrown.everywhere rfl (fun _ _ => trivial) (fun _ _ _ _ _ _ => trivial)
      (fun _ _ _ => trivial) hearlier

end Bundle.Issues

namespace DocumentDraft.Defines

variable {bundle : Bundle} {fragments : List Fragment}

theorem table_eq (h : Defines bundle fragments) :
    ∀ fragment ∈ fragments, Fragment.table fragments fragment.serial = some fragment.set := by
  induction h with
  | nil => exact fun _ h => absurd h List.not_mem_nil
  | @snoc fragments fragment earlier operations serial draft fresh guided spread defined ih =>
    obtain ⟨_, set, -, -, -, -, rfl⟩ := DocumentDraft.buildFragment_eq_ok defined
    exact Fragment.table_snoc ih fresh

/-- Bodies of fragments are made of what the builder makes, and spread fragments of the document. -/
theorem everywhere_of_defines {P : Selection → Prop} {table : Nat → Option SelectionSet}
    (h : Defines bundle fragments)
    (ht : ∀ fragment ∈ fragments, table fragment.serial = some fragment.set)
    (hleaf : ∀ field : Field, field.connection = false → P (.leaf field))
    (hcomposite : ∀ (child : Scope) field inner, child.bundle = bundle →
      child.Furnishes field inner → P (.composite field child.type.name inner))
    (hinline : ∀ condition typeName inner, P (.inlineFragment condition typeName inner))
    (hspread : ∀ fragment ∈ fragments, fragment.KnownBy table P → P (.ofFragment fragment)) :
    ∀ fragment ∈ fragments, fragment.KnownBy table P := by
  induction h with
  | nil => exact fun _ h => absurd h List.not_mem_nil
  | @snoc fragments fragment earlier operations serial draft fresh guided spread defined ih =>
    have hearlier := ih (fun other ho => ht other (List.mem_append_left _ ho))
      fun other ho => hspread other (List.mem_append_left _ ho)
    refine List.forall_mem_append.2 ⟨hearlier, List.forall_mem_singleton.2 ⟨ht fragment (by simp), ?_⟩⟩
    obtain ⟨target, set, -, -, -, hset, rfl⟩ := DocumentDraft.buildFragment_eq_ok defined
    obtain ⟨-, -, -, hgrown, -⟩ := OperationDraft.grown_of_buildSet False spread (.inr guided) hset
    refine hgrown.everywhere rfl (fun field hp => hleaf field (hp.resolve_left id))
      (fun child field inner hb _ hp => hcomposite child field inner hb (hp.resolve_left id)) hinline ?_
    intro used hu
    exact ⟨hspread used (List.mem_append_left _ hu) (hearlier used hu), (hearlier used hu).2⟩

theorem definedOver (h : Defines bundle fragments) :
    ∀ fragment ∈ fragments, fragment.DefinedOver bundle := by
  induction h with
  | nil => exact fun _ h => absurd h List.not_mem_nil
  | @snoc fragments fragment earlier operations serial draft fresh guided spread defined ih =>
    intro found hf
    rcases List.mem_append.1 hf with hf | hf
    · exact ih found hf
    · obtain rfl := List.mem_singleton.1 hf
      exact .intro ⟨bundle, operations, fragments⟩ serial draft rfl
        (fun used hu => ih used (spread used hu)) defined

end DocumentDraft.Defines

/-- A spread of one of the fragments. -/
def Selection.SpreadOf (fragments : List Fragment) : Selection → Prop
  | .spread serial name condition typeName selections =>
    ⟨serial, name, condition, ⟨typeName, selections⟩⟩ ∈ fragments
  | _ => True

namespace DocumentDraft.Defines

variable {bundle : Bundle} {fragments : List Fragment}

theorem nodup_names (h : Defines bundle fragments) : (fragments.map (·.name)).Nodup := by
  induction h with
  | nil => exact List.nodup_nil
  | @snoc fragments fragment earlier operations serial draft fresh guided spread defined ih =>
    obtain ⟨_, set, -, -, hfree, -, rfl⟩ := DocumentDraft.buildFragment_eq_ok defined
    rw [List.map_append, List.nodup_append]
    refine ⟨ih, by simp, fun name hn other ho => ?_⟩
    obtain ⟨found, hf, rfl⟩ := List.mem_map.1 hn
    obtain rfl := List.mem_singleton.1 ho
    simpa using List.find?_eq_none.1 hfree found hf

/-- The fragments spread nothing but each other. -/
theorem spreadOf (h : Defines bundle fragments) : ∀ fragment ∈ fragments,
    Selection.EverywhereAll (Selection.SpreadOf fragments) fragment.set.selections := by
  intro fragment hf
  exact (h.everywhere_of_defines h.table_eq (fun _ _ => trivial) (fun _ _ _ _ _ => trivial)
    (fun _ _ _ => trivial) (fun _ hm _ => hm) fragment hf).2

end DocumentDraft.Defines

/-- The operation was built in whatever way, from fragments that were defined. -/
structure Operation.Drafted (bundle : Bundle) (fragments : List Fragment) (operation : Operation) :
    Prop where
  issues : bundle.Issues fragments
  built : ∃ draft : OperationDraft,
    (∀ fragment ∈ Step.fragmentsOfAll draft.program, fragment ∈ fragments) ∧
    (draft.build bundle).result = .ok operation

namespace Operation.Drafted

variable {bundle : Bundle} {fragments : List Fragment} {operation : Operation}

theorem root (h : operation.Drafted bundle fragments) :
    ∃ root, OperationDraft.root? bundle operation.kind = .ok root ∧
      operation.set.typeName = root.name := by
  obtain ⟨draft, hspread, hbuild⟩ := h.built
  obtain ⟨scope, set, hscope, hset, rfl⟩ := OperationDraft.build_eq_ok hbuild
  obtain ⟨hname, -⟩ := OperationDraft.grown_of_buildSet True hspread (.inl trivial) hset
  exact ⟨scope.type, (OperationDraft.scope_eq_ok hscope).1, hname⟩

theorem registered (h : operation.Drafted bundle fragments) :
    Selection.EverywhereAll (Selection.Registered (Fragment.table fragments))
      operation.set.selections := by
  obtain ⟨draft, hspread, hbuild⟩ := h.built
  obtain ⟨scope, set, hscope, hset, rfl⟩ := OperationDraft.build_eq_ok hbuild
  obtain ⟨-, -, -, hbundle⟩ := OperationDraft.scope_eq_ok hscope
  obtain ⟨-, -, -, hgrown, -⟩ := OperationDraft.grown_of_buildSet True hspread (.inl trivial) hset
  exact hgrown.everywhere hbundle (fun _ _ => trivial) (fun _ _ _ _ _ _ => trivial)
    (fun _ _ _ => trivial) (h.issues.registered h.issues.table_eq)

end Operation.Drafted

/-- The operation was built without raw selections, from fragments of one document. -/
structure Operation.Guided (bundle : Bundle) (fragments : List Fragment) (operation : Operation) :
    Prop where
  defines : DocumentDraft.Defines bundle fragments
  built : ∃ draft : OperationDraft, Step.allGuided draft.program = true ∧
    (∀ fragment ∈ Step.fragmentsOfAll draft.program, fragment ∈ fragments) ∧
    (draft.build bundle).result = .ok operation

namespace Operation.Guided

variable {bundle : Bundle} {fragments : List Fragment} {operation : Operation}

theorem valid (h : operation.Guided bundle fragments) : operation.Valid bundle := by
  obtain ⟨draft, -, hspread, hbuild⟩ := h.built
  exact OperationDraft.valid_of_validOver (fun fragment hf =>
    Fragment.validOver_of_definedOver (h.defines.definedOver fragment (hspread fragment hf))) hbuild

theorem grown (h : operation.Guided bundle fragments) :
    ∃ scope : Scope, scope.bundle = bundle ∧
      OperationDraft.root? bundle operation.kind = .ok scope.type ∧
      Grown.From False (· ∈ fragments) scope scope.opening operation.set.selections := by
  obtain ⟨draft, hguided, hspread, hbuild⟩ := h.built
  obtain ⟨scope, set, hscope, hset, rfl⟩ := OperationDraft.build_eq_ok hbuild
  obtain ⟨hroot, -, -, hbundle⟩ := OperationDraft.scope_eq_ok hscope
  obtain ⟨-, -, -, hgrown⟩ := OperationDraft.grown_of_buildSet False hspread (.inr hguided) hset
  exact ⟨scope, hbundle, hroot, hgrown⟩

/-- What holds of all that the builder makes holds everywhere in the operation. -/
theorem everywhere {P : Selection → Prop} (h : operation.Guided bundle fragments)
    (hleaf : ∀ field : Field, field.connection = false → P (.leaf field))
    (hcomposite : ∀ (child : Scope) field inner, child.bundle = bundle →
      child.Furnishes field inner → P (.composite field child.type.name inner))
    (hinline : ∀ condition typeName inner, P (.inlineFragment condition typeName inner))
    (hspread : ∀ fragment ∈ fragments, fragment.KnownBy (Fragment.table fragments) P →
      P (.ofFragment fragment)) :
    Selection.EverywhereAll P operation.set.selections := by
  obtain ⟨scope, hbundle, -, hgrown, -⟩ := h.grown
  have hknown := h.defines.everywhere_of_defines h.defines.table_eq hleaf hcomposite hinline hspread
  exact hgrown.everywhere hbundle (fun field hp => hleaf field (hp.resolve_left id))
    (fun child field inner hb _ hp => hcomposite child field inner hb (hp.resolve_left id)) hinline
    fun fragment hf => ⟨hspread fragment hf (hknown fragment hf), (hknown fragment hf).2⟩

theorem registered (h : operation.Guided bundle fragments) :
    Selection.EverywhereAll (Selection.Registered (Fragment.table fragments))
      operation.set.selections :=
  h.everywhere (fun _ _ => trivial) (fun _ _ _ _ _ => trivial) (fun _ _ _ => trivial)
    fun _ _ hf => hf.1

theorem spreadOf (h : operation.Guided bundle fragments) :
    Selection.EverywhereAll (Selection.SpreadOf fragments) operation.set.selections :=
  h.everywhere (fun _ _ => trivial) (fun _ _ _ _ _ => trivial) (fun _ _ _ => trivial)
    fun _ hm _ => hm

theorem furnished (h : operation.Guided bundle fragments) :
    Selection.EverywhereAll (Selection.Furnished bundle) operation.set.selections := by
  exact h.everywhere (fun _ hc => hc) (fun _ _ _ => Selection.furnished_composite)
    (fun _ _ _ => trivial) fun _ _ _ => trivial

end Operation.Guided

/-- The property holds of all that is selected without raw selections. -/
structure Selection.Given (bundle : Bundle) (P : Selection → Prop) : Prop where
  leaf : ∀ field : Field, field.connection = false → P (.leaf field)
  composite : ∀ (child : Scope) field inner, child.bundle = bundle →
    bundle.get? child.type.name = some child.type → child.Furnishes field inner →
    P (.composite field child.type.name inner)
  inlineFragment : ∀ condition typeName inner, P (.inlineFragment condition typeName inner)
  spread : ∀ fragment, P (.ofFragment fragment)

theorem Selection.given_furnished (bundle : Bundle) : Given bundle (Furnished bundle) where
  leaf := fun _ hc => hc
  composite := fun _ _ _ hb _ hf => furnished_composite hb hf
  inlineFragment := fun _ _ _ => trivial
  spread := fun _ => trivial

namespace Selection.Given

variable {bundle : Bundle} {P : Selection → Prop}

/-- What is given holds everywhere in a set that is built, if it does in the fragments. -/
theorem everywhere_of_buildSet {scope : Scope} {program : List Step} {set : SelectionSet}
    (hP : Given bundle P) (hb : scope.bundle = bundle)
    (hf : ∀ fragment ∈ Step.fragmentsOfAll program, EverywhereAll P fragment.set.selections)
    (hg : Step.allGuided program = true)
    (h : (OperationDraft.buildSet scope program).result = .ok set) :
    EverywhereAll P set.selections := by
  obtain ⟨-, -, -, hgrown, -⟩ := OperationDraft.grown_of_buildSet False hf (.inr hg) h
  exact hgrown.everywhere hb (fun field hp => hP.leaf field (hp.resolve_left id))
    (fun child field inner hchild hself hp =>
      hP.composite child field inner hchild hself (hp.resolve_left id))
    hP.inlineFragment fun fragment hbody => ⟨hP.spread fragment, hbody⟩

theorem everywhere_of_guidedOver {fragment : Fragment} (hP : Given bundle P)
    (h : fragment.GuidedOver bundle) : EverywhereAll P fragment.set.selections := by
  induction h with
  | intro document serial draft same guided _ defined ih =>
    obtain ⟨target, set, -, -, -, hset, rfl⟩ := DocumentDraft.buildFragment_eq_ok defined
    exact hP.everywhere_of_buildSet same ih guided hset

theorem everywhere_of_build {draft : OperationDraft} {operation : Operation} (hP : Given bundle P)
    (hf : ∀ fragment ∈ Step.fragmentsOfAll draft.program, fragment.GuidedOver bundle)
    (hg : Step.allGuided draft.program = true) (h : (draft.build bundle).result = .ok operation) :
    EverywhereAll P operation.set.selections := by
  obtain ⟨scope, set, hscope, hset, rfl⟩ := OperationDraft.build_eq_ok h
  obtain ⟨-, -, -, hbundle⟩ := OperationDraft.scope_eq_ok hscope
  exact hP.everywhere_of_buildSet hbundle
    (fun fragment hm => hP.everywhere_of_guidedOver (hf fragment hm)) hg hset

end Selection.Given

theorem sampleFragment_built : ((⟨sampleBundle, [], []⟩ : DocumentDraft).buildFragment 0
    ⟨"Title", "Product", [.field "title" .none]⟩).result = .ok sampleFragment := rfl

theorem sampleFragment_guidedOver : sampleFragment.GuidedOver sampleBundle :=
  .intro (.empty sampleBundle) 0 ⟨"Title", "Product", [.field "title" .none]⟩ rfl (by rfl)
    (by rintro _ ⟨⟩) rfl

theorem sampleFragment_defines : DocumentDraft.Defines sampleBundle [sampleFragment] := by
  refine .snoc .nil [] 0 _ (fun _ h => absurd h List.not_mem_nil) (by rfl) ?_ sampleFragment_built
  simp [Step.fragmentsOfAll, Step.fragments]

end GraphQLClient
