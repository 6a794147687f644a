import GraphQLClient.Building.Program
import GraphQLClient.Proofs.Building.Parts
import GraphQLClient.Proofs.Building.Runs
import GraphQLClient.Proofs.Schema.Issues

set_option autoImplicit false

/-!
# What each way to select does

For every way to select on a scope one statement says when it succeeds and what it adds to the
selections that stand there. A way that fails leaves them alone.
-/

namespace GraphQLClient

namespace Selection

def key? (selection : Selection) : Option String := selection.field?.map Field.responseKey

theorem key?_of_answers {selection : Selection} {answer : String}
    (h : selection.answers answer = true) : selection.key? = some answer := by
  unfold answers at h
  unfold key?
  cases hf : selection.field? with
  | none => simp [hf] at h
  | some field => simpa [hf] using h

theorem answers_iff_key? {selection : Selection} {key : String} :
    selection.answers key = true ↔ selection.key? = some key := by
  refine ⟨key?_of_answers, fun h => ?_⟩
  obtain ⟨field, hfield, rfl⟩ := Option.map_eq_some_iff.1 h
  simp [answers, hfield]

/-- A field may stand beside others: one that answers to its key already is the same. -/
def Fits (before : List Selection) (key : String) (selection : Selection) : Prop :=
  ∀ found, before.find? (answers key) = some found → found.same selection = true

def settled (before : List Selection) (key : String) (selection : Selection) : List Selection :=
  if (before.find? (answers key)).isSome then before else before ++ [selection]

theorem settled_of_find?_eq_none {before : List Selection} {key : String} {selection : Selection}
    (h : before.find? (answers key) = none) : settled before key selection = before ++ [selection] := by
  simp [settled, h]

/-- What stands there already is as good as what it makes superfluous. -/
theorem Fits.all_settled {p : Selection → Bool} {before : List Selection} {key : String}
    {selection : Selection} (hf : Fits before key selection)
    (hp : ∀ found, found.same selection = true → p found = p selection) :
    (settled before key selection).all p = (before.all p && p selection) := by
  unfold settled
  cases hfind : before.find? (answers key) with
  | none => simp
  | some found =>
    have hfound : before.all p = true → p found = true := fun h =>
      List.all_eq_true.1 h found (List.mem_of_find?_eq_some hfind)
    rw [Option.isSome_some, if_pos rfl, ← hp found (hf found hfind)]
    cases hb : before.all p with
    | false => rfl
    | true => rw [hfound hb, Bool.and_self]

end Selection

/-- A field without alias and arguments. -/
def Field.plain (name : String) : Field := Field.ofOptions name .none false

namespace Scope

open Building

variable {scope : Scope} {before : List Selection}

/-- The arguments are declared, finite, and use declared variables only. -/
def ArgumentsFit (scope : Scope) (declared : FieldDescriptor) (arguments : List (String × Value)) :
    Prop :=
  ∀ argument ∈ arguments, Keyed.contains argument.1 declared.arguments = true ∧
    argument.2.isFinite = true ∧ ∀ used ∈ argument.2.variableUses, scope.declares used = true

/-- The type of the scope declares the field with these arguments and returns `type`. -/
def Offers (scope : Scope) (name : String) (arguments : List (String × Value))
    (type : TypeDescriptor) : Prop :=
  name ≠ typenameField ∧ ∃ declared, scope.type.field? name = some declared ∧
    scope.bundle.get? declared.typeName = some type ∧ scope.ArgumentsFit declared arguments

/-- A field that needs selections below it. -/
def OffersObject (scope : Scope) (name : String) (arguments : List (String × Value))
    (type : TypeDescriptor) : Prop :=
  scope.Offers name arguments type ∧ type.isComposite = true

/-- A field that takes no selections below it. -/
def OffersLeaf (scope : Scope) (name : String) (arguments : List (String × Value)) : Prop :=
  (name = typenameField ∧ arguments = []) ∨
    ∃ type, scope.Offers name arguments type ∧ type.isComposite = false

/-- Fragments on the type `target` may stand in the scope. -/
def Admits (scope : Scope) (condition : String) (target : TypeDescriptor) : Prop :=
  scope.bundle.get? condition = some target ∧ target.isComposite = true ∧
    scope.type.overlaps target = true

/-- The selections that a new set starts with. -/
def opening (scope : Scope) : List Selection :=
  (if scope.type.implementsNode && (scope.type.field? "id").isSome then [.leaf (.plain "id")] else []) ++
    if scope.type.isAbstract then [.leaf (.plain typenameField)] else []

/-- A new set can be started. -/
def Opens (scope : Scope) : Prop :=
  (scope.type.implementsNode && (scope.type.field? "id").isSome) = true → scope.OffersLeaf "id" []

theorem find?_opening {key : String} (hi : key ≠ "id") (ht : key ≠ typenameField) :
    scope.opening.find? (Selection.answers key) = none := by
  unfold opening
  split <;> split <;>
    simp [Selection.answers, Selection.field?, Field.plain, Field.ofOptions, Field.responseKey,
      FieldOptions.none, Ne.symm hi, Ne.symm ht]

theorem undeclared?_eq_none_iff (value : Value) :
    scope.undeclared? value = none ↔ ∀ used ∈ value.variableUses, scope.declares used = true := by
  simp [undeclared?, Value.references, List.find?_eq_none, List.mem_eraseDups]

theorem argumentError?_eq_none_iff (name : String) (argument : String × Value) :
    scope.argumentError? name argument = none ↔
      argument.2.isFinite = true ∧ ∀ used ∈ argument.2.variableUses, scope.declares used = true := by
  unfold argumentError?
  split <;> simp_all [undeclared?_eq_none_iff]

theorem argumentsFit_iff (name : String) (declared : FieldDescriptor)
    (arguments : List (String × Value)) :
    scope.ArgumentsFit declared arguments ↔
      (arguments.find? fun argument => !Keyed.contains argument.1 declared.arguments) = none ∧
        arguments.findSome? (scope.argumentError? name) = none := by
  simp only [ArgumentsFit, List.find?_eq_none, List.findSome?_eq_none_iff,
    argumentError?_eq_none_iff, Bool.not_eq_true', Bool.not_eq_false]
  exact ⟨fun h => ⟨fun a ha => (h a ha).1, fun a ha => (h a ha).2⟩,
    fun h a ha => ⟨h.1 a ha, h.2 a ha⟩⟩

/-- What the check of a field finds; nothing for the type name field. -/
def Returns (scope : Scope) (name : String) (options : FieldOptions) :
    Option TypeDescriptor → Prop
  | none => name = typenameField ∧ options.arguments = []
  | some type => scope.Offers name options.arguments type

theorem check_eq_ok_iff (name : String) (options : FieldOptions) (type : Option TypeDescriptor) :
    scope.check name options = .ok type ↔ scope.Returns name options type := by
  by_cases hn : name = typenameField
  · rcases options with ⟨_, _ | ⟨⟨argument, value⟩, rest⟩⟩ <;> cases type <;>
      simp [check, Returns, Offers, hn]
  · cases hd : scope.type.field? name with
    | none => cases type <;> simp [check, Returns, Offers, hn, hd]
    | some declared =>
      have hfit : scope.ArgumentsFit declared options.arguments ↔ _ :=
        argumentsFit_iff name declared options.arguments
      cases hu : options.arguments.find? fun a => !Keyed.contains a.1 declared.arguments with
      | some argument =>
        rw [hu] at hfit
        cases type <;> simp [check, Returns, Offers, hn, hd, hu, hfit]
      | none =>
        cases he : options.arguments.findSome? (scope.argumentError? name) with
        | some e =>
          rw [he] at hfit
          cases type <;> simp [check, Returns, Offers, hn, hd, hu, he, hfit]
        | none =>
          have hf : scope.ArgumentsFit declared options.arguments := hfit.2 ⟨hu, he⟩
          cases hl : scope.bundle.get? declared.typeName <;> cases type <;>
            simp [check, Returns, Offers, lookup, Except.map, hn, hd, hu, he, hf, hl]

theorem runs_resolve (name : String) (options : FieldOptions) :
    Runs before (scope.resolve name options)
      (fun type s => scope.Returns name options type ∧ s = before)
      (fun _ s => (∀ type, ¬ scope.Returns name options type) ∧ s = before) := by
  refine runs_bind (runs_mono (runs_checked _) (fun _ _ h => h) ?_) ?_
  · rintro e _ ⟨he, rfl⟩
    refine ⟨fun type ht => ?_, rfl⟩
    rw [(check_eq_ok_iff name options type).2 ht] at he
    cases he
  · rintro type _ ⟨ht, rfl⟩
    refine runs_bind (runs_visit _) ?_
    rintro _ _ rfl
    exact runs_pure ⟨(check_eq_ok_iff name options type).1 ht, rfl⟩

theorem Offers.unique {name : String} {arguments : List (String × Value)}
    {type type' : TypeDescriptor} (h : scope.Offers name arguments type)
    (h' : scope.Offers name arguments type') : type = type' := by
  obtain ⟨-, declared, hd, ht, -⟩ := h
  obtain ⟨-, declared', hd', ht', -⟩ := h'
  obtain rfl : declared = declared' := Option.some.inj (hd.symm.trans hd')
  exact Option.some.inj (ht.symm.trans ht')

theorem runs_compositeType (name : String) (options : FieldOptions) :
    Runs before (scope.compositeType name options)
      (fun type s => scope.OffersObject name options.arguments type ∧ s = before)
      (fun _ s => (∀ type, ¬ scope.OffersObject name options.arguments type) ∧ s = before) := by
  refine runs_bind (runs_mono (runs_resolve name options) (fun _ _ h => h) ?_) ?_
  · rintro e _ ⟨hr, rfl⟩
    exact ⟨fun type ht => hr (some type) ht.1, rfl⟩
  · rintro type _ ⟨hr, rfl⟩
    cases type with
    | none => exact runs_throw ⟨fun type ht => ht.1.1 hr.1, rfl⟩
    | some type =>
      by_cases hc : type.isComposite = true
      · simp only [hc, if_true]
        exact runs_pure ⟨⟨hr, hc⟩, rfl⟩
      · simp only [hc]
        refine runs_throw ⟨fun type' ht => ?_, rfl⟩
        exact hc (Offers.unique hr ht.1 ▸ ht.2)

theorem Admits.name {condition : String} {target : TypeDescriptor}
    (h : scope.Admits condition target) : scope.Admits target.name target :=
  ⟨by rw [Bundle.get?_name h.1, h.1], h.2⟩

theorem Admits.unique {condition : String} {target target' : TypeDescriptor}
    (h : scope.Admits condition target) (h' : scope.Admits condition target') : target = target' :=
  Option.some.inj (h.1.symm.trans h'.1)

/-- The type of a fragment, as far as the scope admits it. -/
def admitted (scope : Scope) (condition : String) : Except BuildError TypeDescriptor :=
  match scope.bundle.get? condition with
  | none => .error (.unknownType condition)
  | some target =>
    if target.isComposite && scope.type.overlaps target then .ok target
    else .error (.invalidFragmentType scope.type.name condition)

theorem admitted_eq_ok_iff {condition : String} {target : TypeDescriptor} :
    scope.admitted condition = .ok target ↔ scope.Admits condition target := by
  unfold admitted Admits
  cases scope.bundle.get? condition with
  | none => simp
  | some found =>
    by_cases hc : (found.isComposite && scope.type.overlaps found) = true
    · simp only [if_pos hc, Except.ok.injEq, Option.some.injEq]
      refine ⟨?_, And.left⟩
      rintro rfl
      exact ⟨rfl, by simpa using hc⟩
    · simp only [if_neg hc, reduceCtorEq, Option.some.injEq, false_iff]
      rintro ⟨rfl, ht⟩
      exact hc (by simpa using ht)

/-- The search for the type of a fragment is a check. -/
theorem fragmentTarget_eq (scope : Scope) (condition : String) :
    scope.fragmentTarget condition = checked (scope.admitted condition) := by
  unfold fragmentTarget lookup admitted
  cases scope.bundle.get? condition with
  | none => rfl
  | some found =>
    dsimp only
    by_cases hc : (found.isComposite && scope.type.overlaps found) = true
    · rw [if_pos hc]
      exact if_pos hc
    · rw [if_neg hc]
      exact if_neg hc

theorem runs_fragmentTarget (condition : String) :
    Runs before (scope.fragmentTarget condition)
      (fun target s => scope.Admits condition target ∧ s = before)
      (fun _ s => (∀ target, ¬ scope.Admits condition target) ∧ s = before) := by
  refine runs_bind (runs_mono (runs_checked _) (fun _ _ h => h) ?_) ?_
  · rintro e _ ⟨he, rfl⟩
    refine ⟨fun target ht => ?_, rfl⟩
    simp [lookup, ht.1] at he
  · rintro target _ ⟨hl, rfl⟩
    have hg : scope.bundle.get? condition = some target := by
      unfold lookup at hl
      split at hl <;> simp_all
    by_cases hc : (target.isComposite && scope.type.overlaps target) = true
    · rw [if_pos hc]
      exact runs_pure ⟨⟨hg, by simpa using hc⟩, rfl⟩
    · rw [if_neg hc]
      refine runs_throw ⟨fun target' ht => ?_, rfl⟩
      obtain rfl : target = target' := Option.some.inj (hg.symm.trans ht.1)
      exact hc (by simpa using ht.2)

theorem runs_pushField (field : Field) (selection : Selection) :
    Runs before (scope.pushField field selection)
      (fun _ s => Selection.Fits before field.responseKey selection ∧
        s = Selection.settled before field.responseKey selection)
      (fun _ s => ¬ Selection.Fits before field.responseKey selection ∧ s = before) := by
  refine runs_bind runs_selections ?_
  rintro _ _ ⟨rfl, rfl⟩
  rename_i s
  cases hf : s.find? (Selection.answers field.responseKey) with
  | none =>
    refine runs_mono (runs_push selection) ?_ (fun _ _ h => h)
    rintro _ _ rfl
    exact ⟨by simp [Selection.Fits, hf], by simp [Selection.settled, hf]⟩
  | some found =>
    by_cases hs : found.same selection = true
    · simp only [hs, if_true]
      exact runs_pure ⟨by simp [Selection.Fits, hf, hs], by simp [Selection.settled, hf]⟩
    · simp only [hs]
      exact runs_throw ⟨by simp [Selection.Fits, hf, hs], rfl⟩

/-- A leaf field that the scope offers and that fits. -/
def TakesLeaf (scope : Scope) (before : List Selection) (field : Field) : Prop :=
  scope.OffersLeaf field.name field.arguments ∧
    Selection.Fits before field.responseKey (.leaf field)

/-- A field with the selections `inner` below it that the scope offers and that fits. -/
def Takes (scope : Scope) (before : List Selection) (field : Field) (type : TypeDescriptor)
    (inner : List Selection) : Prop :=
  scope.OffersObject field.name field.arguments type ∧ inner ≠ [] ∧
    Selection.Fits before field.responseKey (.composite field type.name inner)

theorem runs_pushLeaf (field : Field) (h : scope.OffersLeaf field.name field.arguments) :
    Runs before (scope.pushField field (.leaf field))
      (fun _ s => scope.TakesLeaf before field ∧
        s = Selection.settled before field.responseKey (.leaf field))
      (fun _ s => ¬ scope.TakesLeaf before field ∧ s = before) :=
  runs_mono (runs_pushField _ _) (fun _ _ hp => ⟨⟨h, hp.1⟩, hp.2⟩)
    (fun _ _ hp => ⟨fun ht => hp.1 ht.2, hp.2⟩)

theorem runs_resolvedLeaf (field : Field) (error : TypeDescriptor → BuildError) :
    Runs before (scope.resolvedLeaf field error)
      (fun _ s => scope.TakesLeaf before field ∧
        s = Selection.settled before field.responseKey (.leaf field))
      (fun _ s => ¬ scope.TakesLeaf before field ∧ s = before) := by
  refine runs_bind (runs_mono (runs_resolve _ _) (fun _ _ h => h) ?_) ?_
  · rintro e _ ⟨hr, rfl⟩
    refine ⟨?_, rfl⟩
    rintro ⟨hn | ⟨type, ht, -⟩, -⟩
    · exact hr none hn
    · exact hr (some type) ht
  · rintro type _ ⟨hr, rfl⟩
    cases type with
    | none => exact runs_pushLeaf field (.inl hr)
    | some type =>
      by_cases hc : type.isComposite = true
      · simp only [hc, if_true]
        refine runs_throw ⟨?_, rfl⟩
        rintro ⟨hn | ⟨type', ht, hc'⟩, -⟩
        · exact hr.1 hn.1
        · rw [Offers.unique hr ht, hc'] at hc
          cases hc
      · simp only [hc]
        exact runs_pushLeaf field (.inr ⟨type, hr, by simpa using hc⟩)

theorem runs_addField (name : String) (options : FieldOptions) :
    let field := Field.ofOptions name options false
    Runs before (scope.addField name options)
      (fun _ s => scope.TakesLeaf before field ∧
        s = Selection.settled before field.responseKey (.leaf field))
      (fun _ s => ¬ scope.TakesLeaf before field ∧ s = before) :=
  runs_resolvedLeaf (Field.ofOptions name options false) _

theorem runs_start :
    Runs [] scope.start (fun _ s => scope.Opens ∧ s = scope.opening) (fun _ _ => ¬ scope.Opens) := by
  refine runs_bind (runs_visit _) ?_
  rintro _ _ rfl
  have hname : ∀ before, (before = [] ∨ before = [.leaf (.plain "id")]) → Runs before
      (if scope.type.isAbstract then scope.addField typenameField .none else pure ())
      (fun _ s => s = before ++ if scope.type.isAbstract then [.leaf (.plain typenameField)] else [])
      (fun _ _ => False) := by
    intro before hbefore
    split
    · refine runs_mono (runs_addField typenameField .none) ?_ ?_
      · rintro _ _ ⟨-, rfl⟩
        rcases hbefore with rfl | rfl <;> rfl
      · rintro _ _ ⟨hn, -⟩
        refine hn ⟨.inl ⟨rfl, rfl⟩, ?_⟩
        rcases hbefore with rfl | rfl <;> simp [Selection.Fits, Selection.answers, Selection.field?, Field.plain, Field.ofOptions, Field.responseKey,
          FieldOptions.none, typenameField]
    · exact runs_pure (by simp)
  by_cases hid : (scope.type.implementsNode && (scope.type.field? "id").isSome) = true
  · simp only [hid, opening, if_true]
    refine runs_bind (runs_mono (runs_addField "id" .none) (fun _ _ h => h) ?_) ?_
    · rintro _ _ ⟨hn, -⟩ ho
      exact hn ⟨ho hid, by simp [Selection.Fits]⟩
    · rintro _ _ ⟨ht, rfl⟩
      refine runs_mono (hname _ (.inr rfl)) ?_ (fun _ _ h => h.elim)
      rintro _ _ rfl
      exact ⟨fun _ => ht.1, rfl⟩
  · simp only [hid, opening]
    refine runs_mono (hname [] (.inl rfl)) ?_ (fun _ _ h => h.elim)
    rintro _ _ rfl
    exact ⟨fun h => absurd h hid, rfl⟩

theorem runs_pushMade (field : Field) {type : TypeDescriptor} (error : BuildError) (inner : List Selection)
    (h : scope.OffersObject field.name field.arguments type) :
    Runs before (scope.pushMade field type.name error inner)
      (fun _ s => scope.Takes before field type inner ∧
        s = Selection.settled before field.responseKey (.composite field type.name inner))
      (fun _ s => ¬ scope.Takes before field type inner ∧ s = before) := by
  unfold pushMade
  by_cases hi : inner = []
  · simp only [hi, List.isEmpty_nil, if_true]
    exact runs_throw ⟨fun ht => ht.2.1 rfl, rfl⟩
  · simp only [List.isEmpty_iff, hi, if_false]
    exact runs_mono (runs_pushField _ _) (fun _ _ hp => ⟨⟨h, hi, hp.1⟩, hp.2⟩)
      (fun _ _ hp => ⟨fun ht => hp.1 ht.2.2, hp.2⟩)

theorem runs_opened {body : Building Unit} {B : List Selection → Prop}
    {F : BuildError → List Selection → Prop}
    (hb : scope.Opens → Runs scope.opening body (fun _ inner => B inner) F) :
    Runs [] (do scope.start; body) (fun _ inner => scope.Opens ∧ B inner)
      (fun e inner => ¬ scope.Opens ∨ F e inner) := by
  refine runs_bind (runs_mono runs_start (fun _ _ h => h) (fun _ _ h => .inl h)) ?_
  rintro _ _ ⟨ho, rfl⟩
  exact runs_mono (hb ho) (fun _ _ h => ⟨ho, h⟩) (fun _ _ h => .inr h)

/-- A composite field whose selections are made by `body` from the selections of a new set. -/
theorem runs_addObject {name : String} {options : FieldOptions} {body : Scope → Building Unit}
    {B : TypeDescriptor → List Selection → Prop}
    {F : TypeDescriptor → BuildError → List Selection → Prop}
    (hb : ∀ type, scope.OffersObject name options.arguments type → (scope.within type).Opens →
      Runs (scope.within type).opening (body (scope.within type)) (fun _ inner => B type inner)
        (F type)) :
    let field := Field.ofOptions name options false
    Runs before (scope.addObject name options body)
      (fun _ s => ∃ type inner, scope.Takes before field type inner ∧ (scope.within type).Opens ∧
        B type inner ∧
        s = Selection.settled before field.responseKey (.composite field type.name inner))
      (fun _ s => s = before ∧ ∀ type, scope.OffersObject name options.arguments type →
        (scope.within type).Opens →
          (∃ e inner, F type e inner) ∨ ∃ inner, B type inner ∧ ¬ scope.Takes before field type inner) := by
  intro field
  refine runs_bind (runs_mono (runs_compositeType name options) (fun _ _ h => h) ?_) ?_
  · rintro e _ ⟨hn, rfl⟩
    exact ⟨rfl, fun type ht => absurd ht (hn type)⟩
  · rintro type _ ⟨htype, rfl⟩
    refine runs_bind (runs_mono (runs_nested (runs_opened (hb type htype))) (fun _ _ h => h) ?_) ?_
    · rintro e _ ⟨⟨inner, hf⟩, rfl⟩
      refine ⟨rfl, fun type' ht' ho => ?_⟩
      obtain rfl := Offers.unique htype.1 ht'.1
      exact .inl ⟨e, inner, hf.resolve_left (fun h => h ho)⟩
    · rintro inner _ ⟨⟨ho, hi⟩, rfl⟩
      refine runs_mono (runs_pushMade field _ inner htype) ?_ ?_
      · rintro _ _ ⟨ht, rfl⟩
        exact ⟨type, inner, ht, ho, hi, rfl⟩
      · rintro e _ ⟨hn, rfl⟩
        refine ⟨rfl, fun type' ht' _ => ?_⟩
        obtain rfl := Offers.unique htype.1 ht'.1
        exact .inr ⟨inner, hi, hn⟩

/-- The selections of a connection around those of its nodes. -/
def connectionSet (scope : Scope) (edges node info : TypeDescriptor) (nodes : List Selection) :
    List Selection :=
  scope.opening ++
    [.composite (.plain "edges") edges.name
      ((scope.within edges).opening ++
        [.leaf (.plain "cursor"), .composite (.plain "node") node.name nodes]),
     .composite (.plain "pageInfo") info.name
      ((scope.within info).opening ++
        [.leaf (.plain "hasNextPage"), .leaf (.plain "hasPreviousPage")])]

/-- The type of the scope has all that `connectionSet` selects on it. -/
structure Connects (scope : Scope) (edges node info : TypeDescriptor) : Prop where
  opens : scope.Opens
  offersEdges : scope.OffersObject "edges" [] edges
  edgesOpens : (scope.within edges).Opens
  offersCursor : (scope.within edges).OffersLeaf "cursor" []
  offersNode : (scope.within edges).OffersObject "node" [] node
  nodeOpens : (scope.within node).Opens
  offersInfo : scope.OffersObject "pageInfo" [] info
  infoOpens : (scope.within info).Opens
  offersNext : (scope.within info).OffersLeaf "hasNextPage" []
  offersPrevious : (scope.within info).OffersLeaf "hasPreviousPage" []

theorem settled_first {key : String} {first : Selection} (hi : key ≠ "id")
    (ht : key ≠ typenameField) :
    Selection.settled scope.opening key first = scope.opening ++ [first] := by
  simp [Selection.settled, find?_opening hi ht]

theorem find?_second {key : String} {first : Selection} (hi : key ≠ "id") (ht : key ≠ typenameField)
    (hf : first.answers key = false) :
    (scope.opening ++ [first]).find? (Selection.answers key) = none := by
  simp [List.find?_append, find?_opening hi ht, hf]

theorem settled_second {key : String} {first second : Selection} (hi : key ≠ "id")
    (ht : key ≠ typenameField) (hf : first.answers key = false) :
    Selection.settled (scope.opening ++ [first]) key second = scope.opening ++ [first, second] := by
  simp [Selection.settled, find?_second hi ht hf]

/-- The fields of the edges, with the selections that `body` makes on the nodes. -/
theorem runs_addEdge {body : Scope → Building Unit} {B : TypeDescriptor → List Selection → Prop}
    (hb : ∀ node, scope.OffersObject "node" [] node → (scope.within node).Opens →
      Runs (scope.within node).opening (body (scope.within node)) (fun _ nodes => B node nodes)
        (fun _ _ => True)) :
    Runs scope.opening (scope.addEdge body)
      (fun _ s => ∃ node nodes, scope.OffersLeaf "cursor" [] ∧ scope.OffersObject "node" [] node ∧
        (scope.within node).Opens ∧ nodes ≠ [] ∧ B node nodes ∧
        s = scope.opening ++
          [.leaf (.plain "cursor"), .composite (.plain "node") node.name nodes])
      (fun _ _ => True) := by
  refine runs_bind (runs_mono (runs_addField "cursor" .none) (fun _ _ h => h)
    (fun _ _ _ => trivial)) ?_
  rintro _ _ ⟨hc, rfl⟩
  refine runs_mono (runs_addObject fun node hn ho => hb node hn ho) ?_ (fun _ _ _ => trivial)
  rintro _ _ ⟨node, nodes, ht, ho, hB, rfl⟩
  refine ⟨node, nodes, hc.1, ht.1, ho, ht.2.1, hB, ?_⟩
  change Selection.settled (Selection.settled scope.opening "cursor" _) "node" _ = _
  rw [settled_first (by decide) (by decide), settled_second (by decide) (by decide) rfl]
  rfl

theorem runs_addPageInfo :
    Runs scope.opening scope.addPageInfo
      (fun _ s => scope.OffersLeaf "hasNextPage" [] ∧ scope.OffersLeaf "hasPreviousPage" [] ∧
        s = scope.opening ++ [.leaf (.plain "hasNextPage"), .leaf (.plain "hasPreviousPage")])
      (fun _ _ => True) := by
  refine runs_bind (runs_mono (runs_addField "hasNextPage" .none) (fun _ _ h => h)
    (fun _ _ _ => trivial)) ?_
  rintro _ _ ⟨hn, rfl⟩
  refine runs_mono (runs_addField "hasPreviousPage" .none) ?_ (fun _ _ _ => trivial)
  rintro _ _ ⟨hp, rfl⟩
  refine ⟨hn.1, hp.1, ?_⟩
  change Selection.settled (Selection.settled scope.opening "hasNextPage" _) "hasPreviousPage" _ = _
  rw [settled_first (by decide) (by decide), settled_second (by decide) (by decide) rfl]
  rfl

/-- The fields of a connection. -/
theorem runs_addConnected {body : Scope → Building Unit}
    {B : TypeDescriptor → List Selection → Prop}
    (hb : ∀ node, (scope.within node).Opens →
      Runs (scope.within node).opening (body (scope.within node)) (fun _ nodes => B node nodes)
        (fun _ _ => True)) (ho : scope.Opens) :
    Runs scope.opening (scope.addConnected body)
      (fun _ s => ∃ edges node info nodes, scope.Connects edges node info ∧ nodes ≠ [] ∧
        B node nodes ∧ s = scope.connectionSet edges node info nodes)
      (fun _ _ => True) := by
  refine runs_bind (runs_mono (runs_addObject fun edges _ _ => runs_addEdge fun node _ => hb node)
    (fun _ _ h => h) (fun _ _ _ => trivial)) ?_
  rintro _ _ ⟨edges, _, he, heo, ⟨node, nodes, hc, hn, hno, hne, hB, rfl⟩, rfl⟩
  refine runs_mono (runs_addObject fun info _ _ => runs_addPageInfo) ?_ (fun _ _ _ => trivial)
  rintro _ _ ⟨info, _, hi, hio, ⟨hnext, hprevious, rfl⟩, rfl⟩
  refine ⟨edges, node, info, nodes,
    ⟨ho, he.1, heo, hc, hn, hno, hi.1, hio, hnext, hprevious⟩, hne, hB, ?_⟩
  change Selection.settled (Selection.settled scope.opening "edges" _) "pageInfo" _ = _
  rw [settled_first (by decide) (by decide), settled_second (by decide) (by decide) rfl]
  rfl

theorem runs_addConnection {name : String} {options : FieldOptions} {body : Scope → Building Unit}
    {B : TypeDescriptor → List Selection → Prop}
    (hb : ∀ node, (scope.within node).Opens →
      Runs (scope.within node).opening (body (scope.within node)) (fun _ nodes => B node nodes)
        (fun _ _ => True)) :
    let field := Field.ofOptions name options true
    Runs before (scope.addConnection name options body)
      (fun _ s => ∃ type edges node info nodes, (scope.within type).Connects edges node info ∧
        nodes ≠ [] ∧ B node nodes ∧
        scope.Takes before field type ((scope.within type).connectionSet edges node info nodes) ∧
        s = Selection.settled before field.responseKey
          (.composite field type.name ((scope.within type).connectionSet edges node info nodes)))
      (fun _ s => s = before) := by
  intro field
  refine runs_bind (runs_mono (runs_compositeType name options) (fun _ _ h => h)
    (fun _ _ h => h.2)) ?_
  rintro type now ⟨htype, rfl⟩
  by_cases hc : ((type.field? "edges").isNone || (type.field? "pageInfo").isNone) = true
  · simp only [hc, if_true]
    exact runs_throw rfl
  · simp only [hc]
    refine runs_bind (runs_mono (runs_nested (runs_opened (runs_addConnected hb)))
      (fun _ _ h => h) (fun _ _ h => h.2)) ?_
    rintro _ _ ⟨⟨-, edges, node, info, nodes, hconnects, hne, hB, rfl⟩, rfl⟩
    refine runs_mono (runs_pushField field _) ?_ (fun _ _ h => h.2)
    rintro _ _ ⟨hf, rfl⟩
    exact ⟨type, edges, node, info, nodes, hconnects, hne, hB,
      ⟨htype, by simp [connectionSet], hf⟩, rfl⟩

theorem runs_pushInlineFragment (target : TypeDescriptor) (inner : List Selection) :
    Runs before (pushInlineFragment target inner)
      (fun _ s => inner ≠ [] ∧ s = before ++ [.inlineFragment target.name target.name inner])
      (fun _ s => ¬ inner ≠ [] ∧ s = before) := by
  unfold pushInlineFragment
  by_cases hi : inner = []
  · simp only [hi, List.isEmpty_nil, if_true]
    exact runs_throw ⟨fun h => h rfl, rfl⟩
  · simp only [List.isEmpty_iff, hi, if_false]
    exact runs_mono (runs_push _) (fun _ _ h => ⟨hi, h⟩) (fun _ _ h => h)

/-- A fragment whose selections are made by `body`. -/
theorem runs_fragment {condition : String} {body : Scope → Building Unit}
    {B : TypeDescriptor → List Selection → Prop}
    {F : TypeDescriptor → BuildError → List Selection → Prop}
    (hb : ∀ target, scope.Admits condition target →
      Runs [] (body (scope.within target)) (fun _ inner => B target inner) (F target)) :
    Runs before (scope.addFragmentOn condition body)
      (fun _ s => ∃ target inner, scope.Admits condition target ∧ B target inner ∧ inner ≠ [] ∧
        s = before ++ [.inlineFragment target.name target.name inner])
      (fun _ s => s = before ∧ ∀ target, scope.Admits condition target →
        (∃ e inner, F target e inner) ∨ ∃ inner, B target inner ∧ inner = []) := by
  refine runs_bind (runs_mono (runs_fragmentTarget condition) (fun _ _ h => h) ?_) ?_
  · rintro e _ ⟨hn, rfl⟩
    exact ⟨rfl, fun target ht => absurd ht (hn target)⟩
  · rintro target _ ⟨ht, rfl⟩
    have hchild : Runs [] (do visit target.name; body (scope.within target))
        (fun _ inner => B target inner) (F target) := by
      refine runs_bind (runs_visit _) ?_
      rintro _ _ rfl
      exact hb target ht
    refine runs_bind (runs_mono (runs_nested hchild) (fun _ _ h => h) ?_) ?_
    · rintro e _ ⟨⟨inner, hf⟩, rfl⟩
      refine ⟨rfl, fun target' ht' => ?_⟩
      obtain rfl := Admits.unique ht ht'
      exact .inl ⟨e, inner, hf⟩
    · rintro inner _ ⟨hi, rfl⟩
      refine runs_mono (runs_pushInlineFragment target inner) ?_ ?_
      · rintro _ _ ⟨hne, rfl⟩
        exact ⟨target, inner, ht, hi, hne, rfl⟩
      · rintro e _ ⟨hne, rfl⟩
        refine ⟨rfl, fun target' ht' => ?_⟩
        obtain rfl := Admits.unique ht ht'
        exact .inr ⟨inner, hi, by simpa using hne⟩

/-- The selections with a spread that is not there yet. -/
def spreadBeside (before : List Selection) (fragment : Fragment) : List Selection :=
  if before.any (spreads fragment.name) then before else before ++ [Selection.ofFragment fragment]

theorem runs_addSpread (fragment : Fragment) :
    Runs before (scope.addSpread fragment)
      (fun _ s => (∃ target, scope.Admits fragment.condition target) ∧ s = spreadBeside before fragment)
      (fun _ s => (∀ target, ¬ scope.Admits fragment.condition target) ∧ s = before) := by
  refine runs_bind (runs_fragmentTarget _) ?_
  rintro target _ ⟨ht, rfl⟩
  refine runs_bind (runs_visit _) ?_
  rintro _ _ rfl
  refine runs_bind runs_selections ?_
  rintro _ s ⟨rfl, rfl⟩
  by_cases hs : s.any (spreads fragment.name) = true
  · simp only [hs, if_true]
    exact runs_pure ⟨⟨target, ht⟩, by simp [spreadBeside, hs]⟩
  · simp only [hs]
    refine runs_mono (runs_push _) ?_ (fun _ _ h => h)
    rintro _ _ rfl
    exact ⟨⟨target, ht⟩, by simp [spreadBeside, hs]⟩

end Scope

end GraphQLClient
