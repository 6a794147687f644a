import GraphQLClient.Proofs.Decoding.Starts
import GraphQLClient.Proofs.Building.Validity

set_option autoImplicit false

/-!
# Fragments that can apply

In a set a fragment is accepted if its type overlaps the type of the set, and on an object it applies
if its type can be that of the object. On a bundle without issues the two agree: the fragments that
are refused are those that no response can ever make apply.
-/

namespace GraphQLClient

/-- The type that a fragment, spread or not, is on. -/
def Selection.condition? : Selection → Option String
  | .inlineFragment condition _ _ => some condition
  | .spread _ _ condition _ _ => some condition
  | _ => none

variable {bundle : Bundle} {type target object : TypeDescriptor} {condition : String}

/-- Only objects that the type of the fragment can be are of its type. -/
theorem Collected.applies_iff (h : bundle.get? target.name = some target) :
    applies bundle target.name object = true ↔ target.canBe object.name = true := by
  rw [applies, h, Option.any_some, Bool.or_eq_true, beq_iff_eq]
  exact or_iff_right_of_imp fun hname => TypeDescriptor.canBe_iff.2 (.inl hname)

theorem Collected.add_of_applies_eq_false {origin : Origin} {found : List Collected}
    {fragment : Selection} (hf : fragment.condition? = some condition)
    (h : applies bundle condition object = false) :
    add bundle object origin found fragment = found := by
  cases fragment with
  | inlineFragment | spread =>
    obtain rfl := Option.some.inj hf
    rw [add, h]
    rfl
  | _ => cases hf

theorem Selection.fieldsOn_of_applies_eq_false {fragment : Selection}
    (hf : fragment.condition? = some condition)
    (h : Collected.applies bundle condition object = false) :
    fragment.fieldsOn bundle object = [] := by
  cases fragment with
  | inlineFragment | spread =>
    obtain rfl := Option.some.inj hf
    rw [fieldsOn, h]
    rfl
  | _ => cases hf

namespace Decoder

variable {decoder : Decoder}

/-- Whatever stands beside it, a fragment on the type called `condition` adds nothing to what is
collected for an object that stands where `type` is declared. -/
def Ignores (decoder : Decoder) (type : TypeDescriptor) (condition : String) : Prop :=
  ∀ entries origin found fragment, fragment.condition? = some condition →
    Collected.add decoder.bundle (decoder.concreteType type entries) origin found fragment = found

/-- Some object that stands where `type` is declared is given a value by the fragment alone. -/
def Shows (decoder : Decoder) (type : TypeDescriptor) (fragment : Selection) : Prop :=
  ∃ origin mark position entries key,
    ((decoder.object type [⟨origin, ⟨type.name, [fragment]⟩⟩] mark position entries).get? key).isSome =
      true

theorem ignores_iff : decoder.Ignores type condition ↔
    ∀ entries, Collected.applies decoder.bundle condition (decoder.concreteType type entries) = false := by
  constructor
  · refine fun h entries => Bool.eq_false_iff.2 fun happlies => ?_
    have hadd := h entries default [] (.inlineFragment condition condition [.leaf default]) rfl
    simp [Collected.add, Collected.addAll, Collected.merge, happlies] at hadd
  · exact fun h entries origin found fragment hf => Collected.add_of_applies_eq_false hf (h entries)

theorem exists_applies_of_shows {fragment : Selection} (hf : fragment.condition? = some condition)
    (h : decoder.Shows type fragment) :
    ∃ entries, Collected.applies decoder.bundle condition (decoder.concreteType type entries) = true := by
  obtain ⟨origin, mark, position, entries, key, h⟩ := h
  refine ⟨entries, ?_⟩
  cases happlies : Collected.applies decoder.bundle condition (decoder.concreteType type entries) with
  | true => rfl
  | false =>
    have hnone := Selection.fieldsOn_of_applies_eq_false hf happlies
    obtain ⟨-, field, hfield, -⟩ := (isSome_get?_object _ _ _ _ _ _).1 h
    simp [Part.merged, Selection.fieldsOnAll, hnone] at hfield

/-- Where a fragment applies to one object, it shows a field in another that names the same type. -/
theorem shows_of_applies (htype : decoder.bundle.get? type.name = some type)
    {entries : List (String × Json)}
    (h : Collected.applies decoder.bundle condition (decoder.concreteType type entries) = true)
    (field : Field) : decoder.Shows type (.inlineFragment condition condition [.leaf field]) := by
  refine ⟨default, none, .root,
    [(typenameField, .str (decoder.concreteType type entries).name), (field.responseKey, .null)],
    field.responseKey, ?_⟩
  have hsame : decoder.concreteType type
      [(typenameField, .str (decoder.concreteType type entries).name), (field.responseKey, .null)] =
        decoder.concreteType type entries :=
    concreteType_of_canBe htype (get?_concreteType htype) (canBe_concreteType type entries) rfl
  rw [isSome_get?_object, hsame]
  refine ⟨?_, .leaf field, ?_, ?_⟩
  · simp only [Keyed.contains, Keyed.find?]
    split <;> simp
  · simp [Part.merged, Selection.fieldsOnAll, Selection.fieldsOn, h]
  · simp [Selection.answers, Selection.field?]

theorem exists_shows_iff (htype : decoder.bundle.get? type.name = some type) :
    (∃ fragment, fragment.condition? = some condition ∧ decoder.Shows type fragment) ↔
      ∃ entries,
        Collected.applies decoder.bundle condition (decoder.concreteType type entries) = true := by
  constructor
  · rintro ⟨fragment, hf, hshows⟩
    exact exists_applies_of_shows hf hshows
  · rintro ⟨entries, happlies⟩
    exact ⟨_, rfl, shows_of_applies htype happlies default⟩

end Decoder

/-- Two types overlap if fragments on the second apply to objects that the first can be. -/
theorem Bundle.Complete.overlaps_iff_applies (hc : bundle.Complete)
    (htype : bundle.get? type.name = some type) (htarget : bundle.get? target.name = some target)
    (hcomposite : type.isComposite = true) (hcomposite' : target.isComposite = true) :
    type.overlaps target = true ↔
      ∃ object, bundle.get? object.name = some object ∧ object.kind = .object ∧
        type.canBe object.name = true ∧ Collected.applies bundle target.name object = true := by
  rw [hc.overlaps_iff htype htarget hcomposite hcomposite']
  constructor
  · rintro ⟨possible, ⟨object, hobject, hkind⟩, hcan, hcan'⟩
    rw [← get?_name hobject] at hcan hcan'
    exact ⟨object, get?_self hobject, hkind, hcan, (Collected.applies_iff htarget).2 hcan'⟩
  · rintro ⟨object, hobject, hkind, hcan, happlies⟩
    exact ⟨object.name, ⟨object, hobject, hkind⟩, hcan, (Collected.applies_iff htarget).1 happlies⟩

namespace Decoder

variable (decoder : Decoder) (hc : decoder.bundle.Complete)
  (htype : decoder.bundle.get? type.name = some type)
  (htarget : decoder.bundle.get? target.name = some target)
  (hcomposite : type.isComposite = true) (hcomposite' : target.isComposite = true)

include hc htype htarget hcomposite hcomposite'

/-- Two types overlap if fragments on the second apply to objects that stand where the first is
declared. -/
theorem overlaps_iff_applies : type.overlaps target = true ↔ ∃ entries,
    Collected.applies decoder.bundle target.name (decoder.concreteType type entries) = true := by
  constructor
  · rw [hc.overlaps_iff_applies htype htarget hcomposite hcomposite']
    rintro ⟨object, hobject, -, hcan, happlies⟩
    refine ⟨[(typenameField, .str object.name)], ?_⟩
    rwa [concreteType_of_canBe htype hobject hcan rfl]
  · rintro ⟨entries, happlies⟩
    exact TypeDescriptor.overlaps_of_canBe (canBe_concreteType type entries)
      ((Collected.applies_iff htarget).1 happlies)

theorem ignores_iff_not_overlaps :
    decoder.Ignores type target.name ↔ type.overlaps target = false := by
  rw [ignores_iff, ← Bool.not_eq_true,
    decoder.overlaps_iff_applies hc htype htarget hcomposite hcomposite', not_exists]
  simp only [Bool.not_eq_true]

theorem not_shows_iff_not_overlaps :
    (∀ fragment, fragment.condition? = some target.name → ¬decoder.Shows type fragment) ↔
      type.overlaps target = false := by
  rw [← Bool.not_eq_true, decoder.overlaps_iff_applies hc htype htarget hcomposite hcomposite',
    ← exists_shows_iff htype]
  simp only [not_exists, not_and]

end Decoder

namespace Scope

variable {scope : Scope} {draft : Draft}

theorem run_fragmentTarget (scope : Scope) (condition : String) (draft : Draft) :
    (scope.fragmentTarget condition).run draft = (scope.admitted condition, draft) := by
  rw [fragmentTarget_eq]
  rfl

theorem run_fragmentTarget_eq_ok_iff (htarget : scope.bundle.get? target.name = some target)
    (hcomposite : target.isComposite = true) :
    (scope.fragmentTarget target.name).run draft = (.ok target, draft) ↔
      scope.type.overlaps target = true := by
  rw [run_fragmentTarget, Prod.mk.injEq, and_iff_left rfl, admitted_eq_ok_iff]
  exact ⟨fun h => h.2.2, fun h => ⟨htarget, hcomposite, h⟩⟩

theorem run_fragmentTarget_eq_error_iff (htarget : scope.bundle.get? target.name = some target)
    (hcomposite : target.isComposite = true) :
    (scope.fragmentTarget target.name).run draft =
        (.error (.invalidFragmentType scope.type.name target.name), draft) ↔
      scope.type.overlaps target = false := by
  rw [run_fragmentTarget, Prod.mk.injEq, and_iff_left rfl, admitted, htarget]
  simp [hcomposite]

/-- On a bundle without issues a fragment on `target` is accepted where `type` is selected on if and
only if it applies to objects of an object type that `type` can be, and so the other way round. It is
refused if and only if the decoder ignores such fragments in every response, that is, if none can
ever show a value. -/
theorem fragmentTarget_iff (hissues : bundle.issues = [])
    (htype : bundle.get? type.name = some type) (htarget : bundle.get? target.name = some target)
    (hcomposite : type.isComposite = true) (hcomposite' : target.isComposite = true)
    (declarations : List VariableDefinition) (draft : Draft) :
    (((⟨bundle, declarations, type⟩ : Scope).fragmentTarget target.name).run draft =
        (.ok target, draft) ↔
      ∃ object, bundle.get? object.name = some object ∧ object.kind = .object ∧
        type.canBe object.name = true ∧ Collected.applies bundle target.name object = true) ∧
    (((⟨bundle, declarations, type⟩ : Scope).fragmentTarget target.name).run draft =
        (.ok target, draft) ↔
      ((⟨bundle, declarations, target⟩ : Scope).fragmentTarget type.name).run draft =
        (.ok type, draft)) ∧
    (((⟨bundle, declarations, type⟩ : Scope).fragmentTarget target.name).run draft =
        (.error (.invalidFragmentType type.name target.name), draft) ↔
      ∀ decoder : Decoder, decoder.bundle = bundle → decoder.Ignores type target.name) ∧
    (((⟨bundle, declarations, type⟩ : Scope).fragmentTarget target.name).run draft =
        (.error (.invalidFragmentType type.name target.name), draft) ↔
      ∀ (decoder : Decoder) fragment, decoder.bundle = bundle →
        fragment.condition? = some target.name → ¬decoder.Shows type fragment) := by
  have hcomplete := Bundle.issues_eq_nil_iff.1 hissues
  have hsymm : type.overlaps target = true ↔ target.overlaps type = true := by
    rw [hcomplete.overlaps_iff htype htarget hcomposite hcomposite',
      hcomplete.overlaps_iff htarget htype hcomposite' hcomposite]
    exact exists_congr fun possible => and_congr_right fun _ => and_comm
  rw [run_fragmentTarget_eq_ok_iff htarget hcomposite', run_fragmentTarget_eq_ok_iff htype hcomposite,
    run_fragmentTarget_eq_error_iff htarget hcomposite']
  -- for the converses any decoder of the bundle will do
  let any : Decoder := ⟨⟨bundle, default, []⟩, none⟩
  refine ⟨hcomplete.overlaps_iff_applies htype htarget hcomposite hcomposite', hsymm, ?_, ?_⟩
  · constructor
    · rintro hnot decoder rfl
      exact (decoder.ignores_iff_not_overlaps hcomplete htype htarget hcomposite hcomposite').2 hnot
    · intro hignores
      exact (any.ignores_iff_not_overlaps hcomplete htype htarget hcomposite hcomposite').1
        (hignores any rfl)
  · constructor
    · rintro hnot decoder fragment rfl
      exact (decoder.not_shows_iff_not_overlaps hcomplete htype htarget hcomposite hcomposite').2 hnot
        fragment
    · intro hshows
      exact (any.not_shows_iff_not_overlaps hcomplete htype htarget hcomposite hcomposite').1
        fun fragment => hshows any fragment rfl

/-- Fragments on an object type in a set on its interface, and the other way round. -/
theorem product_in_node :
    let node := (sampleBundle.get? "Node").getD default
    let product := (sampleBundle.get? "Product").getD default
    (sampleBundle.issues = [] ∧ sampleBundle.get? node.name = some node ∧
      sampleBundle.get? product.name = some product ∧ node.isComposite = true ∧
      product.isComposite = true) ∧
    ((⟨sampleBundle, [], node⟩ : Scope).fragmentTarget product.name).run .empty =
      (.ok product, .empty) ∧
    ((⟨sampleBundle, [], product⟩ : Scope).fragmentTarget node.name).run .empty =
      (.ok node, .empty) := by
  intro node product
  have hnode : sampleBundle.get? node.name = some node := rfl
  have hproduct : sampleBundle.get? product.name = some product := rfl
  have hagree := fragmentTarget_iff sampleBundle_issues hnode hproduct rfl rfl [] .empty
  have haccepted := hagree.1.2 ⟨product, rfl, rfl, by decide +kernel, by decide +kernel⟩
  exact ⟨⟨sampleBundle_issues, hnode, hproduct, rfl, rfl⟩, haccepted, hagree.2.1.1 haccepted⟩

end Scope

end GraphQLClient
