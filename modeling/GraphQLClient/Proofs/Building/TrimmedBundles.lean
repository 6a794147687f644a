import GraphQLClient.Building.Tracker
import GraphQLClient.Proofs.Building.Parallels
import GraphQLClient.Proofs.Building.Tracking

set_option autoImplicit false

/-!
# Building over a trimmed bundle

A bundle that is trimmed to the types that a build visited serves the same build again, but for the
types of variables, which are looked up and not visited. `Mimics keep m m'` relates two runs over a
bundle and a smaller one: where all that the first visits is kept, the second does the same. It may
give other errors, so that runs are compared up to their errors.
-/

namespace GraphQLClient

namespace Bundle

/-- The names that a bundle keeps: those of its root types, the built-in scalars and `names`. -/
def retained (bundle : Bundle) (names : List String) (name : String) : Bool :=
  bundle.queryRoot.name == name || bundle.mutationRoot.any (·.name == name) ||
    builtinScalars.contains name || names.contains name

def trimmed (bundle : Bundle) (names : List String) : Bundle :=
  { bundle with types := bundle.types.filter fun type => bundle.retained names type.name }

variable {bundle : Bundle} {names : List String}

theorem get?_trimmed (name : String) :
    (bundle.trimmed names).get? name = if bundle.retained names name then bundle.get? name else none := by
  unfold get? trimmed
  rw [List.find?_filter]
  split_ifs with hr
  · congr 1
    funext type
    by_cases hn : type.name = name <;> simp [hn, hr]
  · rw [List.find?_eq_none]
    intro type _
    by_cases hn : type.name = name <;> simp [hn, hr]

/-- A bundle with the same roots has just some of the types, and among them those to be kept. -/
structure Retains (keep : String → Prop) (bundle small : Bundle) : Prop where
  kept : ∀ name, keep name → small.get? name = bundle.get? name
  only : ∀ name type, small.get? name = some type → bundle.get? name = some type
  queryRoot : small.queryRoot = bundle.queryRoot
  mutationRoot : small.mutationRoot = bundle.mutationRoot

theorem retains_trimmed (bundle : Bundle) (names : List String) :
    Retains (· ∈ names) bundle (bundle.trimmed names) := by
  refine ⟨fun name hn => ?_, fun name type h => ?_, rfl, rfl⟩
  · have hr : bundle.retained names name = true := by simp [retained, hn]
    rw [get?_trimmed, if_pos hr]
  · rw [get?_trimmed] at h
    split_ifs at h
    exact h

end Bundle

namespace Building

variable {α β : Type} {keep : String → Prop}

/-- Where all visits are kept, the second run ends as the first does, up to the error, with the same
selections and visits. -/
def Mimics (keep : String → Prop) (m m' : Building α) : Prop :=
  ∀ draft draft' : Draft, draft'.selections = draft.selections → draft'.visits = draft.visits →
    (∀ name ∈ (m.run draft).2.visits, keep name) →
      (m'.run draft').1.toOption = (m.run draft).1.toOption ∧
        (m'.run draft').2.selections = (m.run draft).2.selections ∧
        (m'.run draft').2.visits = (m.run draft).2.visits

variable {m m' : Building α} {f f' : α → Building β} {body body' : Building Unit}

theorem mimics_pure (a : α) : Mimics keep (pure a) (pure a) := fun _ _ hs hv _ => ⟨rfl, hs, hv⟩

theorem mimics_throw (e : BuildError) : Mimics keep (throw e : Building α) (throw e) :=
  fun _ _ hs hv _ => ⟨rfl, hs, hv⟩

theorem mimics_visit (typeName : String) : Mimics keep (visit typeName) (visit typeName) :=
  fun _ _ hs hv _ => ⟨rfl, hs, congrArg (· ++ [typeName]) hv⟩

theorem mimics_note (entry : JournalEntry) : Mimics keep (note entry) (note entry) :=
  fun _ _ hs hv _ => ⟨rfl, hs, hv⟩

theorem mimics_selections : Mimics keep selections selections :=
  fun _ _ hs hv _ => ⟨congrArg some hs, hs, hv⟩

theorem mimics_push (selection : Selection) : Mimics keep (push selection) (push selection) :=
  fun _ _ hs hv _ => ⟨rfl, congrArg (· ++ [selection]) hs, hv⟩

/-- The two ends of runs of which one mimics the other. -/
theorem mimics_cases (h : Mimics keep m m') {draft draft' : Draft}
    (hs : draft'.selections = draft.selections) (hv : draft'.visits = draft.visits)
    (hkept : ∀ name ∈ (m.run draft).2.visits, keep name) :
    (∃ e e' after after', m.run draft = (.error e, after) ∧ m'.run draft' = (.error e', after') ∧
      after'.selections = after.selections ∧ after'.visits = after.visits) ∨
    ∃ a after after', m.run draft = (.ok a, after) ∧ m'.run draft' = (.ok a, after') ∧
      after'.selections = after.selections ∧ after'.visits = after.visits := by
  obtain ⟨hresult, hsel, hvis⟩ := h draft draft' hs hv hkept
  rcases hr : m.run draft with ⟨e | a, after⟩ <;>
    rcases hr' : m'.run draft' with ⟨e' | a', after'⟩ <;>
    rw [hr, hr'] at hresult hsel hvis
  · exact .inl ⟨e, e', after, after', rfl, rfl, hsel, hvis⟩
  · cases hresult
  · cases hresult
  · obtain rfl := Option.some.inj hresult
    exact .inr ⟨a', after, after', rfl, rfl, hsel, hvis⟩

/-- The second part takes back no visit of the first. -/
theorem mimics_bind (h : Mimics keep m m') (hk : ∀ a, Keeps (f a)) (hf : ∀ a, Mimics keep (f a) (f' a)) :
    Mimics keep (m >>= f) (m' >>= f') := by
  intro draft draft' hs hv hkept
  have hmid : ∀ name ∈ (m.run draft).2.visits, keep name :=
    fun name hn => hkept name ((visits_bind m hk draft).subset hn)
  rw [run_bind] at hkept ⊢
  rw [run_bind]
  rcases mimics_cases h hs hv hmid with
    ⟨e, e', after, after', hr, hr', hsel, hvis⟩ | ⟨a, after, after', hr, hr', hsel, hvis⟩
  · rw [hr, hr']
    exact ⟨rfl, hsel, hvis⟩
  · rw [hr] at hkept ⊢
    rw [hr']
    exact hf a after after' hsel hvis hkept

/-- A check over the smaller bundle finds what is going to be visited, and it finds nothing else. -/
theorem mimics_checked {result result' : Except BuildError α}
    (hok : ∀ a, result = .ok a → (∀ draft, (∀ name ∈ ((f a).run draft).2.visits, keep name) →
      result' = .ok a))
    (hresult : ∀ a, result' = .ok a → result = .ok a) (hf : ∀ a, Mimics keep (f a) (f' a)) :
    Mimics keep (checked result >>= f) (checked result' >>= f') := by
  intro draft draft' hs hv hkept
  rw [run_bind] at hkept ⊢
  rw [run_bind]
  change ∀ name ∈ (match (result, draft) with
    | (.ok a, after) => (f a).run after
    | (.error e, after) => (.error e, after)).2.visits, keep name at hkept
  cases hr : result with
  | error e =>
    cases hr' : result' with
    | error e' => exact ⟨rfl, hs, hv⟩
    | ok a =>
      rw [hresult a hr'] at hr
      cases hr
  | ok a =>
    rw [hr] at hkept
    rw [hok a hr draft hkept]
    exact hf a draft draft' hs hv hkept

theorem mimics_nested (h : Mimics keep body body') : Mimics keep (nested body) (nested body') := by
  intro draft draft' hs hv hkept
  have hrun : ∀ (body : Building Unit) (draft : Draft), (nested body).run draft =
      ((body.run { draft with selections := [] }).1.map fun _ =>
        (body.run { draft with selections := [] }).2.selections,
        { (body.run { draft with selections := [] }).2 with selections := draft.selections }) :=
    fun _ _ => rfl
  have hinner : ({ draft' with selections := [] } : Draft).selections =
    ({ draft with selections := [] } : Draft).selections := rfl
  rw [hrun, hrun]
  rcases mimics_cases h hinner hv hkept with
    ⟨e, e', after, after', hr, hr', -, hvis⟩ | ⟨a, after, after', hr, hr', hsel, hvis⟩
  · rw [hr, hr']
    exact ⟨rfl, hs, hvis⟩
  · rw [hr, hr']
    exact ⟨congrArg some hsel, hs, hvis⟩

theorem visits_journaled (kind : StepKind) (typeName : String) (body : Building Unit)
    (draft : Draft) :
    ((journaled kind typeName body).run draft).2.visits = (body.run draft).2.visits := by
  rw [run_journaled]
  rcases body.run draft with ⟨e | _, after⟩ <;> rfl

theorem mimics_journaled {kind : StepKind} {typeName : String} (h : Mimics keep body body') :
    Mimics keep (journaled kind typeName body) (journaled kind typeName body') := by
  intro draft draft' hs hv hkept
  rw [visits_journaled] at hkept
  rw [run_journaled, run_journaled]
  rcases mimics_cases h hs hv hkept with
    ⟨e, e', after, after', hr, hr', hsel, hvis⟩ | ⟨_, after, after', hr, hr', hsel, hvis⟩
  · rw [hr, hr']
    exact ⟨rfl, hsel, hvis⟩
  · rw [hr, hr']
    exact ⟨rfl, hsel, hvis⟩

/-- Errors that are passed over may differ. -/
theorem mimics_attempted (h : Mimics keep body body') :
    Mimics keep (do let _ ← caught body) (do let _ ← caught body') := by
  intro draft draft' hs hv hkept
  have hvisits : ((do let _ ← caught body : Building Unit).run draft).2.visits =
      (body.run draft).2.visits := by
    rw [run_bind, run_caught]
    rcases body.run draft with ⟨e | _, after⟩ <;> rfl
  rw [hvisits] at hkept
  rw [run_bind, run_bind, run_caught, run_caught]
  rcases mimics_cases h hs hv hkept with
    ⟨e, e', after, after', hr, hr', hsel, hvis⟩ | ⟨_, after, after', hr, hr', hsel, hvis⟩
  · rw [hr, hr']
    exact ⟨rfl, hsel, hvis⟩
  · rw [hr, hr']
    exact ⟨rfl, hsel, hvis⟩

end Building

namespace Scope

open Building

/-- The scope on another bundle. -/
def basedOn (scope : Scope) (small : Bundle) : Scope := { scope with bundle := small }

variable {keep : String → Prop} {small : Bundle} {scope : Scope}

theorem offers_of_basedOn (hb : scope.bundle.Retains keep small) {name : String}
    {arguments : List (String × Value)} {type : TypeDescriptor}
    (h : (scope.basedOn small).Offers name arguments type) : scope.Offers name arguments type := by
  obtain ⟨hne, declared, hd, ht, ha⟩ := h
  exact ⟨hne, declared, hd, hb.only _ _ ht, ha⟩

theorem Offers.basedOn (hb : scope.bundle.Retains keep small) {name : String}
    {arguments : List (String × Value)} {type : TypeDescriptor} (hk : keep type.name)
    (h : scope.Offers name arguments type) : (scope.basedOn small).Offers name arguments type := by
  obtain ⟨hne, declared, hd, ht, ha⟩ := h
  exact ⟨hne, declared, hd, (hb.kept _ (Bundle.get?_name ht ▸ hk)).trans ht, ha⟩

theorem mimics_resolve (scope : Scope) (hb : scope.bundle.Retains keep small) (name : String)
    (options : FieldOptions) :
    Mimics keep (scope.resolve name options) ((scope.basedOn small).resolve name options) := by
  refine mimics_checked (fun type ht draft hkept => ?_) (fun type ht => ?_)
    fun type => mimics_bind (mimics_visit _) (fun _ => keeps_pure _) fun _ => mimics_pure _
  · rw [check_eq_ok_iff] at ht ⊢
    cases type with
    | none => exact ht
    | some type =>
      have hvisited : type.name ∈ draft.visits ++ [type.name] := by simp
      exact Offers.basedOn hb (hkept _ hvisited) ht
  · rw [check_eq_ok_iff] at ht ⊢
    cases type with
    | none => exact ht
    | some type => exact offers_of_basedOn hb ht

/-- What follows the search for the type of a fragment visits this type. -/
theorem mimics_targeted {α : Type} (scope : Scope) (hb : scope.bundle.Retains keep small)
    (condition : String) {f f' : TypeDescriptor → Building α}
    (hv : ∀ target draft, target.name ∈ ((f target).run draft).2.visits)
    (hf : ∀ target, Mimics keep (f target) (f' target)) :
    Mimics keep (scope.fragmentTarget condition >>= f)
      ((scope.basedOn small).fragmentTarget condition >>= f') := by
  rw [fragmentTarget_eq, fragmentTarget_eq]
  refine mimics_checked (fun target ht draft hkept => ?_) (fun target ht => ?_) hf
  · have ha := admitted_eq_ok_iff.1 ht
    refine admitted_eq_ok_iff.2 ⟨?_, ha.2⟩
    exact (hb.kept _ (Bundle.get?_name ha.1 ▸ hkept _ (hv target draft))).trans ha.1
  · have ha := admitted_eq_ok_iff.1 ht
    exact admitted_eq_ok_iff.2 ⟨hb.only _ _ ha.1, ha.2⟩

/-- A program does the same over the smaller bundle, as long as that has what the program visits. -/
theorem mimicry (hb : scope.bundle.Retains keep small) :
    Parallel (fun _ m m' => Mimics keep m m' ∧ Keeps m) True scope (scope.basedOn small) where
  value a := ⟨mimics_pure a, keeps_pure a⟩
  error e := ⟨mimics_throw e, keeps_throw e⟩
  visit typeName := ⟨mimics_visit typeName, keeps_visit typeName⟩
  note entry := ⟨mimics_note entry, keeps_note entry⟩
  selections := ⟨mimics_selections, keeps_selections⟩
  push selection := ⟨mimics_push selection, keeps_push selection⟩
  bind h hf := ⟨mimics_bind h.1 (fun a => (hf a).2) fun a => (hf a).1, keeps_bind h.2 fun a => (hf a).2⟩
  nested h := ⟨mimics_nested h.1, keeps_nested h.2⟩
  journaled _ _ h := ⟨mimics_journaled h.1, keeps_journaled h.2⟩
  attempted _ _ _ h :=
    ⟨mimics_attempted h.1, keeps_bind (keeps_caught h.2) fun _ => keeps_pure ()⟩
  resolve type name options :=
    ⟨mimics_resolve (scope.within type) hb name options, keeps_resolve name options⟩
  targeted type condition hv hf :=
    ⟨mimics_targeted (scope.within type) hb condition hv fun target => (hf target).1,
      keeps_bind (keeps_fragmentTarget _) fun target => (hf target).2⟩

end Scope

end GraphQLClient
