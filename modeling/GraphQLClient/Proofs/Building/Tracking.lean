import GraphQLClient.Building.Tracker
import GraphQLClient.Proofs.Building.Documents
import GraphQLClient.Proofs.Building.Revalidation
import GraphQLClient.Proofs.Building.Traces

set_option autoImplicit false

/-!
# The types that an operation touches

The types that a build visits, step by step and in an order of its own, are those that can be read off
the finished operation, as long as no step failed on the way and fragments of one name have one
condition. `touched` reads them off a set; a spread fragment counts with its condition only.
-/

namespace GraphQLClient

/-- The name of the type that a field is declared to return, if there is such a field. -/
def TypeDescriptor.returned (type : TypeDescriptor) (name : String) : List String :=
  if name = typenameField then ["String"]
  else ((type.field? name).map FieldDescriptor.typeName).toList

theorem Selection.ofFragment_ne_leaf (field : Field) (fragment : Fragment) :
    ofFragment fragment ≠ .leaf field := by
  intro h
  cases h

theorem Selection.ofFragment_ne_composite (field : Field) (typeName : String)
    (inner : List Selection) (fragment : Fragment) :
    ofFragment fragment ≠ .composite field typeName inner := by
  intro h
  cases h

theorem Selection.ofFragment_injective : Function.Injective ofFragment := by
  rintro ⟨serial, name, condition, ⟨typeName, inner⟩⟩ ⟨_, _, _, ⟨_, _⟩⟩ h
  cases h
  rfl

namespace Scope

mutual
/-- The types that a selection on the scope touches. -/
def touched (scope : Scope) : Selection → List String
  | .leaf field => scope.type.returned field.name
  | .composite field _ selections =>
    scope.type.returned field.name ++
      match scope.typeOf? field.name with
      | some type => touchedAll (scope.within type) selections
      | none => []
  | .inlineFragment condition _ selections =>
    condition ::
      match scope.bundle.get? condition with
      | some target => touchedAll (scope.within target) selections
      | none => []
  | .spread _ _ condition _ _ => [condition]

def touchedAll (scope : Scope) : List Selection → List String
  | [] => []
  | selection :: rest => touched scope selection ++ touchedAll scope rest
end

variable {scope : Scope} {before after last selections : List Selection} {visits more : List String}

theorem mem_touchedAll {name : String} :
    name ∈ scope.touchedAll selections ↔ ∃ selection ∈ selections, name ∈ scope.touched selection := by
  induction selections with
  | nil => simp [touchedAll]
  | cons selection rest ih => simp [touchedAll, ih]

mutual
/-- Selections that are the same touch the same. -/
theorem touched_eq_of_same {a b : Selection} {scope : Scope} (h : a.same b = true) :
    scope.touched a = scope.touched b := by
  cases a <;> cases b <;> simp only [Selection.same, Bool.and_eq_true, beq_iff_eq, Bool.false_eq_true] at h
  case leaf.leaf field other =>
    simp only [Field.same, Bool.and_eq_true, beq_iff_eq] at h
    simp only [touched, h.1.1.1]
  case composite.composite field type selections other type' others =>
    simp only [Field.same, Bool.and_eq_true, beq_iff_eq] at h
    simp only [touched, h.1.1.1.1.1]
    cases scope.typeOf? other.name with
    | none => rfl
    | some child => exact congrArg _ (touchedAll_eq_of_sameAll h.2)
  case inlineFragment.inlineFragment condition type selections condition' type' others =>
    simp only [touched, h.1.1]
    cases scope.bundle.get? condition' with
    | none => rfl
    | some target => exact congrArg _ (touchedAll_eq_of_sameAll h.2)
  case spread.spread => simp only [touched, h.1.1.2]

theorem touchedAll_eq_of_sameAll {a b : List Selection} {scope : Scope}
    (h : Selection.sameAll a b = true) : scope.touchedAll a = scope.touchedAll b := by
  cases a <;> cases b <;> simp only [Selection.sameAll, Bool.and_eq_true, Bool.false_eq_true] at h
  case nil.nil => rfl
  case cons.cons => rw [touchedAll, touchedAll, touched_eq_of_same h.1, touchedAll_eq_of_sameAll h.2]
end

/-- The fragments that are spread in a set itself. -/
def Spreads (shared : Fragment → Prop) (selections : List Selection) : Prop :=
  ∀ fragment, Selection.ofFragment fragment ∈ selections → shared fragment

/-- From `before` the set has come to `after`, and the visits are the types that this touched. -/
structure Follows (scope : Scope) (shared : Fragment → Prop) (before : List Selection)
    (visits : List String) (after : List Selection) : Prop where
  spreads : Spreads shared after
  names : ∀ name, name ∈ scope.touchedAll after ↔
    name ∈ scope.touchedAll before ∨ name ∈ visits

/-- A set that a builder has begun is at `after`, and the visits are its type and those touched. -/
structure Tells (scope : Scope) (shared : Fragment → Prop) (visits : List String)
    (after : List Selection) : Prop where
  spreads : Spreads shared after
  names : ∀ name, name ∈ visits ↔ name = scope.type.name ∨ name ∈ scope.touchedAll after

variable {shared : Fragment → Prop}

theorem Follows.refl (h : Spreads shared before) : scope.Follows shared before [] before :=
  ⟨h, by simp⟩

theorem Follows.trans (h : scope.Follows shared before visits after)
    (h' : scope.Follows shared after more last) :
    scope.Follows shared before (visits ++ more) last :=
  ⟨h'.spreads, fun name => by rw [h'.names, h.names, List.mem_append, or_assoc]⟩

theorem Tells.follows (h : scope.Tells shared visits after)
    (h' : scope.Follows shared after more last) : scope.Tells shared (visits ++ more) last :=
  ⟨h'.spreads, fun name => by rw [h'.names, List.mem_append, h.names, or_assoc]⟩

theorem follows_snoc {selection : Selection} (h : Spreads shared before)
    (hs : ∀ fragment, Selection.ofFragment fragment = selection → shared fragment)
    (hv : ∀ name, name ∈ visits ↔ name ∈ scope.touched selection) :
    scope.Follows shared before visits (before ++ [selection]) := by
  constructor
  · intro fragment hm
    rcases List.mem_append.1 hm with hm | hm
    · exact h fragment hm
    · exact hs fragment (List.mem_singleton.1 hm)
  · intro name
    simp only [mem_touchedAll, List.mem_append, List.mem_singleton, or_and_right, exists_or,
      exists_eq_left, hv]

/-- A selection that touches what one that stands there touches adds nothing. -/
theorem follows_standing {selection found : Selection} (h : Spreads shared before)
    (hf : found ∈ before) (ht : scope.touched found = scope.touched selection)
    (hv : ∀ name, name ∈ visits ↔ name ∈ scope.touched selection) :
    scope.Follows shared before visits before := by
  refine ⟨h, fun name => ⟨.inl, fun hn => hn.elim id fun hn => ?_⟩⟩
  exact mem_touchedAll.2 ⟨found, hf, ht ▸ (hv name).1 hn⟩

theorem follows_settled {selection : Selection} {key : String} (h : Spreads shared before)
    (hs : ∀ fragment, Selection.ofFragment fragment ≠ selection)
    (hfits : Selection.Fits before key selection)
    (hv : ∀ name, name ∈ visits ↔ name ∈ scope.touched selection) :
    scope.Follows shared before visits (Selection.settled before key selection) := by
  unfold Selection.settled
  cases hf : before.find? (Selection.answers key) with
  | none => exact follows_snoc h (fun fragment he => absurd he (hs fragment)) hv
  | some found =>
    exact follows_standing h (List.mem_of_find?_eq_some hf) (touched_eq_of_same (hfits found hf)) hv

end Scope

namespace Scope

open Building

variable {scope : Scope} {shared : Fragment → Prop} {before : List Selection}

theorem Returns.returned {name : String} {options : FieldOptions} {type : Option TypeDescriptor}
    (h : scope.Returns name options type) :
    scope.type.returned name = [(type.map TypeDescriptor.name).getD "String"] := by
  cases type with
  | none => rw [TypeDescriptor.returned, if_pos h.1, Option.map_none, Option.getD_none]
  | some type =>
    obtain ⟨hne, declared, hd, ht, -⟩ := h
    rw [TypeDescriptor.returned, if_neg hne, hd, Option.map_some, Option.map_some,
      Option.toList_some, Option.getD_some, Bundle.get?_name ht]

theorem OffersObject.returned {name : String} {arguments : List (String × Value)}
    {type : TypeDescriptor} (h : scope.OffersObject name arguments type) :
    scope.type.returned name = [type.name] :=
  have hreturns : scope.Returns name ⟨none, arguments⟩ (some type) := h.1
  hreturns.returned

theorem traces_resolve (name : String) (options : FieldOptions) :
    Traces before (scope.resolve name options)
      (fun _ s v => s = before ∧ v = scope.type.returned name) True := by
  refine traces_bind (traces_checked _) (fun _ => keeps_bind (keeps_visit _) fun _ => keeps_pure _) ?_
  rintro type _ _ ⟨ht, rfl, rfl⟩
  refine traces_bind (traces_visit _) (fun _ => keeps_pure _) ?_
  rintro _ _ _ ⟨rfl, rfl⟩
  refine traces_pure ⟨rfl, ?_⟩
  rw [((check_eq_ok_iff name options type).1 ht).returned]
  cases type <;> rfl

theorem traces_compositeType (name : String) (options : FieldOptions) :
    Traces before (scope.compositeType name options)
      (fun type s v => scope.OffersObject name options.arguments type ∧ s = before ∧
        v = scope.type.returned name) True := by
  have htraces : Traces before (scope.compositeType name options)
      (fun _ s v => s = before ∧ v = scope.type.returned name) True := by
    refine traces_bind (traces_resolve name options) (keeps_composite _ _) ?_
    rintro type _ _ ⟨rfl, rfl⟩
    cases type with
    | none => exact traces_throw _ trivial
    | some type =>
      exact traces_ite (traces_pure ⟨rfl, List.append_nil _⟩) (traces_throw _ trivial)
  exact traces_mono (htraces.with_runs (runs_compositeType name options))
    (fun _ _ _ h => ⟨h.1.1, h.2⟩) id

theorem traces_pushField (field : Field) (selection : Selection) :
    Traces before (scope.pushField field selection)
      (fun _ s v => Selection.Fits before field.responseKey selection ∧
        s = Selection.settled before field.responseKey selection ∧ v = []) True := by
  have htraces : Traces before (scope.pushField field selection) (fun _ _ v => v = []) True := by
    refine traces_bind traces_selections (keeps_placed _ _ _) ?_
    rintro _ s _ ⟨rfl, rfl, rfl⟩
    cases s.find? (Selection.answers field.responseKey) with
    | none => exact traces_mono (traces_push _) (fun _ _ _ h => h.2) id
    | some found => exact traces_ite (traces_pure rfl) (traces_throw _ trivial)
  exact traces_mono (htraces.with_runs (runs_pushField field selection))
    (fun _ _ _ h => ⟨h.1.1, h.1.2, h.2⟩) id

/-- A field whose types were visited is put in its place. -/
theorem traces_settle {field : Field} {selection : Selection} {visits : List String}
    (h : Spreads shared before) (hs : ∀ fragment, Selection.ofFragment fragment ≠ selection)
    (hv : ∀ name, name ∈ visits ↔ name ∈ scope.touched selection) :
    Traces before (scope.pushField field selection)
      (fun _ s v => scope.Follows shared before (visits ++ v) s) True := by
  refine traces_mono (traces_pushField field selection) ?_ id
  rintro _ _ _ ⟨hfits, rfl, rfl⟩
  exact follows_settled h hs hfits (by simpa using hv)

theorem traces_resolvedLeaf (field : Field) (error : TypeDescriptor → BuildError)
    (h : Spreads shared before) :
    Traces before (scope.resolvedLeaf field error)
      (fun _ s v => scope.Follows shared before v s) True := by
  refine traces_bind (traces_resolve _ _) (keeps_pushLeaf field error) ?_
  rintro type current _ ⟨rfl, rfl⟩
  have hpush : Traces current (scope.pushField field (.leaf field))
      (fun _ s v => scope.Follows shared current (scope.type.returned field.name ++ v) s) True :=
    traces_settle h (Selection.ofFragment_ne_leaf field) fun name => by rw [touched]
  cases type with
  | none => exact hpush
  | some type => exact traces_ite (traces_throw _ trivial) hpush

theorem traces_addField (name : String) (options : FieldOptions) (h : Spreads shared before) :
    Traces before (scope.addField name options)
      (fun _ s v => scope.Follows shared before v s) True :=
  traces_resolvedLeaf (Field.ofOptions name options false) _ h

/-- Two ways to select, one after the other. -/
theorem traces_then {m m' : Building Unit} {E : Prop}
    (h : Traces before m (fun _ s v => scope.Follows shared before v s) E) (hk : Keeps m')
    (hm : ∀ between, Spreads shared between →
      Traces between m' (fun _ s v => scope.Follows shared between v s) E) :
    Traces before (do m; m') (fun _ s v => scope.Follows shared before v s) E :=
  traces_bind h (fun _ => hk) fun _ between _ hb =>
    traces_mono (hm between hb.spreads) (fun _ _ _ hs => hb.trans hs) id

theorem traces_start :
    Traces [] scope.start (fun _ s v => scope.Tells shared v s) True := by
  have hname : ∀ before, Spreads shared before → Traces before
      (if scope.type.isAbstract then scope.addField typenameField .none else pure ())
      (fun _ s v => scope.Follows shared before v s) True := by
    intro before hb
    exact traces_ite (traces_addField _ _ hb) (traces_pure (.refl hb))
  refine traces_bind (traces_visit _) (fun _ => keeps_opening) ?_
  rintro _ _ _ ⟨rfl, rfl⟩
  have hnone : Spreads shared [] := fun _ h => absurd h List.not_mem_nil
  have hbegun : scope.Tells shared [scope.type.name] [] := ⟨hnone, by simp [touchedAll]⟩
  refine traces_mono ?_ (fun _ _ _ h => hbegun.follows h) id
  exact traces_ite (traces_then (traces_addField _ _ hnone) keeps_typename hname) (hname [] hnone)

theorem traces_opened (scope : Scope) {body : Building Unit} (hk : Keeps body)
    (hb : ∀ before, Spreads shared before →
      Traces before body (fun _ s v => scope.Follows shared before v s) True) :
    Traces [] (do scope.start; body) (fun _ s v => scope.Tells shared v s) True :=
  traces_bind traces_start (fun _ => hk) fun _ between _ hs =>
    traces_mono (hb between hs.spreads) (fun _ _ _ h => hs.follows h) id

/-- A set without an opening. -/
theorem traces_bare (scope : Scope) {body : Building Unit} (hk : Keeps body)
    (hb : Traces [] body (fun _ s v => scope.Follows shared [] v s) True) :
    Traces [] (do visit scope.type.name; body) (fun _ s v => scope.Tells shared v s) True := by
  refine traces_bind (traces_visit _) (fun _ => hk) ?_
  rintro _ _ _ ⟨rfl, rfl⟩
  have hbegun : scope.Tells shared [scope.type.name] [] :=
    ⟨fun _ h => absurd h List.not_mem_nil, by simp [touchedAll]⟩
  exact traces_mono hb (fun _ _ _ h => hbegun.follows h) id

theorem mem_touched_composite {field : Field} {type : TypeDescriptor} {typeName : String}
    {inner : List Selection} (h : scope.OffersObject field.name field.arguments type) (name : String) :
    name ∈ scope.touched (.composite field typeName inner) ↔
      name = type.name ∨ name ∈ (scope.within type).touchedAll inner := by
  rw [touched, h.returned, h.1.typeOf?, List.mem_append, List.mem_singleton]

/-- A composite field whose set is made is put in its place. -/
theorem traces_pushComposite (field : Field) {type : TypeDescriptor} {inner : List Selection}
    {visits : List String} (ho : scope.OffersObject field.name field.arguments type)
    (hi : (scope.within type).Tells shared visits inner) (h : Spreads shared before) :
    Traces before (scope.pushField field (.composite field type.name inner))
      (fun _ s v => scope.Follows shared before (scope.type.returned field.name ++ (visits ++ v)) s)
      True := by
  have htype : (scope.within type).type.name = type.name := rfl
  have hvisits : ∀ name, name ∈ type.name :: visits ↔
      name ∈ scope.touched (.composite field type.name inner) := by
    intro name
    rw [mem_touched_composite ho, List.mem_cons, hi.names, htype, ← or_assoc, or_self]
  rw [ho.returned]
  exact traces_settle h (Selection.ofFragment_ne_composite _ _ _) hvisits

theorem traces_composed (field : Field) {made : TypeDescriptor → Building Unit}
    {error : TypeDescriptor → BuildError} (hk : ∀ type, Keeps (made type))
    (hm : ∀ type, Traces [] (made type)
      (fun _ s v => (scope.within type).Tells shared v s) True)
    (h : Spreads shared before) :
    Traces before (scope.composed field made error)
      (fun _ s v => scope.Follows shared before v s) True := by
  refine traces_bind (traces_compositeType _ _) (fun type =>
    keeps_bind (keeps_nested (hk type)) fun inner => keeps_pushMade _ _ _ _) ?_
  rintro type _ _ ⟨ho, rfl, rfl⟩
  refine traces_bind (traces_nested (hm type)) (fun inner => keeps_pushMade _ _ _ _) ?_
  rintro inner _ visits ⟨rfl, hi⟩
  exact traces_ite (traces_throw _ trivial) (traces_pushComposite field ho hi h)

theorem traces_addObject {name : String} {options : FieldOptions} {body : Scope → Building Unit}
    (hk : ∀ type, Keeps (body (scope.within type)))
    (hb : ∀ type between, Spreads shared between → Traces between (body (scope.within type))
      (fun _ s v => (scope.within type).Follows shared between v s) True)
    (h : Spreads shared before) :
    Traces before (scope.addObject name options body)
      (fun _ s v => scope.Follows shared before v s) True := by
  have hopened : ∀ type, Keeps (do (scope.within type).start; body (scope.within type)) :=
    fun type => keeps_bind keeps_start fun _ => hk type
  exact traces_composed (Field.ofOptions name options false) hopened
    (fun type => traces_opened _ (hk type) (hb type)) h

theorem traces_addConnected {body : Scope → Building Unit}
    (hk : ∀ type, Keeps (body (scope.within type)))
    (hb : ∀ type between, Spreads shared between → Traces between (body (scope.within type))
      (fun _ s v => (scope.within type).Follows shared between v s) True)
    (h : Spreads shared before) :
    Traces before (scope.addConnected body)
      (fun _ s v => scope.Follows shared before v s) True := by
  refine traces_then (traces_addObject (keeps_addEdge hk) (fun edges between hs => ?_) h)
    (keeps_addObject keeps_addPageInfo)
    fun between hs => traces_addObject keeps_addPageInfo (fun info between hs => ?_) hs
  · exact traces_then (traces_addField _ _ hs) (keeps_addObject hk) fun _ hs => traces_addObject hk hb hs
  · exact traces_then (traces_addField _ _ hs) (keeps_addField _ _) fun _ hs => traces_addField _ _ hs

theorem traces_addConnection {name : String} {options : FieldOptions} {body : Scope → Building Unit}
    (hk : ∀ type, Keeps (body (scope.within type)))
    (hb : ∀ type between, Spreads shared between → Traces between (body (scope.within type))
      (fun _ s v => (scope.within type).Follows shared between v s) True)
    (h : Spreads shared before) :
    Traces before (scope.addConnection name options body)
      (fun _ s v => scope.Follows shared before v s) True := by
  have hbody : ∀ type, Keeps (do (scope.within type).start; (scope.within type).addConnected body) :=
    fun type => keeps_bind keeps_start fun _ => keeps_addConnected (scope.within type) hk
  refine traces_bind (traces_compositeType _ _) (fun type => keeps_ite (keeps_throw _)
    (keeps_bind (keeps_nested (hbody type)) fun _ => keeps_pushField _ _)) ?_
  rintro type _ _ ⟨ho, rfl, rfl⟩
  refine traces_ite (traces_throw _ trivial) (traces_bind (traces_nested (traces_opened
    (scope.within type) (keeps_addConnected _ hk) fun _ hs => traces_addConnected hk hb hs))
    (fun _ => keeps_pushField _ _) ?_)
  rintro inner _ visits ⟨rfl, hi⟩
  exact traces_pushComposite (Field.ofOptions name options true) ho hi h

theorem traces_fragmentTarget (condition : String) :
    Traces before (scope.fragmentTarget condition)
      (fun target s v => scope.Admits condition target ∧ s = before ∧ v = []) True := by
  have htraces : Traces before (scope.fragmentTarget condition) (fun _ _ v => v = []) True := by
    refine traces_bind (traces_checked _) (fun _ => keeps_ite (keeps_pure _) (keeps_throw _)) ?_
    rintro target _ _ ⟨-, rfl, rfl⟩
    exact traces_ite (traces_pure rfl) (traces_throw _ trivial)
  exact traces_mono (htraces.with_runs (runs_fragmentTarget condition))
    (fun _ _ _ h => ⟨h.1.1, h.1.2, h.2⟩) id

/-- A fragment that stands in the set, whatever makes its selections. -/
theorem traces_addFragmentOn {condition : String} {body : Scope → Building Unit}
    (hk : ∀ type, Keeps (body (scope.within type)))
    (hb : ∀ type, Traces [] (body (scope.within type))
      (fun _ s v => (scope.within type).Follows shared [] v s) True)
    (h : Spreads shared before) :
    Traces before (scope.addFragmentOn condition body)
      (fun _ s v => scope.Follows shared before v s) True := by
  refine traces_bind (traces_fragmentTarget _) (fun target =>
    keeps_bind (keeps_nested (keeps_bind (keeps_visit _) fun _ => hk target)) fun _ =>
      keeps_pushInlineFragment _ _) ?_
  rintro target _ _ ⟨ha, rfl, rfl⟩
  refine traces_bind (traces_nested (traces_bare (scope.within target) (hk target) (hb target)))
    (fun _ => keeps_pushInlineFragment _ _) ?_
  rintro inner _ visits ⟨rfl, hi⟩
  refine traces_ite (traces_throw _ trivial) (traces_mono (traces_push _) ?_ id)
  rintro _ _ _ ⟨rfl, rfl⟩
  refine follows_snoc h (fun fragment he => by cases he) fun name => ?_
  rw [touched, Bundle.get?_self ha.1, List.append_nil, List.nil_append, List.mem_cons, hi.names]
  rfl

theorem traces_addSpread {fragment : Fragment}
    (hs : ∀ f g : Fragment, shared f → shared g → f.name = g.name → f.condition = g.condition)
    (hf : shared fragment) (h : Spreads shared before) :
    Traces before (scope.addSpread fragment)
      (fun _ s v => scope.Follows shared before v s) True := by
  have hpush : Keeps (do
      if (← selections).any (spreads fragment.name) then pure ()
      else push (Selection.ofFragment fragment)) :=
    keeps_bind keeps_selections (keeps_spread fragment)
  refine traces_bind (traces_fragmentTarget _) (fun _ => keeps_bind (keeps_visit _) fun _ => hpush) ?_
  rintro target _ _ ⟨ha, rfl, rfl⟩
  refine traces_bind (traces_visit _) (fun _ => hpush) ?_
  rintro _ _ _ ⟨rfl, rfl⟩
  refine traces_bind traces_selections (keeps_spread fragment) ?_
  rintro _ s _ ⟨rfl, rfl, rfl⟩
  have hv : ∀ name, name ∈ [target.name] ↔ name ∈ scope.touched (Selection.ofFragment fragment) := by
    intro name
    rw [Selection.ofFragment, touched, Bundle.get?_name ha.1]
  by_cases hany : s.any (spreads fragment.name) = true
  · rw [if_pos hany]
    obtain ⟨found, hfound, hname⟩ := List.any_eq_true.1 hany
    refine traces_pure (follows_standing h hfound ?_ hv)
    cases found with
    | spread serial found condition typeName inner =>
      have hshared := h ⟨serial, found, condition, ⟨typeName, inner⟩⟩ hfound
      have hcondition := hs _ _ hshared hf (by simpa [spreads] using hname)
      rw [Selection.ofFragment, touched, touched, ← hcondition]
    | _ => cases hname
  · rw [if_neg hany]
    refine traces_mono (traces_push _) ?_ id
    rintro _ _ _ ⟨rfl, rfl⟩
    refine follows_snoc h (fun other he => ?_) (by simpa using hv)
    exact Selection.ofFragment_injective he ▸ hf

mutual
theorem traces_addSelection {selection : Selection} {scope : Scope} {before : List Selection}
    (hs : ∀ f g : Fragment, shared f → shared g → f.name = g.name → f.condition = g.condition)
    (hf : ∀ fragment ∈ selection.spreadFragments, shared fragment) (h : Spreads shared before) :
    Traces before (scope.addSelection selection)
      (fun _ s v => scope.Follows shared before v s) True := by
  cases selection with
  | leaf field =>
    unfold addSelection
    exact traces_resolvedLeaf field _ h
  | composite field typeName inner =>
    unfold addSelection
    have hk : ∀ type : TypeDescriptor, Keeps (do visit type.name; (scope.within type).addSelections inner) :=
      fun type => keeps_bind (keeps_visit _) fun _ => keeps_addSelections _ _
    refine traces_composed field hk (fun type => ?_) h
    exact traces_bare (scope.within type) (keeps_addSelections _ _)
      (traces_addSelections hs hf fun _ hm => absurd hm List.not_mem_nil)
  | inlineFragment condition typeName inner =>
    unfold addSelection
    have hadd : Traces before (scope.addFragmentOn condition fun child => child.addSelections inner)
        (fun _ s v => scope.Follows shared before v s) True :=
      traces_addFragmentOn (fun type => keeps_addSelections _ _) (fun type =>
        traces_addSelections hs hf fun _ hm => absurd hm List.not_mem_nil) h
    exact hadd
  | spread serial name condition typeName inner =>
    unfold addSelection
    exact traces_addSpread hs (hf _ List.mem_cons_self) h

theorem traces_addSelections {selections : List Selection} {scope : Scope} {before : List Selection}
    (hs : ∀ f g : Fragment, shared f → shared g → f.name = g.name → f.condition = g.condition)
    (hf : ∀ fragment ∈ Selection.spreadFragmentsOfAll selections, shared fragment)
    (h : Spreads shared before) :
    Traces before (scope.addSelections selections)
      (fun _ s v => scope.Follows shared before v s) True := by
  cases selections with
  | nil =>
    unfold addSelections
    exact traces_pure (.refl h)
  | cons selection rest =>
    unfold addSelections
    exact traces_then (traces_addSelection hs (fun f hm => hf f (List.mem_append_left _ hm)) h)
      (keeps_addSelections _ _)
      fun between hb => traces_addSelections hs (fun f hm => hf f (List.mem_append_right _ hm)) hb
end

end Scope

namespace Step

open Building Scope

variable {shared : Fragment → Prop}

mutual
/-- A step that leaves no error in the journal visits just what its selections touch. -/
theorem traces_run {step : Step} {scope : Scope} {before : List Selection}
    (hs : ∀ f g : Fragment, shared f → shared g → f.name = g.name → f.condition = g.condition)
    (hf : ∀ fragment ∈ step.fragments, shared fragment) (h : Spreads shared before) :
    Traces before (step.run scope) (fun _ s v => scope.Follows shared before v s) False := by
  cases step with
  | field name options =>
    unfold run
    exact traces_journaled (traces_addField name options h)
  | object name options body =>
    unfold run
    exact traces_journaled (traces_addObject (fun type => keeps_runAll _ body)
      (fun type between hb => traces_mono (traces_runAll hs hf hb) (fun _ _ _ h => h) False.elim) h)
  | connection name options body =>
    unfold run
    exact traces_journaled (traces_addConnection (fun type => keeps_runAll _ body)
      (fun type between hb => traces_mono (traces_runAll hs hf hb) (fun _ _ _ h => h) False.elim) h)
  | fragmentOn typeName body =>
    unfold run
    have hnone : Spreads shared [] := fun _ hm => absurd hm List.not_mem_nil
    exact traces_journaled (traces_addFragmentOn (fun type => keeps_runAll _ body)
      (fun type => traces_mono (traces_runAll hs hf hnone) (fun _ _ _ h => h) False.elim) h)
  | spread fragment =>
    unfold run
    exact traces_journaled (traces_addSpread hs (hf _ List.mem_cons_self) h)
  | selection made =>
    unfold run
    exact traces_journaled (traces_addSelection hs hf h)
  | extend set =>
    unfold run
    exact traces_journaled (traces_addSelections hs hf h)
  | attempt step =>
    unfold run
    have hstep : Traces before (step.run scope) (fun _ s v => scope.Follows shared before v s) False :=
      traces_run hs hf h
    exact traces_journaled (traces_bind (traces_caught hstep) (fun _ => keeps_pure ())
      fun _ _ _ hs => traces_pure (by rwa [List.append_nil]))
  | snapshot =>
    unfold run
    refine traces_bind traces_selections (fun _ => keeps_note _) ?_
    rintro _ s _ ⟨rfl, rfl, rfl⟩
    refine traces_mono (traces_note _) ?_ id
    rintro _ _ _ ⟨rfl, rfl⟩
    exact .refl h

theorem traces_runAll {steps : List Step} {scope : Scope} {before : List Selection}
    (hs : ∀ f g : Fragment, shared f → shared g → f.name = g.name → f.condition = g.condition)
    (hf : ∀ fragment ∈ fragmentsOfAll steps, shared fragment) (h : Spreads shared before) :
    Traces before (runAll scope steps) (fun _ s v => scope.Follows shared before v s) False := by
  cases steps with
  | nil =>
    unfold runAll
    exact traces_pure (.refl h)
  | cons step rest =>
    unfold runAll
    exact traces_then (traces_run hs (fun f hm => hf f (List.mem_append_left _ hm)) h)
      (keeps_runAll _ rest)
      fun between hb => traces_runAll hs (fun f hm => hf f (List.mem_append_right _ hm)) hb
end

end Step

namespace Tracker

variable {tracker : Tracker} {names : List String}

theorem mem_insertSorted {name other : String} {types : List String} :
    other ∈ insertSorted name types ↔ other = name ∨ other ∈ types := by
  induction types with
  | nil => simp [insertSorted]
  | cons first rest ih =>
    rw [insertSorted]
    split_ifs with he hl
    · rw [he, List.mem_cons, ← or_assoc, or_self]
    · rw [List.mem_cons]
    · rw [List.mem_cons, ih, List.mem_cons, or_left_comm]

theorem pairwise_insertSorted (name : String) {types : List String}
    (h : types.Pairwise (· < ·)) : (insertSorted name types).Pairwise (· < ·) := by
  induction types with
  | nil => exact List.pairwise_singleton _ name
  | cons first rest ih =>
    have hrest := List.pairwise_cons.1 h
    rw [insertSorted]
    split_ifs with he hl
    · exact h
    · refine List.pairwise_cons.2 ⟨fun other hm => ?_, h⟩
      rcases List.mem_cons.1 hm with rfl | hm
      · exact hl
      · exact lt_trans hl (hrest.1 other hm)
    · refine List.pairwise_cons.2 ⟨fun other hm => ?_, ih hrest.2⟩
      rcases mem_insertSorted.1 hm with rfl | hm
      · exact lt_of_le_of_ne (not_lt.1 hl) (Ne.symm he)
      · exact hrest.1 other hm

theorem recordAll_of_not_active (h : tracker.active = false) : tracker.recordAll names = tracker := by
  induction names with
  | nil => rfl
  | cons name rest ih =>
    have hname : tracker.record name = tracker := by simp [record, h]
    rw [recordAll, List.foldl_cons, hname]
    exact ih

theorem mem_recordAll (h : tracker.active = true) {name : String} :
    name ∈ (tracker.recordAll names).types ↔ name ∈ tracker.types ∨ name ∈ names := by
  induction names generalizing tracker with
  | nil => simp [recordAll]
  | cons first rest ih =>
    have hfirst : tracker.record first =
        { tracker with types := insertSorted first tracker.types } := by simp [record, h]
    rw [recordAll, List.foldl_cons, hfirst]
    refine (@ih { tracker with types := insertSorted first tracker.types } h).trans ?_
    rw [mem_insertSorted, List.mem_cons, or_comm (a := name = first), or_assoc]

theorem pairwise_recordAll (h : tracker.types.Pairwise (· < ·)) :
    (tracker.recordAll names).types.Pairwise (· < ·) := by
  induction names generalizing tracker with
  | nil => exact h
  | cons first rest ih =>
    refine ih ?_
    unfold record
    split
    · exact pairwise_insertSorted first h
    · exact h

end Tracker

namespace OperationDraft

open Building Scope

variable {shared : Fragment → Prop}

/-- A build without failing steps visits the type of the set and what the set touches. -/
theorem tells_of_buildSet {scope : Scope} {program : List Step} {set : SelectionSet}
    (hs : ∀ f g : Fragment, shared f → shared g → f.name = g.name → f.condition = g.condition)
    (hf : ∀ fragment ∈ Step.fragmentsOfAll program, shared fragment)
    (hc : JournalEntry.Clean (buildSet scope program).journal)
    (h : (buildSet scope program).result = .ok set) :
    scope.Tells shared (buildSet scope program).visits set.selections := by
  have hopened : Traces [] (do scope.start; Step.runAll scope program)
      (fun _ s v => scope.Tells shared v s) True :=
    traces_opened scope (Step.keeps_runAll scope program) fun between hb =>
      traces_mono (Step.traces_runAll hs hf hb) (fun _ _ _ h => h) False.elim
  have htraces := hopened Draft.empty rfl hc
  unfold buildSet at h ⊢
  rcases hr : (do scope.start; Step.runAll scope program : Building Unit).run Draft.empty with
    ⟨e | _, after⟩ <;> simp only [hr] at h htraces ⊢
  · cases h
  · obtain ⟨visits, hv, htells⟩ := htraces
    rw [hv]
    by_cases hempty : after.selections.isEmpty = true
    · rw [if_pos hempty] at h
      cases h
    · rw [if_neg hempty] at h
      obtain rfl := Except.ok.inj h
      exact htells

/-- A tracker that records a build in which no step failed has then, besides what it had, the type of
the root and the types that the operation touches. The fragments are those of one document, in which a
name stands for one condition. -/
theorem tracked_types {bundle other : Bundle} {calls : List (Nat × DocumentCall)} {i : Nat}
    {draft : OperationDraft} {operation : Operation}
    (hf : ∀ fragment ∈ Step.fragmentsOfAll draft.program,
      fragment ∈ (other.documents calls i).fragments)
    (hc : JournalEntry.Clean (draft.build bundle).journal)
    (h : (draft.build bundle).result = .ok operation) (tracker : Tracker) :
    ∃ scope, draft.scope bundle = .ok scope ∧
      (tracker.active = true → ∀ name,
        name ∈ (tracker.recordAll (draft.build bundle).visits).types ↔
          name ∈ tracker.types ∨ name = scope.type.name ∨
            name ∈ scope.touchedAll operation.set.selections) ∧
      (tracker.types.Pairwise (· < ·) →
        (tracker.recordAll (draft.build bundle).visits).types.Pairwise (· < ·)) ∧
      (tracker.active = false → tracker.recordAll (draft.build bundle).visits = tracker) := by
  obtain ⟨scope, set, hscope, hset, rfl⟩ := build_eq_ok h
  rw [build_of_scope hscope] at hc ⊢
  have hdistinct := (other.documents_sound calls i).distinct
  have hshared : ∀ f g : Fragment, f ∈ (other.documents calls i).fragments →
      g ∈ (other.documents calls i).fragments → f.name = g.name → f.condition = g.condition :=
    fun f g hf hg hname => congrArg Fragment.condition (hdistinct.eq_of_name_eq hf hg hname)
  have htells := tells_of_buildSet hshared hf hc hset
  refine ⟨scope, hscope, fun hactive name => ?_, Tracker.pairwise_recordAll,
    Tracker.recordAll_of_not_active⟩
  rw [Tracker.mem_recordAll hactive, htells.names]

end OperationDraft

/-- The sample draft without the steps that fail. -/
def trackedDraft : OperationDraft :=
  { sampleDraft with program :=
    [.object "shop" .none
      [.connection "products" ⟨none, [("first", .var "count")]⟩
        [.spread sampleFragment, .attempt (.spread sampleFragment)],
       .selection (.leaf ⟨"name", some "label", [], false⟩)],
     .object "node" ⟨none, [("id", .string "p1")]⟩ [.fragmentOn "Product" [.field "handle" .none]],
     .extend ⟨"Query", [.inlineFragment "Query" "" [.composite ⟨"shop", some "again", [], false⟩ ""
       [.leaf (.plain "name"), .leaf (.plain "name")]]]⟩] }

theorem trackedDraft_types :
    ∃ scope, trackedDraft.scope sampleBundle = .ok scope ∧
      ∀ name, name ∈ ((Tracker.new.start.record "Cart").recordAll
          (trackedDraft.build sampleBundle).visits).types ↔
        name = "Cart" ∨ name = scope.type.name ∨
          name ∈ scope.touchedAll (trackedDraft.built sampleBundle).set.selections := by
  have hf : ∀ fragment ∈ Step.fragmentsOfAll trackedDraft.program,
      fragment ∈ (sampleBundle.documents
        [(0, .define 0 ⟨"Title", "Product", [.field "title" .none]⟩)] 0).fragments := by
    intro fragment hf
    obtain rfl : fragment = sampleFragment := by
      simpa [trackedDraft, Step.fragmentsOfAll, Step.fragments, Selection.spreadFragmentsOfAll,
        Selection.spreadFragments] using hf
    exact List.mem_singleton_self _
  have hbuilt : (trackedDraft.build sampleBundle).result = .ok (trackedDraft.built sampleBundle) :=
    OperationDraft.build_eq_built (by decide +kernel)
  obtain ⟨scope, hscope, htypes, -⟩ := OperationDraft.tracked_types hf (by decide +kernel) hbuilt
    (Tracker.new.start.record "Cart")
  refine ⟨scope, hscope, fun name => (htypes rfl name).trans ?_⟩
  have hbefore : (Tracker.new.start.record "Cart").types = ["Cart"] := rfl
  rw [hbefore, List.mem_singleton]

end GraphQLClient
