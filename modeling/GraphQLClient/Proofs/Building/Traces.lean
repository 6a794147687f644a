import GraphQLClient.Building.Operation
import GraphQLClient.Proofs.Building.Parts
import GraphQLClient.Proofs.Building.Runs

set_option autoImplicit false

/-!
# What a build leaves behind

No computation on a draft takes back a visit or an entry of the journal. `Traces before m Q E` says
of a run that starts with the selections `before` and in which no step failed, not even one that was
only attempted, which visits it adds: `Q` relates them to the selections at the end. A step that ends
with an error says so in the journal, so that for steps `E` is false.
-/

namespace GraphQLClient

def JournalEntry.error? : JournalEntry → Option BuildError
  | .step _ _ _ error => error
  | .snapshot _ _ => none

/-- No step failed. -/
def JournalEntry.Clean (journal : List JournalEntry) : Prop :=
  ∀ entry ∈ journal, entry.error? = none

instance (journal : List JournalEntry) : Decidable (JournalEntry.Clean journal) :=
  inferInstanceAs (Decidable (∀ entry ∈ journal, entry.error? = none))

open JournalEntry

namespace Building

variable {α β : Type}

/-- Visits and the journal only grow, however the computation ends. -/
def Keeps (m : Building α) : Prop :=
  ∀ draft : Draft, draft.visits <+: (m.run draft).2.visits ∧
    draft.journal <+: (m.run draft).2.journal

variable {m : Building α} {f : α → Building β} {body : Building Unit}

theorem keeps_pure (a : α) : Keeps (pure a) := fun _ => ⟨List.prefix_rfl, List.prefix_rfl⟩

theorem keeps_throw (e : BuildError) : Keeps (throw e : Building α) :=
  fun _ => ⟨List.prefix_rfl, List.prefix_rfl⟩

theorem keeps_checked (result : Except BuildError α) : Keeps (checked result) :=
  fun _ => ⟨List.prefix_rfl, List.prefix_rfl⟩

theorem keeps_visit (typeName : String) : Keeps (visit typeName) :=
  fun _ => ⟨List.prefix_append _ _, List.prefix_rfl⟩

theorem keeps_note (entry : JournalEntry) : Keeps (note entry) :=
  fun _ => ⟨List.prefix_rfl, List.prefix_append _ _⟩

theorem keeps_selections : Keeps selections := fun _ => ⟨List.prefix_rfl, List.prefix_rfl⟩

theorem keeps_push (selection : Selection) : Keeps (push selection) :=
  fun _ => ⟨List.prefix_rfl, List.prefix_rfl⟩

/-- The visits of the first part are still there at the end. -/
theorem visits_bind (m : Building α) (hf : ∀ a, Keeps (f a)) (draft : Draft) :
    (m.run draft).2.visits <+: ((m >>= f).run draft).2.visits := by
  rw [run_bind]
  rcases m.run draft with ⟨e | a, after⟩
  · exact List.prefix_rfl
  · exact (hf a after).1

theorem keeps_bind (h : Keeps m) (hf : ∀ a, Keeps (f a)) : Keeps (m >>= f) := by
  intro draft
  have hm := h draft
  rw [run_bind]
  rcases hr : m.run draft with ⟨e | a, after⟩ <;> rw [hr] at hm
  · exact hm
  · have hrest := hf a after
    exact ⟨hm.1.trans hrest.1, hm.2.trans hrest.2⟩

theorem keeps_ite {c : Prop} [Decidable c] {m' : Building α} (h : Keeps m) (h' : Keeps m') :
    Keeps (if c then m else m') := by
  split
  · exact h
  · exact h'

theorem keeps_nested (h : Keeps body) : Keeps (nested body) :=
  fun draft => h { draft with selections := [] }

theorem keeps_caught (h : Keeps body) : Keeps (caught body) := by
  intro draft
  have hb := h draft
  rw [run_caught]
  rcases hr : body.run draft with ⟨e | _, after⟩ <;> rw [hr] at hb <;> exact hb

theorem keeps_journaled {kind : StepKind} {typeName : String} (h : Keeps body) :
    Keeps (journaled kind typeName body) := by
  refine keeps_bind (keeps_caught h) fun error => keeps_bind keeps_selections fun _ =>
    keeps_bind (keeps_note _) fun _ => ?_
  cases error with
  | none => exact keeps_pure ()
  | some e => exact keeps_throw e

/-- The run of a step is that of its body, with an entry in the journal at the end. -/
theorem run_journaled (kind : StepKind) (typeName : String) (body : Building Unit) (draft : Draft) :
    (journaled kind typeName body).run draft =
      match body.run draft with
      | (.ok (), after) => (.ok (), { after with
          journal := after.journal ++ [.step kind typeName after.selections.length none] })
      | (.error e, after) => (.error e, { after with
          journal := after.journal ++ [.step kind typeName after.selections.length (some e)] }) := by
  unfold journaled
  rw [run_bind, run_caught]
  rcases body.run draft with ⟨e | _, after⟩ <;> rfl

/-- A run in which no step fails ends well or in `E`, and `Q` relates the visits that it adds to the
selections at the end. -/
def Traces (before : List Selection) (m : Building α)
    (Q : α → List Selection → List String → Prop) (E : Prop) : Prop :=
  ∀ draft : Draft, draft.selections = before → Clean (m.run draft).2.journal →
    match m.run draft with
    | (.ok a, after) =>
      ∃ visits, after.visits = draft.visits ++ visits ∧ Q a after.selections visits
    | (.error _, _) => E

variable {before : List Selection} {Q Q' : α → List Selection → List String → Prop} {E E' : Prop}

theorem traces_pure {a : α} (h : Q a before []) : Traces before (pure a) Q E := by
  rintro draft rfl -
  exact ⟨[], (List.append_nil _).symm, h⟩

theorem traces_throw (e : BuildError) (h : E) : Traces before (throw e) Q E := fun _ _ _ => h

theorem traces_checked (result : Except BuildError α) :
    Traces before (checked result) (fun a s v => result = .ok a ∧ s = before ∧ v = []) True := by
  rintro draft rfl -
  cases result with
  | error e => exact trivial
  | ok a => exact ⟨[], (List.append_nil _).symm, rfl, rfl, rfl⟩

theorem traces_visit (typeName : String) :
    Traces before (visit typeName) (fun _ s v => s = before ∧ v = [typeName]) E := by
  rintro draft rfl -
  exact ⟨[typeName], rfl, rfl, rfl⟩

theorem traces_note (entry : JournalEntry) :
    Traces before (note entry) (fun _ s v => s = before ∧ v = []) E := by
  rintro draft rfl -
  exact ⟨[], (List.append_nil _).symm, rfl, rfl⟩

theorem traces_selections :
    Traces before selections (fun a s v => a = before ∧ s = before ∧ v = []) E := by
  rintro draft rfl -
  exact ⟨[], (List.append_nil _).symm, rfl, rfl, rfl⟩

theorem traces_push (selection : Selection) :
    Traces before (push selection) (fun _ s v => s = before ++ [selection] ∧ v = []) E := by
  rintro draft rfl -
  exact ⟨[], (List.append_nil _).symm, rfl, rfl⟩

theorem traces_mono (h : Traces before m Q E) (hQ : ∀ a s v, Q a s v → Q' a s v) (hE : E → E') :
    Traces before m Q' E' := by
  intro draft hd hc
  have hm := h draft hd hc
  rcases hr : m.run draft with ⟨e | a, after⟩ <;> simp only [hr] at hm ⊢
  · exact hE hm
  · obtain ⟨visits, hv, hq⟩ := hm
    exact ⟨visits, hv, hQ a _ _ hq⟩

/-- What runs say of the selections may be used beside. -/
theorem Traces.with_runs {P : α → List Selection → Prop} {F : BuildError → List Selection → Prop}
    (h : Traces before m Q E) (hr : Runs before m P F) :
    Traces before m (fun a s v => P a s ∧ Q a s v) E := by
  intro draft hd hc
  have hm := h draft hd hc
  have hs := hr draft hd
  rcases hr : m.run draft with ⟨e | a, after⟩ <;> simp only [hr] at hm hs ⊢
  · exact hm
  · obtain ⟨visits, hv, hq⟩ := hm
    exact ⟨visits, hv, hs, hq⟩

/-- The second part must not take back a failure of the first. -/
theorem traces_bind {R : β → List Selection → List String → Prop} (h : Traces before m Q E)
    (hk : ∀ a, Keeps (f a))
    (hf : ∀ a after v, Q a after v → Traces after (f a) (fun b s w => R b s (v ++ w)) E) :
    Traces before (m >>= f) R E := by
  intro draft hd hc
  have hm := h draft hd
  rw [run_bind] at hc ⊢
  rcases hr : m.run draft with ⟨e | a, mid⟩ <;> simp only [hr] at hm hc ⊢
  · exact hm hc
  · obtain ⟨visits, hv, hq⟩ := hm fun entry he => hc entry ((hk a mid).2.subset he)
    have hrest := hf a _ visits hq mid rfl hc
    rcases hl : (f a).run mid with ⟨e | b, last⟩ <;> simp only [hl] at hrest ⊢
    · exact hrest
    · obtain ⟨more, hmore, hq'⟩ := hrest
      exact ⟨visits ++ more, by rw [hmore, hv, List.append_assoc], hq'⟩

theorem traces_ite {c : Prop} [Decidable c] {m' : Building α} (h : Traces before m Q E)
    (h' : Traces before m' Q E) : Traces before (if c then m else m') Q E := by
  split
  · exact h
  · exact h'

theorem traces_nested {Q : Unit → List Selection → List String → Prop} (h : Traces [] body Q E) :
    Traces before (nested body) (fun inner s v => s = before ∧ Q () inner v) E := by
  rintro draft rfl hc
  have hb := h { draft with selections := [] } rfl hc
  rw [run_nested]
  rcases hr : body.run { draft with selections := [] } with ⟨e | _, after⟩ <;>
    simp only [hr] at hb
  · exact hb
  · obtain ⟨visits, hv, hq⟩ := hb
    exact ⟨visits, hv, rfl, hq⟩

theorem traces_caught {Q : Unit → List Selection → List String → Prop}
    (h : Traces before body Q False) : Traces before (caught body) (fun _ s v => Q () s v) False := by
  intro draft hd hc
  have hb := h draft hd
  rw [run_caught] at hc ⊢
  rcases hr : body.run draft with ⟨e | _, after⟩ <;> simp only [hr] at hb hc ⊢
  · exact (hb hc).elim
  · exact hb hc

/-- A step that fails is in the journal. -/
theorem traces_journaled {kind : StepKind} {typeName : String}
    {Q : Unit → List Selection → List String → Prop} (h : Traces before body Q E) :
    Traces before (journaled kind typeName body) Q False := by
  intro draft hd hc
  have hb := h draft hd
  rw [run_journaled] at hc ⊢
  rcases hr : body.run draft with ⟨e | _, after⟩ <;> simp only [hr] at hb hc ⊢
  · have herror := hc _ (List.mem_append_right _ List.mem_cons_self)
    cases herror
  · exact hb fun entry he => hc entry (List.mem_append_left _ he)

end Building

namespace Scope

open Building

variable {scope : Scope}

theorem keeps_resolve (name : String) (options : FieldOptions) :
    Keeps (scope.resolve name options) :=
  keeps_bind (keeps_checked _) fun _ => keeps_bind (keeps_visit _) fun _ => keeps_pure _

/-- The rest of `compositeType` once the field is resolved. -/
theorem keeps_composite (error : TypeDescriptor → BuildError) (leaf : BuildError)
    (type : Option TypeDescriptor) :
    Keeps (match type with
      | some type => if type.isComposite then pure type else throw (error type)
      | none => throw leaf) := by
  cases type with
  | none => exact keeps_throw _
  | some type => exact keeps_ite (keeps_pure _) (keeps_throw _)

theorem keeps_compositeType (name : String) (options : FieldOptions) :
    Keeps (scope.compositeType name options) :=
  keeps_bind (keeps_resolve name options) fun type => keeps_composite _ _ type

/-- The rest of `pushField` once the selections are there. -/
theorem keeps_placed (key : String) (selection : Selection) (error : BuildError)
    (before : List Selection) :
    Keeps (match before.find? (Selection.answers key) with
      | some found => if found.same selection then pure () else throw error
      | none => push selection) := by
  cases before.find? (Selection.answers key) with
  | some found => exact keeps_ite (keeps_pure _) (keeps_throw _)
  | none => exact keeps_push _

theorem keeps_pushField (field : Field) (selection : Selection) :
    Keeps (scope.pushField field selection) :=
  keeps_bind keeps_selections fun before => keeps_placed _ _ _ before

theorem keeps_pushInlineFragment (target : TypeDescriptor) (inner : List Selection) :
    Keeps (pushInlineFragment target inner) :=
  keeps_ite (keeps_throw _) (keeps_push _)

theorem keeps_fragmentTarget (condition : String) : Keeps (scope.fragmentTarget condition) :=
  keeps_bind (keeps_checked _) fun _ => keeps_ite (keeps_pure _) (keeps_throw _)

/-- The rest of a leaf field once it is resolved. -/
theorem keeps_pushLeaf (field : Field) (error : TypeDescriptor → BuildError)
    (type : Option TypeDescriptor) :
    Keeps (do
      match type with
      | some type => if type.isComposite then throw (error type) else pure ()
      | none => pure ()
      scope.pushField field (.leaf field)) := by
  cases type with
  | none => exact keeps_pushField _ _
  | some type => exact keeps_ite (keeps_throw _) (keeps_pushField _ _)

theorem keeps_resolvedLeaf (field : Field) (error : TypeDescriptor → BuildError) :
    Keeps (scope.resolvedLeaf field error) :=
  keeps_bind (keeps_resolve _ _) fun type => keeps_pushLeaf field error type

theorem keeps_addField (name : String) (options : FieldOptions) :
    Keeps (scope.addField name options) :=
  keeps_resolvedLeaf (Field.ofOptions name options false) _

theorem keeps_typename :
    Keeps (if scope.type.isAbstract then scope.addField typenameField .none else pure ()) :=
  keeps_ite (keeps_addField _ _) (keeps_pure _)

/-- What a new set starts with once its type is visited. -/
theorem keeps_opening : Keeps (do
    if scope.type.implementsNode && (scope.type.field? "id").isSome then
      scope.addField "id" .none
    if scope.type.isAbstract then
      scope.addField typenameField .none) :=
  keeps_ite (keeps_bind (keeps_addField _ _) fun _ => keeps_typename) keeps_typename

theorem keeps_start : Keeps scope.start := keeps_bind (keeps_visit _) fun _ => keeps_opening

theorem keeps_pushMade (field : Field) (typeName : String) (error : BuildError)
    (inner : List Selection) : Keeps (scope.pushMade field typeName error inner) :=
  keeps_ite (keeps_throw _) (keeps_pushField _ _)

theorem keeps_addObject {name : String} {options : FieldOptions} {body : Scope → Building Unit}
    (hb : ∀ type, Keeps (body (scope.within type))) : Keeps (scope.addObject name options body) :=
  keeps_bind (keeps_compositeType _ _) fun _ =>
    keeps_bind (keeps_nested (keeps_bind keeps_start fun _ => hb _)) fun _ =>
      keeps_pushMade _ _ _ _

theorem keeps_addEdge {body : Scope → Building Unit} (hb : ∀ type, Keeps (body (scope.within type)))
    (edges : TypeDescriptor) : Keeps ((scope.within edges).addEdge body) :=
  keeps_bind (keeps_addField _ _) fun _ => keeps_addObject hb

theorem keeps_addPageInfo (info : TypeDescriptor) : Keeps (scope.within info).addPageInfo :=
  keeps_bind (keeps_addField _ _) fun _ => keeps_addField _ _

theorem keeps_addConnected (scope : Scope) {body : Scope → Building Unit}
    (hb : ∀ type, Keeps (body (scope.within type))) : Keeps (scope.addConnected body) :=
  keeps_bind (keeps_addObject (keeps_addEdge hb)) fun _ => keeps_addObject keeps_addPageInfo

theorem keeps_addConnection {name : String} {options : FieldOptions} {body : Scope → Building Unit}
    (hb : ∀ type, Keeps (body (scope.within type))) :
    Keeps (scope.addConnection name options body) :=
  keeps_bind (keeps_compositeType _ _) fun type => keeps_ite (keeps_throw _)
    (keeps_bind (keeps_nested (keeps_bind keeps_start fun _ =>
      keeps_addConnected (scope.within type) hb)) fun _ => keeps_pushField _ _)

theorem keeps_addFragmentOn {condition : String} {body : Scope → Building Unit}
    (hb : ∀ type, Keeps (body (scope.within type))) :
    Keeps (scope.addFragmentOn condition body) :=
  keeps_bind (keeps_fragmentTarget _) fun _ =>
    keeps_bind (keeps_nested (keeps_bind (keeps_visit _) fun _ => hb _)) fun _ =>
      keeps_pushInlineFragment _ _

/-- The rest of `addSpread` once the selections are there. -/
theorem keeps_spread (fragment : Fragment) (before : List Selection) :
    Keeps (if before.any (spreads fragment.name) then pure ()
      else push (Selection.ofFragment fragment)) :=
  keeps_ite (keeps_pure _) (keeps_push _)

theorem keeps_addSpread (fragment : Fragment) : Keeps (scope.addSpread fragment) :=
  keeps_bind (keeps_fragmentTarget _) fun _ => keeps_bind (keeps_visit _) fun _ =>
    keeps_bind keeps_selections (keeps_spread fragment)

mutual
theorem keeps_addSelection (scope : Scope) (selection : Selection) :
    Keeps (scope.addSelection selection) := by
  cases selection with
  | leaf field =>
    unfold addSelection
    exact keeps_resolvedLeaf field _
  | composite field typeName inner =>
    unfold addSelection
    refine keeps_bind (keeps_compositeType _ _) fun type => ?_
    refine keeps_bind (keeps_nested (keeps_bind (keeps_visit _) fun _ => ?_)) fun rebuilt => ?_
    · exact keeps_addSelections (scope.within type) inner
    · exact keeps_pushMade _ _ _ _
  | inlineFragment condition typeName inner =>
    unfold addSelection
    refine keeps_bind (keeps_fragmentTarget _) fun target => ?_
    refine keeps_bind (keeps_nested (keeps_bind (keeps_visit _) fun _ => ?_)) fun rebuilt => ?_
    · exact keeps_addSelections (scope.within target) inner
    · exact keeps_pushInlineFragment _ _
  | spread serial name condition typeName inner =>
    unfold addSelection
    exact keeps_addSpread _

theorem keeps_addSelections (scope : Scope) (selections : List Selection) :
    Keeps (scope.addSelections selections) := by
  cases selections with
  | nil =>
    unfold addSelections
    exact keeps_pure ()
  | cons selection rest =>
    unfold addSelections
    exact keeps_bind (keeps_addSelection scope selection) fun _ => keeps_addSelections scope rest
end

end Scope

namespace Step

open Building

mutual
theorem keeps_run (scope : Scope) (step : Step) : Keeps (step.run scope) := by
  cases step with
  | field name options =>
    unfold run
    exact keeps_journaled (Scope.keeps_addField name options)
  | object name options body =>
    unfold run
    exact keeps_journaled (Scope.keeps_addObject fun _ => keeps_runAll _ body)
  | connection name options body =>
    unfold run
    exact keeps_journaled (Scope.keeps_addConnection fun _ => keeps_runAll _ body)
  | fragmentOn typeName body =>
    unfold run
    exact keeps_journaled (Scope.keeps_addFragmentOn fun _ => keeps_runAll _ body)
  | spread fragment =>
    unfold run
    exact keeps_journaled (Scope.keeps_addSpread fragment)
  | selection made =>
    unfold run
    exact keeps_journaled (Scope.keeps_addSelection scope made)
  | extend set =>
    unfold run
    exact keeps_journaled (Scope.keeps_addSelections scope set.selections)
  | attempt step =>
    unfold run
    exact keeps_journaled (keeps_bind (keeps_caught (keeps_run scope step)) fun _ => keeps_pure ())
  | snapshot =>
    unfold run
    exact keeps_bind keeps_selections fun _ => keeps_note _

theorem keeps_runAll (scope : Scope) (steps : List Step) : Keeps (runAll scope steps) := by
  cases steps with
  | nil =>
    unfold runAll
    exact keeps_pure ()
  | cons step rest =>
    unfold runAll
    exact keeps_bind (keeps_run scope step) fun _ => keeps_runAll scope rest
end

end Step

end GraphQLClient
