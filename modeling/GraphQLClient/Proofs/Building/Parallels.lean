import GraphQLClient.Proofs.Building.Traces

set_option autoImplicit false

/-!
# One program in two scopes

Two scopes may differ in the bundle and the variables around one type. `Scope.Parallel R` has a clause
for each primitive that the builder is made of and for the two places where it looks at what is
around the type: the check of a field and the search for the type of a fragment. A relation of
computations with these clauses holds of what any program does in the two scopes.
-/

namespace GraphQLClient

namespace Step

mutual
/-- A step that goes on after no error. -/
def strict : Step → Bool
  | .object _ _ body => allStrict body
  | .connection _ _ body => allStrict body
  | .fragmentOn _ body => allStrict body
  | .attempt _ => false
  | .field _ _ => true
  | .spread _ => true
  | .selection _ => true
  | .extend _ => true
  | .snapshot => true

def allStrict : List Step → Bool
  | [] => true
  | step :: rest => strict step && allStrict rest
end

end Step

namespace Scope

open Building

/-- The clauses of a relation between what is done in one scope and in another. Steps may be attempted
if `passing`. -/
structure Parallel (R : (α : Type) → Building α → Building α → Prop) (passing : Prop)
    (scope scope' : Scope) : Prop where
  value : ∀ {α : Type} (a : α), R α (pure a) (pure a)
  error : ∀ {α : Type} (e : BuildError), R α (throw e) (throw e)
  visit : ∀ typeName, R Unit (visit typeName) (visit typeName)
  note : ∀ entry, R Unit (note entry) (note entry)
  selections : R (List Selection) selections selections
  push : ∀ selection, R Unit (push selection) (push selection)
  bind : ∀ {α β : Type} {m m' : Building α} {f f' : α → Building β}, R α m m' →
    (∀ a, R β (f a) (f' a)) → R β (m >>= f) (m' >>= f')
  nested : ∀ {body body' : Building Unit}, R Unit body body' →
    R (List Selection) (nested body) (nested body')
  journaled : ∀ {body body' : Building Unit} (kind : StepKind) (typeName : String),
    R Unit body body' → R Unit (journaled kind typeName body) (journaled kind typeName body')
  attempted : passing → ∀ (step : Step) (type : TypeDescriptor),
    R Unit (step.run (scope.within type)) (step.run (scope'.within type)) →
      R Unit (do let _ ← caught (step.run (scope.within type)))
        (do let _ ← caught (step.run (scope'.within type)))
  resolve : ∀ (type : TypeDescriptor) (name : String) (options : FieldOptions),
    R (Option TypeDescriptor) ((scope.within type).resolve name options)
      ((scope'.within type).resolve name options)
  targeted : ∀ {f f' : TypeDescriptor → Building Unit} (type : TypeDescriptor) (condition : String),
    (∀ target draft, target.name ∈ ((f target).run draft).2.visits) →
      (∀ target, R Unit (f target) (f' target)) →
        R Unit ((scope.within type).fragmentTarget condition >>= f)
          ((scope'.within type).fragmentTarget condition >>= f')

/-- A computation that begins with a visit has made it at the end. -/
theorem mem_visits_of_visit {α : Type} {m : Building α} (hk : Keeps m) (typeName : String)
    (draft : Draft) : typeName ∈ ((do Building.visit typeName; m).run draft).2.visits := by
  have hvisited : typeName ∈ ((Building.visit typeName).run draft).2.visits :=
    List.mem_append_right _ List.mem_cons_self
  exact (visits_bind _ (fun _ => hk) draft).subset hvisited

namespace Parallel

variable {R : (α : Type) → Building α → Building α → Prop} {passing : Prop} {scope scope' : Scope}
  {body body' : Scope → Building Unit}

theorem ite (c : Prop) [Decidable c] {α : Type} {m m' n n' : Building α} (hm : R α m m')
    (hn : R α n n') : R α (if c then m else n) (if c then m' else n') := by
  split
  · exact hm
  · exact hn

theorem compositeType (h : Parallel R passing scope scope') (type : TypeDescriptor) (name : String)
    (options : FieldOptions) :
    R TypeDescriptor ((scope.within type).compositeType name options)
      ((scope'.within type).compositeType name options) := by
  refine h.bind (h.resolve type name options) fun found => ?_
  cases found with
  | none => exact h.error _
  | some found => exact ite _ (h.value _) (h.error _)

theorem pushField (h : Parallel R passing scope scope') (type : TypeDescriptor) (field : Field)
    (selection : Selection) :
    R Unit ((scope.within type).pushField field selection)
      ((scope'.within type).pushField field selection) := by
  refine h.bind h.selections fun before => ?_
  cases before.find? (Selection.answers field.responseKey) with
  | none => exact h.push _
  | some found => exact ite _ (h.value _) (h.error _)

theorem resolvedLeaf (h : Parallel R passing scope scope') (type : TypeDescriptor) (field : Field)
    (error : TypeDescriptor → BuildError) :
    R Unit ((scope.within type).resolvedLeaf field error)
      ((scope'.within type).resolvedLeaf field error) := by
  refine h.bind (h.resolve type _ _) fun found => ?_
  cases found with
  | none => exact h.pushField type _ _
  | some found => exact ite _ (h.error _) (h.pushField type _ _)

theorem addField (h : Parallel R passing scope scope') (type : TypeDescriptor) (name : String)
    (options : FieldOptions) :
    R Unit ((scope.within type).addField name options) ((scope'.within type).addField name options) :=
  h.resolvedLeaf type (Field.ofOptions name options false) _

theorem start (h : Parallel R passing scope scope') (type : TypeDescriptor) :
    R Unit (scope.within type).start (scope'.within type).start := by
  have hname : R Unit
      (if type.isAbstract then (scope.within type).addField typenameField .none else pure ())
      (if type.isAbstract then (scope'.within type).addField typenameField .none else pure ()) :=
    ite _ (h.addField type _ _) (h.value _)
  exact h.bind (h.visit _) fun _ => ite _ (h.bind (h.addField type _ _) fun _ => hname) hname

theorem composed (h : Parallel R passing scope scope') (type : TypeDescriptor) (field : Field)
    {made made' : TypeDescriptor → Building Unit} (error : TypeDescriptor → BuildError)
    (hm : ∀ found, R Unit (made found) (made' found)) :
    R Unit ((scope.within type).composed field made error)
      ((scope'.within type).composed field made' error) :=
  h.bind (h.compositeType type _ _) fun found => h.bind (h.nested (hm found)) fun _ =>
    ite _ (h.error _) (h.pushField type _ _)

theorem addObject (h : Parallel R passing scope scope') (type : TypeDescriptor) (name : String)
    (options : FieldOptions)
    (hb : ∀ found, R Unit (body (scope.within found)) (body' (scope'.within found))) :
    R Unit ((scope.within type).addObject name options body)
      ((scope'.within type).addObject name options body') :=
  h.composed type (Field.ofOptions name options false) _ fun found =>
    h.bind (h.start found) fun _ => hb found

theorem addConnected (h : Parallel R passing scope scope') (type : TypeDescriptor)
    (hb : ∀ found, R Unit (body (scope.within found)) (body' (scope'.within found))) :
    R Unit ((scope.within type).addConnected body) ((scope'.within type).addConnected body') := by
  refine h.bind (h.addObject type _ _ fun edges => ?_) fun _ => h.addObject type _ _ fun info => ?_
  · exact h.bind (h.addField edges _ _) fun _ => h.addObject edges _ _ hb
  · exact h.bind (h.addField info _ _) fun _ => h.addField info _ _

theorem addConnection (h : Parallel R passing scope scope') (type : TypeDescriptor) (name : String)
    (options : FieldOptions)
    (hb : ∀ found, R Unit (body (scope.within found)) (body' (scope'.within found))) :
    R Unit ((scope.within type).addConnection name options body)
      ((scope'.within type).addConnection name options body') := by
  refine h.bind (h.compositeType type _ _) fun found => ite _ (h.error _) ?_
  refine h.bind (h.nested (h.bind (h.start found) fun _ => ?_)) fun _ => h.pushField type _ _
  exact h.addConnected found hb

theorem addFragmentOn (h : Parallel R passing scope scope') (type : TypeDescriptor)
    (condition : String) (hk : ∀ found, Keeps (body (scope.within found)))
    (hb : ∀ found, R Unit (body (scope.within found)) (body' (scope'.within found))) :
    R Unit ((scope.within type).addFragmentOn condition body)
      ((scope'.within type).addFragmentOn condition body') := by
  refine h.targeted type condition (fun target draft => ?_) fun target => ?_
  · have hvisited : target.name ∈
        ((Building.nested (do Building.visit target.name; body (scope.within target))).run
          draft).2.visits :=
      mem_visits_of_visit (hk target) target.name { draft with selections := [] }
    exact (visits_bind _ (fun _ => keeps_pushInlineFragment _ _) draft).subset hvisited
  · exact h.bind (h.nested (h.bind (h.visit _) fun _ => hb target)) fun _ =>
      ite _ (h.error _) (h.push _)

theorem addSpread (h : Parallel R passing scope scope') (type : TypeDescriptor)
    (fragment : Fragment) :
    R Unit ((scope.within type).addSpread fragment) ((scope'.within type).addSpread fragment) := by
  refine h.targeted type _ (fun target draft => ?_) fun target => ?_
  · exact mem_visits_of_visit (keeps_bind keeps_selections (keeps_spread fragment)) target.name draft
  · exact h.bind (h.visit _) fun _ => h.bind h.selections fun _ => ite _ (h.value _) (h.push _)

mutual
theorem addSelection (h : Parallel R passing scope scope') (type : TypeDescriptor)
    (selection : Selection) :
    R Unit ((scope.within type).addSelection selection)
      ((scope'.within type).addSelection selection) := by
  cases selection with
  | leaf field =>
    unfold Scope.addSelection
    exact h.resolvedLeaf type field _
  | composite field typeName inner =>
    unfold Scope.addSelection
    exact h.composed type field _ fun found => h.bind (h.visit _) fun _ => h.addSelections found inner
  | inlineFragment condition typeName inner =>
    unfold Scope.addSelection
    have hadd : R Unit
        ((scope.within type).addFragmentOn condition fun child => child.addSelections inner)
        ((scope'.within type).addFragmentOn condition fun child => child.addSelections inner) :=
      h.addFragmentOn type condition (fun found => keeps_addSelections (scope.within found) inner)
        fun found => h.addSelections found inner
    exact hadd
  | spread serial name condition typeName inner =>
    unfold Scope.addSelection
    exact h.addSpread type _

theorem addSelections (h : Parallel R passing scope scope') (type : TypeDescriptor)
    (selections : List Selection) :
    R Unit ((scope.within type).addSelections selections)
      ((scope'.within type).addSelections selections) := by
  cases selections with
  | nil =>
    unfold Scope.addSelections
    exact h.value ()
  | cons selection rest =>
    unfold Scope.addSelections
    exact h.bind (h.addSelection type selection) fun _ => h.addSelections type rest
end

mutual
/-- A step does in the one scope what it does in the other, as far as the relation tells. -/
theorem run (h : Parallel R passing scope scope') (type : TypeDescriptor) (step : Step)
    (hs : passing ∨ step.strict = true) :
    R Unit (step.run (scope.within type)) (step.run (scope'.within type)) := by
  cases step with
  | field name options =>
    unfold Step.run
    exact h.journaled _ _ (h.addField type name options)
  | object name options body =>
    unfold Step.run
    exact h.journaled _ _ (h.addObject type name options fun found => h.runAll found body hs)
  | connection name options body =>
    unfold Step.run
    exact h.journaled _ _ (h.addConnection type name options fun found => h.runAll found body hs)
  | fragmentOn typeName body =>
    unfold Step.run
    exact h.journaled _ _ (h.addFragmentOn type typeName (fun _ => Step.keeps_runAll _ body)
      fun found => h.runAll found body hs)
  | spread fragment =>
    unfold Step.run
    exact h.journaled _ _ (h.addSpread type fragment)
  | selection made =>
    unfold Step.run
    exact h.journaled _ _ (h.addSelection type made)
  | extend set =>
    unfold Step.run
    exact h.journaled _ _ (h.addSelections type set.selections)
  | attempt step =>
    have hpassing : passing := hs.resolve_right Bool.noConfusion
    unfold Step.run
    exact h.journaled _ _ (h.attempted hpassing step type (h.run type step (.inl hpassing)))
  | snapshot =>
    unfold Step.run
    exact h.bind h.selections fun _ => h.note _

theorem runAll (h : Parallel R passing scope scope') (type : TypeDescriptor) (steps : List Step)
    (hs : passing ∨ Step.allStrict steps = true) :
    R Unit (Step.runAll (scope.within type) steps) (Step.runAll (scope'.within type) steps) := by
  cases steps with
  | nil =>
    unfold Step.runAll
    exact h.value ()
  | cons step rest =>
    have hsteps : passing ∨ (step.strict = true ∧ Step.allStrict rest = true) :=
      hs.imp_right fun hs => by simpa [Step.allStrict] using hs
    unfold Step.runAll
    exact h.bind (h.run type step (hsteps.imp_right And.left)) fun _ =>
      h.runAll type rest (hsteps.imp_right And.right)
end

/-- A whole program, from the start of its set. -/
theorem program (h : Parallel R passing scope scope') (type : TypeDescriptor) (steps : List Step)
    (hs : passing ∨ Step.allStrict steps = true) :
    R Unit
      (do
        (scope.within type).start
        Step.runAll (scope.within type) steps)
      (do
        (scope'.within type).start
        Step.runAll (scope'.within type) steps) :=
  h.bind (h.start type) fun _ => h.runAll type steps hs

end Parallel

end Scope

end GraphQLClient
