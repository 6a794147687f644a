import GraphQLClient.Building.Operation
import GraphQLClient.Proofs.Building.Rebuilding

set_option autoImplicit false

/-!
# How programs grow selection sets

`Grown raw shared scope s` is the invariant of every program on `scope`: the set `s` came about one
selection at a time, each of which the scope admits beside those before it. `shared` holds of the
fragments that are spread. Without raw selections every composite field starts with the opening of
its type and connections have the one shape that the builder gives them; with `raw` neither is known.
Steps that fail keep the invariant too.
-/

namespace GraphQLClient

open Building

mutual
/-- The fragments spread in a selection, not looking into the bodies of fragments. -/
def Selection.spreadFragments : Selection → List Fragment
  | .leaf _ => []
  | .composite _ _ selections => spreadFragmentsOfAll selections
  | .inlineFragment _ _ selections => spreadFragmentsOfAll selections
  | .spread serial name condition typeName selections =>
    [⟨serial, name, condition, ⟨typeName, selections⟩⟩]

def Selection.spreadFragmentsOfAll : List Selection → List Fragment
  | [] => []
  | selection :: rest => selection.spreadFragments ++ spreadFragmentsOfAll rest
end

namespace Step

mutual
/-- The fragments that a step may spread. -/
def fragments : Step → List Fragment
  | .object _ _ body => fragmentsOfAll body
  | .connection _ _ body => fragmentsOfAll body
  | .fragmentOn _ body => fragmentsOfAll body
  | .spread fragment => [fragment]
  | .selection made => made.spreadFragments
  | .extend set => Selection.spreadFragmentsOfAll set.selections
  | .attempt step => fragments step
  | .field _ _ => []
  | .snapshot => []

def fragmentsOfAll : List Step → List Fragment
  | [] => []
  | step :: rest => fragments step ++ fragmentsOfAll rest
end

mutual
/-- A step that adds no finished selections. -/
def guided : Step → Bool
  | .object _ _ body => allGuided body
  | .connection _ _ body => allGuided body
  | .fragmentOn _ body => allGuided body
  | .selection _ => false
  | .extend _ => false
  | .attempt step => guided step
  | .field _ _ => true
  | .spread _ => true
  | .snapshot => true

def allGuided : List Step → Bool
  | [] => true
  | step :: rest => guided step && allGuided rest
end

theorem runs_snapshot {scope : Scope} {before : List Selection}
    {E : BuildError → List Selection → Prop} :
    Runs before (run scope .snapshot) (fun _ s => s = before) E := by
  unfold run
  refine runs_bind runs_selections ?_
  rintro _ _ ⟨rfl, rfl⟩
  exact runs_note _

end Step

namespace Scope

/-- What the builder puts into the set of a composite field besides what it is asked for. -/
def Furnishes (child : Scope) (field : Field) (inner : List Selection) : Prop :=
  child.opening <+: inner ∧
    (field.connection = true → ∃ edges node info nodes, child.Connects edges node info ∧
      inner = child.connectionSet edges node info nodes)

end Scope

inductive Grown (raw : Prop) (shared : Fragment → Prop) : Scope → List Selection → Prop
  | nil (scope : Scope) : Grown raw shared scope []
  | leaf {scope : Scope} {before : List Selection} {field : Field}
      (grown : Grown raw shared scope before)
      (plain : raw ∨ field.connection = false)
      (offered : scope.OffersLeaf field.name field.arguments)
      (free : before.find? (Selection.answers field.responseKey) = none) :
      Grown raw shared scope (before ++ [.leaf field])
  | composite {scope : Scope} {before : List Selection} {field : Field} {type : TypeDescriptor}
      {inner : List Selection}
      (grown : Grown raw shared scope before)
      (offered : scope.OffersObject field.name field.arguments type)
      (below : Grown raw shared (scope.within type) inner)
      (nonempty : inner ≠ [])
      (furnished : raw ∨ (scope.within type).Furnishes field inner)
      (free : before.find? (Selection.answers field.responseKey) = none) :
      Grown raw shared scope (before ++ [.composite field type.name inner])
  | inlineFragment {scope : Scope} {before : List Selection} {condition : String}
      {target : TypeDescriptor} {inner : List Selection}
      (grown : Grown raw shared scope before)
      (admitted : scope.Admits condition target)
      (below : Grown raw shared (scope.within target) inner)
      (nonempty : inner ≠ []) :
      Grown raw shared scope (before ++ [.inlineFragment target.name target.name inner])
  | spread {scope : Scope} {before : List Selection} {fragment : Fragment}
      {target : TypeDescriptor}
      (grown : Grown raw shared scope before)
      (admitted : scope.Admits fragment.condition target)
      (known : shared fragment)
      (free : before.any (Scope.spreads fragment.name) = false) :
      Grown raw shared scope (before ++ [.ofFragment fragment])

namespace Grown

variable {raw : Prop} {shared : Fragment → Prop} {scope : Scope} {before after : List Selection}

/-- The selections `after` were grown from `before`. -/
def From (raw : Prop) (shared : Fragment → Prop) (scope : Scope) (before after : List Selection) :
    Prop :=
  Grown raw shared scope after ∧ before <+: after

theorem From.refl (h : Grown raw shared scope before) : From raw shared scope before before :=
  ⟨h, List.prefix_rfl⟩

theorem From.trans {between : List Selection} (h : From raw shared scope before between)
    (h' : From raw shared scope between after) : From raw shared scope before after :=
  ⟨h'.1, h.2.trans h'.2⟩

theorem settled {key : String} {selection : Selection} (hb : Grown raw shared scope before)
    (hs : before.find? (Selection.answers key) = none →
      Grown raw shared scope (before ++ [selection])) :
    From raw shared scope before (Selection.settled before key selection) := by
  unfold Selection.settled
  cases hf : before.find? (Selection.answers key) with
  | none => exact ⟨hs hf, List.prefix_append _ _⟩
  | some found => exact From.refl hb

theorem settledLeaf {field : Field} (hb : Grown raw shared scope before)
    (hp : raw ∨ field.connection = false) (ht : scope.TakesLeaf before field) :
    From raw shared scope before (Selection.settled before field.responseKey (.leaf field)) :=
  settled hb fun free => .leaf hb hp ht.1 free

theorem settledComposite {field : Field} {type : TypeDescriptor} {inner : List Selection}
    (hb : Grown raw shared scope before) (ht : scope.Takes before field type inner)
    (hi : Grown raw shared (scope.within type) inner)
    (hf : raw ∨ (scope.within type).Furnishes field inner) :
    From raw shared scope before
      (Selection.settled before field.responseKey (.composite field type.name inner)) :=
  settled hb fun free => .composite hb ht.1 hi ht.2.1 hf free

theorem spreadBeside {fragment : Fragment} {target : TypeDescriptor}
    (hb : Grown raw shared scope before) (ha : scope.Admits fragment.condition target)
    (hk : shared fragment) :
    From raw shared scope before (Scope.spreadBeside before fragment) := by
  unfold Scope.spreadBeside
  cases hs : before.any (Scope.spreads fragment.name) with
  | true => exact From.refl hb
  | false => exact ⟨.spread hb ha hk hs, List.prefix_append _ _⟩

theorem opening (ho : scope.Opens) : Grown raw shared scope scope.opening := by
  have hid : Grown raw shared scope
      (if scope.type.implementsNode && (scope.type.field? "id").isSome then
        [.leaf (.plain "id")] else []) := by
    split
    · rename_i h
      exact .leaf (.nil scope) (.inr rfl) (ho h) rfl
    · exact .nil scope
  unfold Scope.opening
  by_cases ha : scope.type.isAbstract = true
  · rw [if_pos ha]
    refine .leaf hid (.inr rfl) (.inl ⟨rfl, rfl⟩) ?_
    split <;> rfl
  · rw [if_neg ha, List.append_nil]
    exact hid

theorem connectionSet {edges node info : TypeDescriptor} {nodes : List Selection}
    (hc : scope.Connects edges node info) (hn : Grown raw shared (scope.within node) nodes)
    (hne : nodes ≠ []) (hp : (scope.within node).opening <+: nodes) :
    Grown raw shared scope (scope.connectionSet edges node info nodes) := by
  have hplain : ∀ (child : Scope) (name : String) (inner : List Selection),
      child.opening <+: inner → raw ∨ child.Furnishes (.plain name) inner :=
    fun child name inner h => .inr ⟨h, fun hf => by cases hf⟩
  have hcursor : Grown raw shared (scope.within edges)
      ((scope.within edges).opening ++ [.leaf (.plain "cursor")]) :=
    .leaf (opening hc.edgesOpens) (.inr rfl) hc.offersCursor
      (Scope.find?_opening (by decide) (by decide))
  have hedge : Grown raw shared (scope.within edges) (((scope.within edges).opening ++
      [.leaf (.plain "cursor")]) ++ [.composite (.plain "node") node.name nodes]) :=
    .composite hcursor hc.offersNode hn hne (hplain _ _ _ hp) (Scope.find?_second (by decide) (by decide) rfl)
  have hnext : Grown raw shared (scope.within info)
      ((scope.within info).opening ++ [.leaf (.plain "hasNextPage")]) :=
    .leaf (opening hc.infoOpens) (.inr rfl) hc.offersNext
      (Scope.find?_opening (by decide) (by decide))
  have hinfo : Grown raw shared (scope.within info) (((scope.within info).opening ++
      [.leaf (.plain "hasNextPage")]) ++ [.leaf (.plain "hasPreviousPage")]) :=
    .leaf hnext (.inr rfl) hc.offersPrevious (Scope.find?_second (by decide) (by decide) rfl)
  rw [List.append_assoc] at hedge hinfo
  have hedges : Grown raw shared scope (scope.opening ++ [.composite (.plain "edges") edges.name _]) :=
    .composite (opening hc.opens) hc.offersEdges hedge (by simp)
      (hplain _ _ _ (List.prefix_append _ _)) (Scope.find?_opening (by decide) (by decide))
  have hset : Grown raw shared scope ((scope.opening ++ [_]) ++
      [.composite (.plain "pageInfo") info.name _]) :=
    .composite hedges hc.offersInfo hinfo (by simp) (hplain _ _ _ (List.prefix_append _ _))
      (Scope.find?_second (by decide) (by decide) rfl)
  rw [List.append_assoc] at hset
  exact hset

mutual
theorem of_rebuilds {selection : Selection} {scope : Scope} {before after : List Selection}
    (hs : ∀ fragment ∈ selection.spreadFragments, shared fragment)
    (hb : Grown True shared scope before) (h : scope.Rebuilds selection before after) :
    From True shared scope before after := by
  cases selection with
  | leaf field =>
    unfold Scope.Rebuilds at h
    obtain ⟨ht, rfl⟩ := h
    exact settledLeaf hb (.inl trivial) ht
  | composite field typeName selections =>
    unfold Scope.Rebuilds at h
    obtain ⟨type, inner, ht, hi, rfl⟩ := h
    have hinner := of_rebuildsAll hs (.nil (scope.within type)) hi
    exact settledComposite hb ht hinner.1 (.inl trivial)
  | inlineFragment condition typeName selections =>
    unfold Scope.Rebuilds at h
    obtain ⟨target, inner, ha, hi, hne, rfl⟩ := h
    have hinner := of_rebuildsAll hs (.nil (scope.within target)) hi
    exact ⟨.inlineFragment hb ha hinner.1 hne, List.prefix_append _ _⟩
  | spread serial name condition typeName selections =>
    unfold Scope.Rebuilds at h
    obtain ⟨⟨target, ha⟩, rfl⟩ := h
    exact spreadBeside hb ha (hs _ List.mem_cons_self)

theorem of_rebuildsAll {selections : List Selection} {scope : Scope} {before after : List Selection}
    (hs : ∀ fragment ∈ Selection.spreadFragmentsOfAll selections, shared fragment)
    (hb : Grown True shared scope before) (h : scope.RebuildsAll selections before after) :
    From True shared scope before after := by
  cases selections with
  | nil =>
    unfold Scope.RebuildsAll at h
    rw [h]
    exact From.refl hb
  | cons selection rest =>
    unfold Scope.RebuildsAll at h
    obtain ⟨between, hfirst, hrest⟩ := h
    have hbetween := of_rebuilds (fun f hf => hs f (List.mem_append_left _ hf)) hb hfirst
    exact hbetween.trans
      (of_rebuildsAll (fun f hf => hs f (List.mem_append_right _ hf)) hbetween.1 hrest)
end

theorem mem_spreadFragmentsOfAll_mono {done selections : List Selection}
    (h : done <+: selections) {fragment : Fragment}
    (hf : fragment ∈ Selection.spreadFragmentsOfAll done) :
    fragment ∈ Selection.spreadFragmentsOfAll selections := by
  obtain ⟨rest, rfl⟩ := h
  induction done with
  | nil => cases hf
  | cons selection done ih =>
    rcases List.mem_append.1 hf with hf | hf
    · exact List.mem_append_left _ hf
    · exact List.mem_append_right _ (ih hf)

theorem runs_journaled_from {kind : StepKind} {typeName : String} {body : Building Unit}
    (h : Runs before body (fun _ s => From raw shared scope before s)
      (fun _ s => From raw shared scope before s)) :
    Runs before (journaled kind typeName body) (fun _ s => From raw shared scope before s)
      (fun _ s => From raw shared scope before s) :=
  runs_journaled h

mutual
/-- A step keeps the invariant, whether it ends with an error or not. -/
theorem runs_step {step : Step} {scope : Scope} {before : List Selection}
    (hs : ∀ fragment ∈ step.fragments, shared fragment) (hr : raw ∨ step.guided = true)
    (hb : Grown raw shared scope before) :
    Runs before (step.run scope) (fun _ s => From raw shared scope before s)
      (fun _ s => From raw shared scope before s) := by
  have hkept : ∀ {s : List Selection}, s = before → From raw shared scope before s := by
    rintro s rfl
    exact From.refl hb
  cases step with
  | field name options =>
    refine runs_journaled_from (runs_mono (scope.runs_addField name options) ?_
      fun _ _ h => hkept h.2)
    rintro _ _ ⟨ht, rfl⟩
    exact settledLeaf hb (.inr rfl) ht
  | object name options body =>
    refine runs_journaled_from (runs_mono (scope.runs_addObject
      (B := fun type inner => From raw shared (scope.within type) (scope.within type).opening inner)
      (F := fun _ _ _ => True) ?_) ?_ fun _ _ h => hkept h.1)
    · intro type _ ho
      exact runs_mono (runs_steps hs hr (opening ho)) (fun _ _ h => h) (fun _ _ _ => trivial)
    · rintro _ _ ⟨type, inner, ht, -, hi, rfl⟩
      exact settledComposite hb ht hi.1 (.inr ⟨hi.2, fun hf => by cases hf⟩)
  | connection name options body =>
    refine runs_journaled_from (runs_mono (scope.runs_addConnection
      (B := fun node nodes =>
        From raw shared (scope.within node) (scope.within node).opening nodes) ?_) ?_
      fun _ _ h => hkept h)
    · intro node ho
      exact runs_mono (runs_steps hs hr (opening ho)) (fun _ _ h => h) (fun _ _ _ => trivial)
    · rintro _ _ ⟨type, edges, node, info, nodes, hc, hne, hn, ht, rfl⟩
      refine settledComposite hb ht (connectionSet hc hn.1 hne hn.2) (.inr ⟨?_, fun _ => ?_⟩)
      · exact List.prefix_append _ _
      · exact ⟨edges, node, info, nodes, hc, rfl⟩
  | fragmentOn typeName body =>
    refine runs_journaled_from (runs_mono (scope.runs_fragment
      (B := fun target inner => From raw shared (scope.within target) [] inner)
      (F := fun _ _ _ => True) ?_) ?_ fun _ _ h => hkept h.1)
    · intro target _
      exact runs_mono (runs_steps hs hr (.nil (scope.within target))) (fun _ _ h => h) (fun _ _ _ => trivial)
    · rintro _ _ ⟨target, inner, ha, hi, hne, rfl⟩
      exact ⟨.inlineFragment hb ha hi.1 hne, List.prefix_append _ _⟩
  | spread fragment =>
    refine runs_journaled_from (runs_mono (scope.runs_addSpread fragment) ?_
      fun _ _ h => hkept h.2)
    rintro _ _ ⟨⟨target, ha⟩, rfl⟩
    exact spreadBeside hb ha (hs _ List.mem_cons_self)
  | selection made =>
    obtain rfl : raw = True := eq_true (hr.resolve_right Bool.noConfusion)
    exact runs_journaled_from (runs_mono (scope.runs_addSelection made before)
      (fun _ _ h => of_rebuilds hs hb h) fun _ _ h => hkept h.2)
  | extend set =>
    obtain rfl : raw = True := eq_true (hr.resolve_right Bool.noConfusion)
    refine runs_journaled_from (runs_mono (scope.runs_addSelections set.selections before) ?_ ?_)
    · intro _ after h
      exact of_rebuildsAll hs hb h
    · rintro _ after ⟨-, done, hd, h⟩
      exact of_rebuildsAll (fun f hf => hs f (mem_spreadFragmentsOfAll_mono hd hf)) hb h
  | attempt step =>
    have hstep : Runs before (step.run scope) (fun _ s => From raw shared scope before s)
        (fun _ s => From raw shared scope before s) := runs_step hs hr hb
    refine runs_journaled_from (runs_bind (runs_mono (runs_caught hstep) (fun _ _ h => h)
      (fun _ _ h => h.elim)) ?_)
    intro error after h
    refine runs_pure ?_
    cases error <;> exact h
  | snapshot =>
    exact runs_mono Step.runs_snapshot (fun _ _ h => hkept h) fun _ _ h => h

theorem runs_steps {steps : List Step} {scope : Scope} {before : List Selection}
    (hs : ∀ fragment ∈ Step.fragmentsOfAll steps, shared fragment)
    (hr : raw ∨ Step.allGuided steps = true) (hb : Grown raw shared scope before) :
    Runs before (Step.runAll scope steps) (fun _ s => From raw shared scope before s)
      (fun _ s => From raw shared scope before s) := by
  cases steps with
  | nil =>
    unfold Step.runAll
    exact runs_pure (From.refl hb)
  | cons step rest =>
    have hguided : raw ∨ (step.guided = true ∧ Step.allGuided rest = true) :=
      hr.imp_right fun h => by simpa [Step.allGuided] using h
    unfold Step.runAll
    refine runs_bind (runs_step (fun f hf => hs f (List.mem_append_left _ hf))
      (hguided.imp_right And.left) hb) ?_
    intro _ between h
    refine runs_mono (runs_steps (fun f hf => hs f (List.mem_append_right _ hf))
      (hguided.imp_right And.right) h.1) ?_ ?_
    · exact fun _ _ h' => h.trans h'
    · exact fun _ _ h' => h.trans h'
end

end Grown

end GraphQLClient
