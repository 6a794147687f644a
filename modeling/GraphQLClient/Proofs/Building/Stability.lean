import GraphQLClient.Proofs.Building.Revalidation

set_option autoImplicit false

/-!
# Finished sets come out as they went in

Whatever a builder ends up with, another builder on the same scope takes it and ends up with the same,
and so it is with every set below. A set that was begun with what its type asks for may also be added
to a set that was begun so.
-/

namespace GraphQLClient

open Building

namespace Scope

/-- Begins a set: a new one with what its type asks for, a bare one with nothing. -/
def enter (scope : Scope) (new : Bool) : Building Unit :=
  if new then scope.start else visit scope.type.name

/-- What a set holds once it is begun. -/
def begun (scope : Scope) (new : Bool) : List Selection := if new then scope.opening else []

/-- A builder on the scope, somewhere in the course of a build, runs a program and ends up with the
set. -/
def Finishes (scope : Scope) (new : Bool) (program : List Step) (before : Draft)
    (set : SelectionSet) : Prop :=
  set.typeName = scope.type.name ∧
    ((nested (do scope.enter new; Step.runAll scope program)).run before).1 = .ok set.selections

/-- The set `below` is the given set on the scope or stands below a field or an inline fragment in it,
and `child` is the scope that it is on. -/
inductive Contains : Scope → SelectionSet → Scope → SelectionSet → Prop
  | self (scope : Scope) (set : SelectionSet) : Contains scope set scope set
  | field {scope child : Scope} {set below : SelectionSet} {field : Field} {typeName : String}
      {inner : List Selection} {type : TypeDescriptor}
      (selected : .composite field typeName inner ∈ set.selections)
      (returned : scope.typeOf? field.name = some type)
      (deeper : Contains (scope.within type) ⟨typeName, inner⟩ child below) :
      Contains scope set child below
  | inlineFragment {scope child : Scope} {set below : SelectionSet} {condition typeName : String}
      {inner : List Selection} {target : TypeDescriptor}
      (selected : .inlineFragment condition typeName inner ∈ set.selections)
      (found : scope.bundle.get? condition = some target)
      (deeper : Contains (scope.within target) ⟨typeName, inner⟩ child below) :
      Contains scope set child below

variable {scope : Scope} {new : Bool}

theorem runs_enter :
    Runs [] (scope.enter new) (fun _ s => (new = true → scope.Opens) ∧ s = scope.begun new)
      (fun _ _ => ¬ (new = true → scope.Opens)) := by
  cases new with
  | true => exact runs_mono runs_start (fun _ _ h => ⟨fun _ => h.1, h.2⟩) (fun _ _ h hn => h (hn rfl))
  | false =>
    have hvisit : Runs [] (visit scope.type.name) (fun _ s => s = []) (fun _ _ => False) := runs_visit _
    exact runs_mono hvisit (fun _ _ h => ⟨nofun, h⟩) (fun _ _ h => h.elim)

/-- What holds of all that a program leads to holds of what a builder ends up with. -/
theorem Finishes.of_runs {program : List Step} {before : Draft} {set : SelectionSet}
    {Q : List Selection → Prop} {E : BuildError → List Selection → Prop}
    (h : scope.Finishes new program before set)
    (hrun : (new = true → scope.Opens) →
      Runs (scope.begun new) (Step.runAll scope program) (fun _ s => Q s) E) : Q set.selections := by
  have hbody : Runs [] (do scope.enter new; Step.runAll scope program) (fun _ s => Q s)
      (fun _ _ => True) := by
    refine runs_bind (runs_mono runs_enter (fun _ _ h => h) (fun _ _ _ => trivial)) ?_
    rintro _ _ ⟨ho, rfl⟩
    exact runs_mono (hrun ho) (fun _ _ h => h) (fun _ _ _ => trivial)
  have hnested := runs_nested hbody before rfl
  have hresult := h.2
  rcases hr : (nested (do scope.enter new; Step.runAll scope program)).run before with ⟨e | inner, after⟩
  · rw [hr] at hresult
    cases hresult
  · rw [hr] at hresult
    simp only [hr] at hnested
    obtain rfl := Except.ok.inj hresult
    exact hnested.1

/-- A builder that begins a set can add selections which lead to exactly one end. -/
theorem finishes_extend {set : SelectionSet} (hname : set.typeName = scope.type.name)
    (ho : new = true → scope.Opens)
    (hr : scope.RebuildsAll set.selections (scope.begun new) set.selections) (before : Draft) :
    scope.Finishes new [.extend set] before set := by
  have hextend : Runs (scope.begun new) (Step.run scope (.extend set))
      (fun _ s => s = set.selections) (fun _ _ => False) := by
    refine runs_journaled (runs_mono (runs_addSelections scope set.selections _) ?_ ?_)
    · exact fun _ _ h => RebuildsAll.unique h hr
    · exact fun _ _ h => h.1 _ hr
  have hbody : Runs [] (do scope.enter new; Step.runAll scope [.extend set])
      (fun _ s => s = set.selections) (fun _ _ => False) := by
    refine runs_bind (runs_mono runs_enter (fun _ _ h => h) (fun _ _ h => h ho)) ?_
    rintro _ _ ⟨-, rfl⟩
    unfold Step.runAll
    refine runs_bind hextend ?_
    rintro _ _ rfl
    unfold Step.runAll
    exact runs_pure rfl
  have hnested := runs_nested hbody before rfl
  refine ⟨hname, ?_⟩
  rcases hrun : (nested (do scope.enter new; Step.runAll scope [.extend set])).run before with
    ⟨e | inner, after⟩
  · simp only [hrun] at hnested
    exact hnested.1.elim fun _ h => h.elim
  · simp only [hrun] at hnested
    exact congrArg Except.ok hnested.1

end Scope

namespace Grown

variable {raw : Prop} {shared : Fragment → Prop} {scope : Scope} {selections : List Selection}

/-- A scope makes of a set what it was. -/
theorem rebuildsAll (h : Grown raw shared scope selections) :
    scope.RebuildsAll selections [] selections := by
  have hfits : ∀ {before : List Selection} {key : String} {selection : Selection},
      before.find? (Selection.answers key) = none → Selection.Fits before key selection := by
    intro before key selection hfree found hfound
    rw [hfree] at hfound
    cases hfound
  induction h with
  | nil scope =>
    unfold Scope.RebuildsAll
    rfl
  | @leaf scope before field grown plain offered free ih =>
    refine Scope.rebuildsAll_append.2 ⟨before, ih, Scope.rebuildsAll_singleton.2 ?_⟩
    unfold Scope.Rebuilds
    exact ⟨⟨offered, hfits free⟩, (Selection.settled_of_find?_eq_none free).symm⟩
  | @composite scope before field type inner grown offered below nonempty furnished free ih ihBelow =>
    refine Scope.rebuildsAll_append.2 ⟨before, ih, Scope.rebuildsAll_singleton.2 ?_⟩
    unfold Scope.Rebuilds
    exact ⟨type, inner, ⟨offered, nonempty, hfits free⟩, ihBelow,
      (Selection.settled_of_find?_eq_none free).symm⟩
  | @inlineFragment scope before condition target inner grown admitted below nonempty ih ihBelow =>
    refine Scope.rebuildsAll_append.2 ⟨before, ih, Scope.rebuildsAll_singleton.2 ?_⟩
    unfold Scope.Rebuilds
    exact ⟨target, inner, admitted.name, ihBelow, nonempty, rfl⟩
  | @spread scope before fragment target grown admitted known free ih =>
    refine Scope.rebuildsAll_append.2 ⟨before, ih, Scope.rebuildsAll_singleton.2 ?_⟩
    change Scope.Rebuilds scope (.spread _ _ _ _ _) _ _
    unfold Scope.Rebuilds
    refine ⟨⟨target, admitted⟩, ?_⟩
    rw [Scope.spreadBeside, if_neg (by rw [free]; exact Bool.false_ne_true)]

/-- The scope offers the selection, and the set below it was grown on what the selection leads to. -/
def Part (raw : Prop) (shared : Fragment → Prop) (scope : Scope) : Selection → Prop
  | .leaf field => scope.OffersLeaf field.name field.arguments
  | .composite field typeName inner =>
    ∃ type, scope.OffersObject field.name field.arguments type ∧ typeName = type.name ∧
      Grown raw shared (scope.within type) inner
  | .inlineFragment condition typeName inner =>
    ∃ target, scope.Admits condition target ∧ typeName = target.name ∧
      Grown raw shared (scope.within target) inner
  | .spread .. => True

theorem of_mem {selection : Selection} (h : Grown raw shared scope selections)
    (hm : selection ∈ selections) : Part raw shared scope selection := by
  induction h with
  | nil => cases hm
  | leaf grown plain offered free ih =>
    rcases List.mem_append.1 hm with hm | hm
    · exact ih hm
    · obtain rfl := List.mem_singleton.1 hm
      exact offered
  | composite grown offered below nonempty furnished free ih =>
    rcases List.mem_append.1 hm with hm | hm
    · exact ih hm
    · obtain rfl := List.mem_singleton.1 hm
      exact ⟨_, offered, rfl, below⟩
  | inlineFragment grown admitted below nonempty ih =>
    rcases List.mem_append.1 hm with hm | hm
    · exact ih hm
    · obtain rfl := List.mem_singleton.1 hm
      exact ⟨_, admitted.name, rfl, below⟩
  | spread grown admitted known free ih =>
    rcases List.mem_append.1 hm with hm | hm
    · exact ih hm
    · obtain rfl := List.mem_singleton.1 hm
      trivial

theorem opens_of_opening (h : Grown raw shared scope selections)
    (hp : scope.opening <+: selections) : scope.Opens := by
  intro hid
  have hm : Selection.leaf (.plain "id") ∈ selections := by
    refine hp.subset ?_
    rw [Scope.opening, if_pos hid]
    exact List.mem_cons_self
  exact h.of_mem hm

/-- A set that begins with what its type asks for is also made from a set that is begun so. -/
theorem rebuildsAll_opened (h : Grown raw shared scope selections)
    (hp : scope.opening <+: selections) :
    scope.RebuildsAll selections scope.opening selections := by
  have hopens := h.opens_of_opening hp
  have hopening : Grown raw shared scope scope.opening := .opening hopens
  have hself := h.rebuildsAll
  obtain ⟨rest, rfl⟩ := hp
  obtain ⟨between, hfirst, hrest⟩ := Scope.rebuildsAll_append.1 hself
  obtain rfl := Scope.RebuildsAll.unique hopening.rebuildsAll hfirst
  exact Scope.rebuildsAll_append.2 ⟨_, Scope.rebuildsAll_opening hopens, hrest⟩

/-- The sets in a grown set were grown, each on the type that its field returns or its fragment is on. -/
theorem of_contains {set below : SelectionSet} {child : Scope} (hc : scope.Contains set child below)
    (hname : set.typeName = scope.type.name) (h : Grown raw shared scope set.selections) :
    below.typeName = child.type.name ∧ Grown raw shared child below.selections := by
  induction hc with
  | self => exact ⟨hname, h⟩
  | field selected returned deeper ih =>
    obtain ⟨type, offered, rfl, hinner⟩ := h.of_mem selected
    obtain rfl := Option.some.inj (returned.symm.trans offered.1.typeOf?)
    exact ih rfl hinner
  | inlineFragment selected found deeper ih =>
    obtain ⟨target, admitted, rfl, hinner⟩ := h.of_mem selected
    obtain rfl := Option.some.inj (found.symm.trans admitted.1)
    exact ih rfl hinner

end Grown

namespace Scope

variable {scope : Scope} {new : Bool} {program : List Step} {before : Draft} {set : SelectionSet}

theorem Finishes.grown (h : scope.Finishes new program before set) :
    Grown.From True (fun _ => True) scope (scope.begun new) set.selections := by
  refine h.of_runs fun ho => Grown.runs_steps (fun _ _ => trivial) (.inl trivial) ?_
  cases new with
  | true => exact .opening (ho rfl)
  | false => exact .nil scope

/-- The set of an operation or of a fragment is what a new builder ends up with. -/
theorem finishes_of_buildSet (h : (OperationDraft.buildSet scope program).result = .ok set) :
    scope.Finishes true program .empty set := by
  have hname := (OperationDraft.freelyGrown_of_buildSet h).1
  refine ⟨hname, ?_⟩
  change Except.map (fun _ => ((do scope.start; Step.runAll scope program : Building Unit).run
    Draft.empty).2.selections) ((do scope.start; Step.runAll scope program : Building Unit).run
    Draft.empty).1 = _
  unfold OperationDraft.buildSet at h
  rcases hr : (do scope.start; Step.runAll scope program : Building Unit).run Draft.empty with
    ⟨e | _, after⟩
  · simp only [hr] at h
    cases h
  · simp only [hr] at h
    by_cases hempty : after.selections.isEmpty = true
    · rw [if_pos hempty] at h
      cases h
    · rw [if_neg hempty] at h
      obtain rfl := Except.ok.inj h
      rfl

/-- A bare builder takes a grown set as it is. -/
theorem finishes_bare {raw : Prop} {shared : Fragment → Prop}
    (hname : set.typeName = scope.type.name) (h : Grown raw shared scope set.selections)
    (again : Draft) : scope.Finishes false [.extend set] again set :=
  finishes_extend hname (fun hn => absurd hn Bool.false_ne_true) h.rebuildsAll again

/-- A new builder takes a grown set as it is if the set begins with what its type asks for. -/
theorem finishes_new {raw : Prop} {shared : Fragment → Prop}
    (hname : set.typeName = scope.type.name) (h : Grown raw shared scope set.selections)
    (hp : scope.opening <+: set.selections) (again : Draft) :
    scope.Finishes true [.extend set] again set := by
  have hrebuilt : scope.RebuildsAll set.selections (scope.begun true) set.selections :=
    h.rebuildsAll_opened hp
  exact finishes_extend hname (fun _ => h.opens_of_opening hp) hrebuilt again

end Scope

/-- The sets of operations and of fragments are sets that new builders end up with. A set that some
builder ends up with, in whatever build, comes out unchanged of a builder of the same kind and of a
bare one, and the sets at any depth below come out unchanged too. -/
theorem Bundle.finished_sets_stable (bundle : Bundle) :
    (∀ (draft : OperationDraft) (operation : Operation),
      (draft.build bundle).result = .ok operation →
        ∃ scope, draft.scope bundle = .ok scope ∧
          scope.Finishes true draft.program .empty operation.set) ∧
    (∀ (document : DocumentDraft) (serial : Nat) (draft : FragmentDraft) (fragment : Fragment),
      document.bundle = bundle → (document.buildFragment serial draft).result = .ok fragment →
        ∃ target, bundle.get? draft.typeName = some target ∧
          Scope.Finishes ⟨bundle, [], target⟩ true draft.program .empty fragment.set) ∧
    ∀ (scope : Scope) (new : Bool) (program : List Step) (before : Draft) (set : SelectionSet),
      scope.Finishes new program before set → ∀ again : Draft,
        (new = true → scope.opening <+: set.selections ∧
          scope.Finishes true [.extend set] again set) ∧
        ∀ (child : Scope) (below : SelectionSet), scope.Contains set child below →
          child.Finishes false [.extend below] again below ∧
          (child.opening <+: below.selections →
            child.Finishes true [.extend below] again below) := by
  refine ⟨?_, ?_, ?_⟩
  · intro draft operation h
    obtain ⟨scope, set, hscope, hset, rfl⟩ := OperationDraft.build_eq_ok h
    exact ⟨scope, hscope, Scope.finishes_of_buildSet hset⟩
  · rintro document serial draft fragment rfl h
    obtain ⟨target, set, ht, -, -, hset, rfl⟩ := DocumentDraft.buildFragment_eq_ok h
    exact ⟨target, ht, Scope.finishes_of_buildSet hset⟩
  · intro scope new program before set h again
    obtain ⟨hgrown, hbegins⟩ := h.grown
    refine ⟨?_, fun child below hc => ?_⟩
    · rintro rfl
      exact ⟨hbegins, Scope.finishes_new h.1 hgrown hbegins again⟩
    · obtain ⟨hname, hbelow⟩ := Grown.of_contains hc h.1 hgrown
      exact ⟨Scope.finishes_bare hname hbelow again,
        fun hp => Scope.finishes_new hname hbelow hp again⟩

/-- The operation of the sample is built again from its own set. -/
theorem sample_set_stable :
    ∃ scope, sampleDraft.scope sampleBundle = .ok scope ∧
      scope.Finishes true [.extend (sampleDraft.built sampleBundle).set] .empty
        (sampleDraft.built sampleBundle).set := by
  obtain ⟨hbuilt, -, hstable⟩ := sampleBundle.finished_sets_stable
  obtain ⟨scope, hscope, hset⟩ := hbuilt _ _ sampleDraft_built
  exact ⟨scope, hscope, ((hstable scope true _ _ _ hset .empty).1 rfl).2⟩

end GraphQLClient
