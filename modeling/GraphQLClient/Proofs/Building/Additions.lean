import GraphQLClient.Proofs.Building.Documents
import GraphQLClient.Proofs.Building.Making
import GraphQLClient.Proofs.Building.Omissions

set_option autoImplicit false

/-!
# What a step asked for is there

A field that a step asks for stands among the selections when the step ends well, or the same field
stood there before; a different field under its key is an error. Of the spreads of one name only the
first is kept, whatever fragments the others mean. So nothing that was asked for is missing, at any
depth of a finished selection, as long as the spreads of one name that come together in one set mean
one fragment.
-/

namespace GraphQLClient

namespace Selection

/-- The one selection is the other, or is the same. -/
def Matches (a b : Selection) : Prop := a = b ∨ a.same b = true

/-- The selection, or the same one, is among the others. -/
def Stands (selections : List Selection) (made : Selection) : Prop :=
  ∃ selection ∈ selections, selection.Matches made

theorem Matches.of_same {a b c : Selection} (h : a.same b = true) (h' : b.Matches c) :
    a.Matches c := by
  rcases h' with rfl | h'
  · exact .inr h
  · exact .inr (same_trans h h')

theorem Stands.mono {before after : List Selection} {made : Selection} (hs : before ⊆ after)
    (h : Stands before made) : Stands after made := by
  obtain ⟨selection, hmem, hm⟩ := h
  exact ⟨selection, hs hmem, hm⟩

/-- A field that fits stands there once it is put beside the others. -/
theorem stands_beside {before : List Selection} {made : Selection}
    (hf : ∀ key, made.key? = some key → Fits before key made) (hs : made.spreadName? = none) :
    Stands (beside before made) made := by
  rcases beside_cases before made with h | ⟨h, hsuperfluous⟩ <;> rw [h]
  · exact ⟨made, by simp, .inl rfl⟩
  · cases hsuperfluous with
    | field keyed there =>
      exact ⟨_, List.mem_of_find?_eq_some there, .inr (hf _ keyed _ there)⟩
    | spread named there =>
      rw [hs] at named
      cases named

/-- Of the spreads of one name the first is the one that counts. -/
theorem find?_spreads_beside (before : List Selection) (made : Selection) (name : String) :
    (beside before made).find? (Scope.spreads name) =
      (before ++ [made]).find? (Scope.spreads name) := by
  rcases beside_cases before made with h | ⟨h, hsuperfluous⟩ <;> rw [h]
  rw [List.find?_append]
  by_cases hspreads : Scope.spreads name made = true
  · have hname := spreads_iff.1 hspreads
    cases hsuperfluous with
    | field keyed there =>
      rw [key?_eq_none_of_spreadName? hname] at keyed
      cases keyed
    | spread named there =>
      obtain rfl := Option.some.inj (hname.symm.trans named)
      rw [there, Option.some_or]
  · simp [hspreads]

mutual
/-- The spreads in the selection each mean the first fragment of their name: those that stand beside it
in `level`, and those inside it in their own sets. -/
def CoherentIn (level : List Selection) : Selection → Prop
  | .leaf _ => True
  | .composite _ _ selections => CoherentAll selections selections
  | .inlineFragment _ _ selections => CoherentAll selections selections
  | .spread serial name condition typeName selections =>
    ∀ first, level.find? (Scope.spreads name) = some first →
      first.Matches (.spread serial name condition typeName selections)

def CoherentAll (level : List Selection) : List Selection → Prop
  | [] => True
  | selection :: rest => CoherentIn level selection ∧ CoherentAll level rest
end

theorem exists_mem_of_sameAll {selections others : List Selection}
    (h : sameAll selections others = true) {other : Selection} (ho : other ∈ others) :
    ∃ selection ∈ selections, selection.same other = true := by
  rw [sameAll_iff] at h
  induction h with
  | nil => cases ho
  | @cons selection first more rest hfirst hrest ih =>
    rcases List.mem_cons.1 ho with rfl | ho
    · exact ⟨selection, List.mem_cons_self, hfirst⟩
    · obtain ⟨found, hf, hs⟩ := ih ho
      exact ⟨found, List.mem_cons_of_mem _ hf, hs⟩

end Selection

namespace Scope

open Building Selection

variable {scope : Scope} {before after level selections others : List Selection}
  {selection : Selection} {exact : Prop}

mutual
/-- All that a finished selection asks for is there, at every depth: the fields, the inline fragments,
and for each spread one of its name, which means the same fragment if `exact`. -/
def Holds (exact : Prop) (scope : Scope) (selections : List Selection) : Selection → Prop
  | .leaf field => Stands selections (.leaf field)
  | .composite field _ wanted =>
    ∃ type other below, scope.typeOf? field.name = some type ∧
      .composite other type.name below ∈ selections ∧ (other = field ∨ other.same field = true) ∧
      HoldsAll exact (scope.within type) below wanted
  | .inlineFragment condition _ wanted =>
    ∃ target below, scope.bundle.get? condition = some target ∧
      .inlineFragment target.name target.name below ∈ selections ∧
      HoldsAll exact (scope.within target) below wanted
  | .spread serial name condition typeName wanted =>
    ∃ found ∈ selections, found.spreadName? = some name ∧
      (exact → found.Matches (.spread serial name condition typeName wanted))

def HoldsAll (exact : Prop) (scope : Scope) (selections : List Selection) : List Selection → Prop
  | [] => True
  | selection :: rest => Holds exact scope selections selection ∧ HoldsAll exact scope selections rest
end

theorem Holds.mono (hs : before ⊆ after) (h : Holds exact scope before selection) :
    Holds exact scope after selection := by
  cases selection with
  | leaf field => exact Stands.mono hs h
  | composite field typeName inner =>
    obtain ⟨type, other, below, ht, hmem, hfield, hinner⟩ := h
    exact ⟨type, other, below, ht, hs hmem, hfield, hinner⟩
  | inlineFragment condition typeName inner =>
    obtain ⟨target, below, ht, hmem, hinner⟩ := h
    exact ⟨target, below, ht, hs hmem, hinner⟩
  | spread serial name condition typeName inner =>
    obtain ⟨found, hmem, hname, hm⟩ := h
    exact ⟨found, hs hmem, hname, hm⟩

mutual
/-- What is in a set is in every set that is the same. -/
theorem Holds.of_sameAll {selection : Selection} {scope : Scope} {selections others : List Selection}
    {exact : Prop} (hs : sameAll selections others = true) (h : Holds exact scope others selection) :
    Holds exact scope selections selection := by
  cases selection with
  | leaf field =>
    obtain ⟨other, ho, hm⟩ := h
    obtain ⟨found, hf, hsame⟩ := exists_mem_of_sameAll hs ho
    exact ⟨found, hf, hm.of_same hsame⟩
  | composite field typeName inner =>
    obtain ⟨type, other, below, ht, ho, hfield, hinner⟩ := h
    obtain ⟨found, hf, hsame⟩ := exists_mem_of_sameAll hs ho
    cases found <;> simp only [Selection.same, Bool.and_eq_true, beq_iff_eq, Bool.false_eq_true] at hsame
    rename_i first name below'
    obtain ⟨⟨hfirst, rfl⟩, hbelow⟩ := hsame
    refine ⟨type, first, below', ht, hf, .inr ?_, HoldsAll.of_sameAll hbelow hinner⟩
    rcases hfield with rfl | hfield
    · exact hfirst
    · exact Field.same_trans hfirst hfield
  | inlineFragment condition typeName inner =>
    obtain ⟨target, below, ht, ho, hinner⟩ := h
    obtain ⟨found, hf, hsame⟩ := exists_mem_of_sameAll hs ho
    cases found <;> simp only [Selection.same, Bool.and_eq_true, beq_iff_eq, Bool.false_eq_true] at hsame
    obtain ⟨⟨rfl, rfl⟩, hbelow⟩ := hsame
    exact ⟨target, _, ht, hf, HoldsAll.of_sameAll hbelow hinner⟩
  | spread serial name condition typeName inner =>
    obtain ⟨other, ho, hname, hm⟩ := h
    obtain ⟨found, hf, hsame⟩ := exists_mem_of_sameAll hs ho
    refine ⟨found, hf, ?_, fun he => (hm he).of_same hsame⟩
    cases found <;> cases other <;>
      simp only [Selection.same, Bool.and_eq_true, beq_iff_eq, Bool.false_eq_true] at hsame <;>
      simp only [spreadName?, reduceCtorEq] at hname ⊢
    rw [hsame.1.1.1, hname]

theorem HoldsAll.of_sameAll {wanted : List Selection} {scope : Scope}
    {selections others : List Selection} {exact : Prop} (hs : sameAll selections others = true)
    (h : HoldsAll exact scope others wanted) : HoldsAll exact scope selections wanted := by
  cases wanted with
  | nil => trivial
  | cons selection rest => exact ⟨Holds.of_sameAll hs h.1, HoldsAll.of_sameAll hs h.2⟩
end

/-- What a scope makes of a selection is a spread of a name exactly if the selection is. -/
theorem Makes.find?_spreads {made : Selection} (h : scope.Makes selection made) (name : String) :
    [made].find? (spreads name) = [selection].find? (spreads name) := by
  cases selection with
  | leaf field => rw [h.of_leaf]
  | composite field typeName inner =>
    obtain ⟨type, inner', -, rfl⟩ := h.of_composite
    rfl
  | inlineFragment condition typeName inner =>
    obtain ⟨target, inner', -, rfl⟩ := h.of_inlineFragment
    rfl
  | spread serial found condition typeName inner => rw [h.of_spread]

theorem Rebuilds.find?_spreads (h : scope.Rebuilds selection before after) (name : String) :
    after.find? (spreads name) = (before ++ [selection]).find? (spreads name) := by
  obtain ⟨made, hmade, -, rfl⟩ := rebuilds_iff.1 h
  rw [find?_spreads_beside, List.find?_append, List.find?_append, hmade.find?_spreads]

/-- In a set that is made of selections the first of the spreads of a name stands for all of them. -/
theorem RebuildsAll.find?_spreads (h : scope.RebuildsAll selections before after) (name : String) :
    after.find? (spreads name) = (before ++ selections).find? (spreads name) := by
  induction selections generalizing before with
  | nil =>
    unfold RebuildsAll at h
    rw [h, List.append_nil]
  | cons selection rest ih =>
    unfold RebuildsAll at h
    obtain ⟨between, hfirst, hrest⟩ := h
    rw [ih hrest, List.find?_append, hfirst.find?_spreads name, ← List.find?_append,
      List.append_assoc, List.singleton_append]

mutual
/-- What a finished selection asks for is there once it is added. The spreads mean the same fragments if
the first ones of their names in `level` do, which are those that stand there afterwards. -/
theorem Rebuilds.holds {selection : Selection} {scope : Scope} {before after level : List Selection}
    {exact : Prop} (h : scope.Rebuilds selection before after)
    (hc : exact → CoherentIn level selection)
    (hl : ∀ name first, after.find? (spreads name) = some first →
      level.find? (spreads name) = some first) : Holds exact scope after selection := by
  obtain ⟨made, hmade, hfits, rfl⟩ := rebuilds_iff.1 h
  cases selection with
  | leaf field =>
    obtain rfl := hmade.of_leaf
    exact stands_beside hfits rfl
  | composite field typeName inner =>
    simp only [Makes, Rebuilds] at hmade
    obtain ⟨type, inner', ⟨ho, -⟩, hinner, hlist⟩ := hmade
    obtain rfl := List.singleton_inj.1 hlist
    have hbelow : HoldsAll exact (scope.within type) inner' inner :=
      RebuildsAll.holds hinner hc fun name first hfirst => by
        rw [← hfirst, hinner.find?_spreads name, List.nil_append]
    obtain ⟨found, hf, rfl | hsame⟩ := stands_beside hfits rfl
    · exact ⟨type, field, inner', ho.1.typeOf?, hf, .inl rfl, hbelow⟩
    · -- a field that stood there already is the same one, and so is the set below it
      cases found <;>
        simp only [Selection.same, Bool.and_eq_true, beq_iff_eq, Bool.false_eq_true] at hsame
      obtain ⟨⟨hfield, rfl⟩, hset⟩ := hsame
      exact ⟨type, _, _, ho.1.typeOf?, hf, .inr hfield, hbelow.of_sameAll hset⟩
  | inlineFragment condition typeName inner =>
    simp only [Makes, Rebuilds] at hmade
    obtain ⟨target, inner', ha, hinner, -, hlist⟩ := hmade
    obtain rfl := List.singleton_inj.1 hlist
    have hbelow : HoldsAll exact (scope.within target) inner' inner :=
      RebuildsAll.holds hinner hc fun name first hfirst => by
        rw [← hfirst, hinner.find?_spreads name, List.nil_append]
    exact ⟨target, inner', ha.1, List.mem_append_right _ List.mem_cons_self, hbelow⟩
  | spread serial name condition typeName inner =>
    have hfind := h.find?_spreads name
    cases hfirst : (before ++ [Selection.spread serial name condition typeName inner]).find?
        (spreads name) with
    | none =>
      have hno := List.find?_eq_none.1 hfirst _ (List.mem_append_right _ List.mem_cons_self)
      simp [spreads] at hno
    | some first =>
      rw [hfirst] at hfind
      refine ⟨first, List.mem_of_find?_eq_some hfind, ?_, fun he => hc he first (hl name first hfind)⟩
      exact spreads_iff.1 (List.find?_some hfind)

theorem RebuildsAll.holds {selections : List Selection} {scope : Scope}
    {before after level : List Selection} {exact : Prop}
    (h : scope.RebuildsAll selections before after) (hc : exact → CoherentAll level selections)
    (hl : ∀ name first, after.find? (spreads name) = some first →
      level.find? (spreads name) = some first) : HoldsAll exact scope after selections := by
  cases selections with
  | nil => trivial
  | cons selection rest =>
    unfold RebuildsAll at h
    obtain ⟨between, hfirst, hrest⟩ := h
    obtain ⟨added, hadded⟩ := hrest.appended.1
    have hbetween : Holds exact scope between selection := by
      refine Rebuilds.holds hfirst (fun he => (hc he).1) fun name first hfind => hl name first ?_
      rw [← hadded, List.find?_append, hfind]
      rfl
    exact ⟨hbetween.mono fun _ hs => hadded ▸ List.mem_append_left _ hs,
      RebuildsAll.holds hrest (fun he => (hc he).2) hl⟩
end

end Scope

namespace Step

open Building Selection

/-- The finished selections that a step adds. -/
def raws : Step → List Selection
  | .field name options => [.leaf (.ofOptions name options false)]
  | .spread fragment => [.ofFragment fragment]
  | .selection made => [made]
  | .extend set => set.selections
  | _ => []

/-- What the step asks for is there: a composite field or an inline fragment with the set that its
program makes, and all that is asked for by finished selections. -/
def Held (exact : Prop) (scope : Scope) (after : List Selection) : Step → Prop
  | .object name options body =>
    ∃ type inner, scope.typeOf? name = some type ∧
      outcomeAll (scope.within type) body (scope.within type).opening = (.ok (), inner) ∧
      Stands after (.composite (.ofOptions name options false) type.name inner)
  | .connection name options body =>
    ∃ type edges node info nodes, scope.typeOf? name = some type ∧
      (scope.within type).Connects edges node info ∧
      outcomeAll (scope.within node) body (scope.within node).opening = (.ok (), nodes) ∧
      Stands after (.composite (.ofOptions name options true) type.name
        ((scope.within type).connectionSet edges node info nodes))
  | .fragmentOn condition body =>
    ∃ target inner, scope.bundle.get? condition = some target ∧
      outcomeAll (scope.within target) body [] = (.ok (), inner) ∧
      .inlineFragment target.name target.name inner ∈ after
  | step => Scope.HoldsAll exact scope after step.raws

/-- The spreads of one name that the step brings together, with each other or with those that stand
there, mean one fragment. -/
def Coherent (before : List Selection) (step : Step) : Prop :=
  CoherentAll (before ++ step.raws) step.raws

variable {scope : Scope} {before after : List Selection}

/-- What a step leaves that ends well: all that it asks for, and of the spreads of each name the first. -/
def Answers (scope : Scope) (step : Step) (before after : List Selection) : Prop :=
  (∀ exact : Prop, (exact → step.Coherent before) → step.Held exact scope after) ∧
    ∀ name, after.find? (Scope.spreads name) = (before ++ step.raws).find? (Scope.spreads name)

theorem answers_of_rebuildsAll {step : Step}
    (hstep : ∀ exact, step.Held exact scope after = Scope.HoldsAll exact scope after step.raws)
    (h : scope.RebuildsAll step.raws before after) : step.Answers scope before after := by
  refine ⟨fun exact hc => ?_, h.find?_spreads⟩
  rw [hstep]
  exact h.holds hc fun name first hfirst => (h.find?_spreads name).symm.trans hfirst

theorem answers_of_made {step : Step} (made : Selection) (hraws : step.raws = [])
    (hmade : made.spreadName? = none)
    (hheld : ∀ exact, step.Held exact scope (beside before made)) :
    step.Answers scope before (beside before made) := by
  refine ⟨fun exact _ => hheld exact, fun name => ?_⟩
  have hno : Scope.spreads name made = false := by
    rw [Bool.eq_false_iff, Ne, spreads_iff, hmade]
    exact (Option.some_ne_none name).symm
  rw [find?_spreads_beside, hraws, List.append_nil, List.find?_append,
    List.find?_cons_of_neg (by simp [hno]), List.find?_nil, Option.or_none]

theorem Ends.answers {step : Step} (hcall : ∀ inner, step ≠ .attempt inner)
    (h : Ends scope before step after) : step.Answers scope before after := by
  cases h with
  | made makes fits =>
    have hrebuilds : ∀ {selection made}, scope.Makes selection made →
        (∀ key, made.key? = some key → Fits before key made) →
          scope.RebuildsAll [selection] before (beside before made) := fun hm hf =>
      Scope.rebuildsAll_singleton.2 (Scope.rebuilds_iff.2 ⟨_, hm, hf, rfl⟩)
    cases makes with
    | field makes => exact answers_of_rebuildsAll (fun _ => rfl) (hrebuilds makes fits)
    | spread makes => exact answers_of_rebuildsAll (fun _ => rfl) (hrebuilds makes fits)
    | selection makes => exact answers_of_rebuildsAll (fun _ => rfl) (hrebuilds makes fits)
    | object offers leaves =>
      exact answers_of_made _ rfl rfl fun _ =>
        ⟨_, _, offers.1.typeOf?, leaves, stands_beside fits rfl⟩
    | connection offers connects leaves =>
      exact answers_of_made _ rfl rfl fun _ =>
        ⟨_, _, _, _, _, offers.1.typeOf?, connects, leaves, stands_beside fits rfl⟩
    | fragmentOn admits leaves =>
      exact answers_of_made _ rfl rfl fun _ =>
        ⟨_, _, admits.1, leaves, List.mem_append_right _ List.mem_cons_self⟩
  | extend rebuilds => exact answers_of_rebuildsAll (fun _ => rfl) rebuilds
  | attempt ends => exact absurd rfl (hcall _)
  | passed stops => exact absurd rfl (hcall _)
  | snapshot => exact ⟨fun _ _ => trivial, fun name => congrArg (List.find? _) (List.append_nil _).symm⟩

/-- A field is an error where a different one answers its key. -/
theorem outcome_duplicate {step : Step} {key : String} {made found : Selection}
    (hk : step.key? = some key) (halone : outcome scope step [] = (.ok (), [made]))
    (hf : before.find? (answers key) = some found) (hs : found.same made = false) :
    outcome scope step before = (.error (.duplicateField scope.type.name key), before) := by
  have hbeside := @run_beside scope key step hk ⟨[], [], []⟩ before
  unfold outcome Building.outcome at halone
  rcases hr : (step.run scope).run ⟨[], [], []⟩ with ⟨e | _, alone⟩ <;> rw [hr] at halone hbeside
  · cases congrArg Prod.fst halone
  · obtain ⟨made', -, hmade, hresult, hselections⟩ := hbeside
    obtain rfl : made = made' := List.singleton_inj.1 ((Prod.mk.inj halone).2.symm.trans hmade)
    have hplaced : scope.placed key made before =
        (.error (.duplicateField scope.type.name key), before) := by
      simp [Scope.placed, hf, hs]
    rw [hplaced] at hresult hselections
    exact Prod.ext hresult hselections

end Step

/-- After a step that ends well all that it asked for is there: its field, equal to the requested one,
its inline fragment, and at every depth of finished selections their fields, inline fragments and
spreads. A spread stands for the first of its name, so that the fragments are the requested ones if
spreads of one name that come together mean one fragment. A field whose key a different one answers is
an error. -/
theorem Step.requests_held (scope : Scope) (step : Step) (before : List Selection)
    (hcall : ∀ inner, step ≠ .attempt inner) :
    (∀ after, outcome scope step before = (.ok (), after) →
      step.Held False scope after ∧ (step.Coherent before → step.Held True scope after) ∧
      ∀ name, after.find? (Scope.spreads name) = (before ++ step.raws).find? (Scope.spreads name)) ∧
    ∀ key made found, step.key? = some key → outcome scope step [] = (.ok (), [made]) →
      before.find? (Selection.answers key) = some found → found.same made = false →
        outcome scope step before = (.error (.duplicateField scope.type.name key), before) := by
  refine ⟨fun after h => ?_, fun key made found => outcome_duplicate⟩
  have hanswers := (ends_of_outcome h).answers hcall
  exact ⟨hanswers.1 False False.elim, fun hc => hanswers.1 True fun _ => hc, hanswers.2⟩

/-- The type of shops, with the fragments on it that documents define. -/
def shopScope : Scope := ⟨sampleBundle, [], (sampleBundle.get? "Shop").getD default⟩

/-- A label that is spread again, and another one in a set of its own. -/
def labelledList : List Selection :=
  [.ofFragment shopLabel, .leaf (.plain "name"), .inlineFragment "Shop" "" [.ofFragment otherLabel]]

theorem labelledList_held :
    (∀ inner, Step.extend ⟨"Shop", labelledList⟩ ≠ .attempt inner) ∧
      (Step.extend ⟨"Shop", labelledList⟩).Coherent [.ofFragment shopLabel] ∧
      ∃ after, Step.outcome shopScope (.extend ⟨"Shop", labelledList⟩) [.ofFragment shopLabel] =
        (.ok (), after) ∧ (Step.extend ⟨"Shop", labelledList⟩).Held True shopScope after := by
  have hcall : ∀ inner, Step.extend ⟨"Shop", labelledList⟩ ≠ .attempt inner := nofun
  have hcoherent : (Step.extend ⟨"Shop", labelledList⟩).Coherent [.ofFragment shopLabel] := by
    refine ⟨?_, trivial, ⟨?_, trivial⟩, trivial⟩
    · rintro first hfirst
      exact .inl (Option.some.inj hfirst).symm
    · rintro first hfirst
      exact .inl (Option.some.inj hfirst).symm
  have hrun : Step.outcome shopScope (.extend ⟨"Shop", labelledList⟩) [.ofFragment shopLabel] =
      (.ok (), [.ofFragment shopLabel, .leaf (.plain "name"),
        .inlineFragment "Shop" "Shop" [.ofFragment otherLabel]]) := rfl
  exact ⟨hcall, hcoherent, _, hrun,
    ((Step.requests_held shopScope _ _ hcall).1 _ hrun).2.1 hcoherent⟩

/-- Two documents define different labels. Where the one is spread, spreading the other ends well and
does nothing. -/
theorem other_label_dropped :
    (sampleBundle.documents clashingCalls 0).fragments = [shopLabel] ∧
      (sampleBundle.documents clashingCalls 1).fragments = [otherLabel] ∧
      Step.outcome shopScope (.spread otherLabel) [.ofFragment shopLabel] =
        (.ok (), [.ofFragment shopLabel]) ∧
      ¬ (Step.spread otherLabel).Held True shopScope [.ofFragment shopLabel] := by
  refine ⟨rfl, rfl, rfl, ?_⟩
  rintro ⟨⟨found, hfound, -, hm⟩, -⟩
  obtain rfl := List.mem_singleton.1 hfound
  rcases hm trivial with heq | hsame
  · exact absurd (Selection.spread.inj heq).1 (by decide)
  · exact absurd hsame (by decide)

end GraphQLClient
