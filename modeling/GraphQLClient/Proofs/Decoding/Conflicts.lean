import GraphQLClient.Proofs.Building.Placing
import GraphQLClient.Proofs.Building.Stability
import GraphQLClient.Proofs.Decoding.Connections

set_option autoImplicit false

/-!
# Different fields under one key

The fields of an object come from several levels: the list of selections itself, and the lists in the
inline fragments and spread fragments that apply to its type. Within a level the builder lets no two
fields have one response key, and refuses a different field under a key that is taken. It does not
look from one level to another, nor into the body of a fragment that no document defined. So what the
decoder folds into one are fields that agree, exactly if the fields of different levels do.
-/

namespace GraphQLClient

/-- The same field, or one of the same name with equal arguments. -/
def Field.Agrees (a b : Field) : Prop :=
  a = b ∨ (a.name = b.name ∧ Value.sameArguments a.arguments b.arguments = true)

/-- A selection set, with the fragment whose body it stands in; `none` is the operation. -/
structure Level where
  fragment : Option Fragment
  set : SelectionSet

namespace Level

/-- The second level is the first or stands below a field or in a fragment there. -/
inductive Inside : Level → Level → Prop
  | self (level : Level) : Inside level level
  | field {level below : Level} {field : Field} {typeName : String} {inner : List Selection}
      (selected : .composite field typeName inner ∈ level.set.selections)
      (deeper : Inside ⟨level.fragment, ⟨typeName, inner⟩⟩ below) : Inside level below
  | inlineFragment {level below : Level} {condition typeName : String} {inner : List Selection}
      (selected : .inlineFragment condition typeName inner ∈ level.set.selections)
      (deeper : Inside ⟨level.fragment, ⟨typeName, inner⟩⟩ below) : Inside level below
  | spread {level below : Level} {fragment : Fragment}
      (selected : .ofFragment fragment ∈ level.set.selections)
      (deeper : Inside ⟨some fragment, fragment.set⟩ below) : Inside level below

/-- The level stands in the operation itself or in a fragment that some document defined. -/
def Known (bundle : Bundle) (level : Level) : Prop :=
  ∀ fragment ∈ level.fragment, fragment.DefinedOver bundle

mutual
/-- The levels in the fragments that apply to a type, from a selection in the body of `fragment`. -/
def levelsOn (bundle : Bundle) (type : TypeDescriptor) (fragment : Option Fragment) :
    Selection → List Level
  | .leaf _ => []
  | .composite _ _ _ => []
  | .inlineFragment condition typeName selections =>
    if Collected.applies bundle condition type then
      ⟨fragment, ⟨typeName, selections⟩⟩ :: levelsOnAll bundle type fragment selections
    else []
  | .spread serial name condition typeName selections =>
    if Collected.applies bundle condition type then
      ⟨some ⟨serial, name, condition, ⟨typeName, selections⟩⟩, ⟨typeName, selections⟩⟩ ::
        levelsOnAll bundle type (some ⟨serial, name, condition, ⟨typeName, selections⟩⟩) selections
    else []

def levelsOnAll (bundle : Bundle) (type : TypeDescriptor) (fragment : Option Fragment) :
    List Selection → List Level
  | [] => []
  | selection :: rest =>
    levelsOn bundle type fragment selection ++ levelsOnAll bundle type fragment rest
end

/-- The levels whose fields are those of an object of this type. -/
def folded (bundle : Bundle) (type : TypeDescriptor) (level : Level) : List Level :=
  level :: levelsOnAll bundle type level.fragment level.set.selections

variable {bundle : Bundle} {type : TypeDescriptor}

mutual
theorem mem_fieldsOn_iff {made selection : Selection} (fragment : Option Fragment) :
    made ∈ selection.fieldsOn bundle type ↔ made.field?.isSome = true ∧ (made = selection ∨
      ∃ level ∈ levelsOn bundle type fragment selection, made ∈ level.set.selections) := by
  cases selection with
  | leaf field =>
    simp only [Selection.fieldsOn, levelsOn, List.mem_singleton, List.not_mem_nil, false_and,
      exists_false, or_false]
    exact ⟨fun h => ⟨h ▸ rfl, h⟩, And.right⟩
  | composite field typeName selections =>
    simp only [Selection.fieldsOn, levelsOn, List.mem_singleton, List.not_mem_nil, false_and,
      exists_false, or_false]
    exact ⟨fun h => ⟨h ▸ rfl, h⟩, And.right⟩
  | inlineFragment condition typeName selections =>
    have hne : made.field?.isSome = true → made ≠ .inlineFragment condition typeName selections := by
      rintro h rfl
      cases h
    rw [Selection.fieldsOn, levelsOn]
    split
    · rw [mem_fieldsOnAll_iff fragment]
      simp only [List.mem_cons, exists_eq_or_imp]
      exact and_congr_right fun h => (or_iff_right (hne h)).symm
    · simpa using hne
  | spread serial name condition typeName selections =>
    have hne : made.field?.isSome = true →
        made ≠ .spread serial name condition typeName selections := by
      rintro h rfl
      cases h
    rw [Selection.fieldsOn, levelsOn]
    split
    · rw [mem_fieldsOnAll_iff (some ⟨serial, name, condition, ⟨typeName, selections⟩⟩)]
      simp only [List.mem_cons, exists_eq_or_imp]
      exact and_congr_right fun h => (or_iff_right (hne h)).symm
    · simpa using hne

theorem mem_fieldsOnAll_iff {made : Selection} {selections : List Selection}
    (fragment : Option Fragment) :
    made ∈ Selection.fieldsOnAll bundle type selections ↔ made.field?.isSome = true ∧
      (made ∈ selections ∨
        ∃ level ∈ levelsOnAll bundle type fragment selections, made ∈ level.set.selections) := by
  cases selections with
  | nil => simp [Selection.fieldsOnAll, levelsOnAll]
  | cons selection rest =>
    rw [Selection.fieldsOnAll, levelsOnAll, List.mem_append, mem_fieldsOn_iff fragment,
      mem_fieldsOnAll_iff fragment, ← and_or_left, List.mem_cons, or_or_or_comm]
    simp only [List.mem_append, or_and_right, exists_or]
end

/-- The fields on a type stand in the levels that are folded for it. -/
theorem mem_fieldsOnAll {made : Selection} {level : Level} :
    made ∈ Selection.fieldsOnAll bundle type level.set.selections ↔ made.field?.isSome = true ∧
      ∃ inner ∈ level.folded bundle type, made ∈ inner.set.selections := by
  rw [mem_fieldsOnAll_iff level.fragment, folded]
  simp only [List.mem_cons, exists_eq_or_imp]

mutual
theorem inside_of_mem_levelsOn {level below : Level} {selection : Selection}
    (hs : selection ∈ level.set.selections)
    (h : below ∈ levelsOn bundle type level.fragment selection) : Inside level below := by
  cases selection with
  | leaf => cases h
  | composite => cases h
  | inlineFragment condition typeName selections =>
    rw [levelsOn] at h
    split at h
    · refine .inlineFragment hs ?_
      rcases List.mem_cons.1 h with rfl | h
      · exact .self _
      · exact inside_of_mem_levelsOnAll (List.Subset.refl selections) h
    · cases h
  | spread serial name condition typeName selections =>
    rw [levelsOn] at h
    split at h
    · have hspread : Selection.ofFragment ⟨serial, name, condition, ⟨typeName, selections⟩⟩ ∈
          level.set.selections := hs
      refine .spread hspread ?_
      rcases List.mem_cons.1 h with rfl | h
      · exact .self _
      · exact inside_of_mem_levelsOnAll (List.Subset.refl selections) h
    · cases h

theorem inside_of_mem_levelsOnAll {level below : Level} {selections : List Selection}
    (hs : selections ⊆ level.set.selections)
    (h : below ∈ levelsOnAll bundle type level.fragment selections) : Inside level below := by
  cases selections with
  | nil => cases h
  | cons selection rest =>
    rcases List.mem_append.1 h with h | h
    · exact inside_of_mem_levelsOn (hs List.mem_cons_self) h
    · exact inside_of_mem_levelsOnAll (fun _ hm => hs (List.mem_cons_of_mem _ hm)) h
end

theorem inside_of_mem_folded {level below : Level} (h : below ∈ level.folded bundle type) :
    Inside level below := by
  rcases List.mem_cons.1 h with rfl | h
  · exact .self _
  · exact inside_of_mem_levelsOnAll (List.Subset.refl _) h

theorem Inside.trans {level between below : Level} (h : Inside level between)
    (h' : Inside between below) : Inside level below := by
  induction h with
  | self => exact h'
  | field selected _ ih => exact .field selected (ih h')
  | inlineFragment selected _ ih => exact .inlineFragment selected (ih h')
  | spread selected _ ih => exact .spread selected (ih h')

/-- The level was made by a builder on some scope. -/
def Grew (level : Level) : Prop :=
  ∃ scope, Grown True (fun _ => True) scope level.set.selections

/-- The levels in one that a builder made were made by builders too, as long as they are known. -/
theorem Inside.grew {level below : Level} (h : Inside level below)
    (hl : level.Known bundle → level.Grew) : below.Known bundle → below.Grew := by
  induction h with
  | self => exact hl
  | field selected _ ih =>
    refine ih fun hk => ?_
    obtain ⟨scope, hgrown⟩ := hl hk
    obtain ⟨type, -, -, hinner⟩ := hgrown.of_mem selected
    exact ⟨_, hinner⟩
  | inlineFragment selected _ ih =>
    refine ih fun hk => ?_
    obtain ⟨scope, hgrown⟩ := hl hk
    obtain ⟨target, -, -, hinner⟩ := hgrown.of_mem selected
    exact ⟨_, hinner⟩
  | spread selected _ ih =>
    refine ih fun hk => ?_
    obtain ⟨document, serial, draft, -, -, hdefined⟩ := hk _ rfl
    obtain ⟨target, set, -, -, -, hset, heq⟩ := DocumentDraft.buildFragment_eq_ok hdefined
    obtain ⟨-, -, -, hgrown, -⟩ := OperationDraft.freelyGrown_of_buildSet hset
    rw [heq]
    exact ⟨_, hgrown⟩

end Level

namespace Selection

theorem eq_of_key? {selections : List Selection} {a b : Selection} {key : String}
    (h : (selections.filterMap key?).Nodup) (ha : a ∈ selections) (hb : b ∈ selections)
    (hka : a.key? = some key) (hkb : b.key? = some key) : a = b := by
  induction selections with
  | nil => cases ha
  | cons first rest ih =>
    have hfirst : ∀ {c : Selection}, c ∈ rest → c.key? = some key → first.key? ≠ some key := by
      intro c hc hkc hkf
      rw [List.filterMap_cons_some hkf] at h
      exact (List.nodup_cons.1 h).1 (List.mem_filterMap.2 ⟨c, hc, hkc⟩)
    have hrest : (rest.filterMap key?).Nodup :=
      h.sublist ((List.sublist_cons_self first rest).filterMap key?)
    rcases List.mem_cons.1 ha with rfl | harest
    · rcases List.mem_cons.1 hb with rfl | hbrest
      · rfl
      · exact absurd hka (hfirst hbrest hkb)
    · rcases List.mem_cons.1 hb with rfl | hbrest
      · exact absurd hkb (hfirst harest hka)
      · exact ih hrest harest hbrest

theorem agrees_of_same {a b : Selection} (h : a.same b = true) :
    ∀ f ∈ a.field?, ∀ g ∈ b.field?, f.Agrees g := by
  have hfield : ∀ f g : Field, f.same g = true → f.Agrees g := by
    intro f g hs
    simp only [Field.same, Bool.and_eq_true, beq_iff_eq] at hs
    exact .inr ⟨hs.1.1.1, hs.1.2⟩
  rintro f hf g hg
  cases a <;> cases b <;> cases hf <;> cases hg <;>
    simp only [same, Bool.and_eq_true, Bool.false_eq_true] at h
  · exact hfield _ _ h
  · exact hfield _ _ h.1.1

end Selection

namespace Level

variable {bundle : Bundle} {type : TypeDescriptor}

/-- The fields that the decoder folds by their keys for objects of a type. -/
def fields (bundle : Bundle) (type : TypeDescriptor) (level : Level) : List Collected :=
  Collected.fieldsOfParts bundle type [⟨⟨level.fragment.map (·.serial), []⟩, level.set⟩]

/-- The fields are those that stand in the folded levels. -/
theorem exists_fields_iff {level : Level} {field : Field} :
    (∃ collected ∈ level.fields bundle type, collected.field = field) ↔
      ∃ inner ∈ level.folded bundle type, ∃ made ∈ inner.set.selections, made.field? = some field := by
  have hselections : (level.fields bundle type).map Collected.selection =
      Selection.fieldsOnAll bundle type level.set.selections := by
    rw [fields, Collected.selections_fieldsOfParts]
    simp [Part.merged]
  constructor
  · rintro ⟨collected, hc, rfl⟩
    have hmem : collected.selection ∈ Selection.fieldsOnAll bundle type level.set.selections :=
      hselections ▸ List.mem_map_of_mem hc
    obtain ⟨-, inner, hi, hmade⟩ := mem_fieldsOnAll.1 hmem
    exact ⟨inner, hi, _, hmade, collected.field?_selection⟩
  · rintro ⟨inner, hi, made, hmade, hf⟩
    have hmem : made ∈ (level.fields bundle type).map Collected.selection :=
      hselections.symm ▸ mem_fieldsOnAll.2 ⟨by rw [hf]; rfl, inner, hi, hmade⟩
    obtain ⟨collected, hc, rfl⟩ := List.mem_map.1 hmem
    exact ⟨collected, hc, Option.some.inj (collected.field?_selection.symm.trans hf)⟩

/-- All fields of one key that are folded for a type agree. -/
def Agreeing (bundle : Bundle) (type : TypeDescriptor) (level : Level) : Prop :=
  ∀ a ∈ level.fields bundle type, ∀ b ∈ level.fields bundle type, a.key = b.key →
    a.field.Agrees b.field

/-- The fields of one key in two levels agree. -/
def AgreesWith (a b : Level) : Prop :=
  ∀ x ∈ a.set.selections, ∀ y ∈ b.set.selections, ∀ f ∈ x.field?, ∀ g ∈ y.field?,
    f.responseKey = g.responseKey → f.Agrees g

theorem agreeing_iff_agreesWith {level : Level} : level.Agreeing bundle type ↔
    ∀ a ∈ level.folded bundle type, ∀ b ∈ level.folded bundle type, a.AgreesWith b := by
  refine ⟨fun h a ha b hb x hx y hy f hf g hg hkey => ?_, fun h c hc d hd hkey => ?_⟩
  · obtain ⟨c, hc, rfl⟩ := exists_fields_iff.2 ⟨a, ha, x, hx, hf⟩
    obtain ⟨d, hd, rfl⟩ := exists_fields_iff.2 ⟨b, hb, y, hy, hg⟩
    exact h c hc d hd hkey
  · obtain ⟨a, ha, x, hx, hf⟩ := exists_fields_iff.1 ⟨c, hc, rfl⟩
    obtain ⟨b, hb, y, hy, hg⟩ := exists_fields_iff.1 ⟨d, hd, rfl⟩
    exact h a ha b hb x hx y hy _ hf _ hg hkey

/-- Within a level that a builder made, fields of one key are the same field. -/
theorem Grew.agreesWith {a b : Level} (h : a.Grew) (heq : a.set.selections = b.set.selections) :
    a.AgreesWith b := by
  obtain ⟨scope, hgrown⟩ := h
  intro x hx y hy f hf g hg hkey
  have hkx : x.key? = some f.responseKey := by rw [Selection.key?, Option.mem_def.1 hf]; rfl
  have hky : y.key? = some f.responseKey := by rw [Selection.key?, Option.mem_def.1 hg, hkey]; rfl
  obtain rfl := Selection.eq_of_key? hgrown.distinct.1 hx (heq ▸ hy) hkx hky
  exact .inl (Option.some.inj (hf.symm.trans hg))

end Level

namespace OperationDraft

variable {bundle : Bundle} {draft : OperationDraft}

/-- In a built operation, what the decoder folds agrees if fields of different levels do. -/
theorem agreeing_of_build_iff {operation : Operation}
    (h : (draft.build bundle).result = .ok operation) {level : Level}
    (hl : Level.Inside ⟨none, operation.set⟩ level) (type : TypeDescriptor) :
    level.Agreeing bundle type ↔
      ∀ a ∈ level.folded bundle type, ∀ b ∈ level.folded bundle type,
        (a.set.selections ≠ b.set.selections ∨ ¬ a.Known bundle) → a.AgreesWith b := by
  rw [Level.agreeing_iff_agreesWith]
  refine ⟨fun hall a ha b hb _ => hall a ha b hb, fun hall a ha b hb => ?_⟩
  by_cases hsame : a.set.selections = b.set.selections ∧ a.Known bundle
  · obtain ⟨scope, set, hscope, hset, rfl⟩ := build_eq_ok h
    obtain ⟨-, -, -, hgrown, -⟩ := freelyGrown_of_buildSet hset
    have hinside := hl.trans (Level.inside_of_mem_folded ha)
    have hgrew : a.Grew := hinside.grew (fun _ => ⟨scope, hgrown⟩) hsame.2
    exact hgrew.agreesWith hsame.1
  · exact hall a ha b hb (Classical.not_and_iff_not_or_not.1 hsame)

/-- For every set in a built operation and every type, the fields that the decoder folds into one have
one name and equal arguments exactly if those of different levels do; within a level that a
builder made there is one field for a key. A program that selects a field under a key that another
field has in its set ends with an error that names the key. -/
theorem conflicts_refused (draft : OperationDraft) (bundle : Bundle) :
    (∀ operation, (draft.build bundle).result = .ok operation →
      ∀ level, Level.Inside ⟨none, operation.set⟩ level → ∀ type,
        (level.Agreeing bundle type ↔
          ∀ a ∈ level.folded bundle type, ∀ b ∈ level.folded bundle type,
            (a.set.selections ≠ b.set.selections ∨ ¬ a.Known bundle) → a.AgreesWith b)) ∧
    ∀ (scope : Scope) (steps rest : List Step) (step : Step) (before after alone : Draft)
      (key : String) (found made : Selection), step.key? = some key →
      (Step.runAll scope steps).run before = (.ok (), after) →
      (step.run scope).run { after with selections := [] } = (.ok (), alone) →
      alone.selections = [made] →
      after.selections.find? (Selection.answers key) = some found →
      (∃ f ∈ found.field?, ∃ g ∈ made.field?, ¬ f.Agrees g) →
        ((Step.runAll scope (steps ++ step :: rest)).run before).1 =
          .error (.duplicateField scope.type.name key) := by
  refine ⟨fun operation h level hl type => agreeing_of_build_iff h hl type, ?_⟩
  rintro scope steps rest step before after alone key found made hk hsteps halone hmade hfound
    ⟨f, hf, g, hg, hdiffer⟩
  have hs : found.same made = false :=
    Bool.eq_false_iff.2 fun hs => hdiffer (Selection.agrees_of_same hs f hf g hg)
  exact (Step.runAll_duplicate hk hsteps ⟨alone, halone, hmade⟩ hfound hs).1

end OperationDraft

/-- A field with a caption for its response key. -/
def captioned (name : String) : Step := .field name ⟨some "caption", []⟩

def captionedSet (name : String) : SelectionSet :=
  ⟨"Shop", [.leaf (.plain "id"), .leaf ⟨name, some "caption", [], false⟩]⟩

def captionedOperation : Operation :=
  ⟨.query, none, [], [], ⟨"Query", [.composite (.plain "shop") "Shop" (captionedSet "name").selections]⟩⟩

/-- The fields of a shop with one caption agree, and a second caption is refused. -/
theorem captioned_agreeing :
    ((OperationDraft.ofProgram .query [.object "shop" .none [captioned "name"]]).build
        sampleBundle).result = .ok captionedOperation ∧
      (∀ type, (Level.mk none (captionedSet "name")).Agreeing sampleBundle type) ∧
      ∀ type, sampleBundle.get? "Shop" = some type →
        ((Step.runAll ⟨sampleBundle, [], type⟩ ([captioned "name"] ++ [captioned "id"])).run
          Draft.empty).1 = .error (.duplicateField "Shop" "caption") := by
  have h : ((OperationDraft.ofProgram .query [.object "shop" .none [captioned "name"]]).build
      sampleBundle).result = .ok captionedOperation := rfl
  have hselected : .composite (.plain "shop") "Shop" (captionedSet "name").selections ∈
      (Level.mk none captionedOperation.set).set.selections := List.mem_cons_self
  have hinside : Level.Inside ⟨none, captionedOperation.set⟩ ⟨none, captionedSet "name"⟩ :=
    .field hselected (.self _)
  refine ⟨h, fun type => ?_, fun type ht => ?_⟩
  · refine ((OperationDraft.conflicts_refused _ sampleBundle).1 _ h _ hinside type).2 ?_
    rintro a ha b hb (hne | hunknown)
    · rw [List.mem_singleton.1 ha, List.mem_singleton.1 hb] at hne
      exact absurd rfl hne
    · rw [List.mem_singleton.1 ha] at hunknown
      exact absurd (fun _ hf => (nomatch hf)) hunknown
  · obtain rfl := Option.some.inj ht
    exact (OperationDraft.conflicts_refused (.ofProgram .query []) sampleBundle).2 _ _ [] _ _ _ _
      "caption" _ _ rfl rfl rfl rfl rfl ⟨_, rfl, _, rfl, by simp [Field.Agrees, Field.ofOptions]⟩

/-- In two fragments on the shop, name and id come under one caption. -/
def recaptionedSet : SelectionSet :=
  ⟨"Shop", [.leaf (.plain "id"),
    .inlineFragment "Shop" "Shop" [.leaf ⟨"name", some "caption", [], false⟩],
    .inlineFragment "Shop" "Shop" [.leaf ⟨"id", some "caption", [], false⟩]]⟩

/-- The builder takes them, and refuses them side by side. -/
theorem recaptioned_conflicts :
    ((OperationDraft.ofProgram .query [.object "shop" .none
        [.fragmentOn "Shop" [captioned "name"], .fragmentOn "Shop" [captioned "id"]]]).build
          sampleBundle).result =
      .ok ⟨.query, none, [], [],
        ⟨"Query", [.composite (.plain "shop") "Shop" recaptionedSet.selections]⟩⟩ ∧
    (∀ type, sampleBundle.get? "Shop" = some type →
      ¬ (Level.mk none recaptionedSet).Agreeing sampleBundle type) ∧
    ((OperationDraft.ofProgram .query [.object "shop" .none [captioned "name", captioned "id"]]).build
      sampleBundle).result = .error (.duplicateField "Shop" "caption") := by
  refine ⟨rfl, fun type ht hall => ?_, rfl⟩
  obtain rfl := Option.some.inj ht
  have hagrees := hall ⟨⟨"name", some "caption", [], false⟩, []⟩
    (List.mem_cons_of_mem _ List.mem_cons_self) ⟨⟨"id", some "caption", [], false⟩, []⟩
    (List.mem_cons_of_mem _ (List.mem_cons_of_mem _ List.mem_cons_self)) rfl
  simp [Field.Agrees] at hagrees

end GraphQLClient
