import GraphQLClient.Proofs.Building.Sharing
import GraphQLClient.Proofs.Building.Revalidation
import GraphQLClient.Proofs.Paging.Trimming

set_option autoImplicit false

/-!
# Lanes

A lane is a way through selections that leaves no choice: for each key one field, with a set on an
object type, down to a connection that takes a cursor. Inline fragments on the type of the object may
stand around the way. A lane that is pruned to its keys is a lane again, with the same nodes.
-/

namespace GraphQLClient

/-- The type declares the field with an argument for the cursor. -/
def TypeDescriptor.Pages (type : TypeDescriptor) (name : String) : Prop :=
  ∃ declared, type.field? name = some declared ∧
    Keyed.contains cursorArgument declared.arguments = true

namespace Selection

mutual
/-- The fields of a selection on whatever type. -/
def opened : Selection → List Selection
  | .leaf field => [.leaf field]
  | .composite field typeName selections => [.composite field typeName selections]
  | .inlineFragment _ _ selections => openedAll selections
  | .spread _ _ _ _ selections => openedAll selections

def openedAll : List Selection → List Selection
  | [] => []
  | selection :: rest => opened selection ++ openedAll rest
end

/-- The field that some keys lead to. -/
def fieldAt? : List String → List Selection → Option Selection
  | [], _ => none
  | [key], selections => (openedAll selections).find? (answers key)
  | key :: rest, selections =>
    ((openedAll selections).find? (answers key)).bind fun found => fieldAt? rest found.inner

/-- The cursor that a field asks to go on from. -/
def after? (selection : Selection) : Option String :=
  selection.field?.bind fun field =>
    match Keyed.find? cursorArgument field.arguments with
    | some (.string cursor) => some cursor
    | _ => none

/-- A field under another key. -/
def Beside (key : String) (selection : Selection) : Prop :=
  ∃ field, selection.field? = some field ∧ field.responseKey ≠ key

def isIdentityLeaf : Selection → Bool
  | .leaf field => isIdentity field
  | _ => false

/-- What pruning to the keys may keep: fields under the first key, identities and fragments. -/
def remains (keys : List String) (selection : Selection) : Bool :=
  isIdentityLeaf selection || selection.field?.all fun field => keys.head? == some field.responseKey

/-- What may be kept of the selections is valid. -/
def KeptValidOn (scope : Scope) (keys : List String) (selections : List Selection) : Prop :=
  ∀ selection ∈ selections, selection.remains keys = true → selection.ValidOn scope

theorem keptValidOn_of_allValidOn {scope : Scope} {selections : List Selection}
    (h : AllValidOn scope selections) (keys : List String) : KeptValidOn scope keys selections :=
  fun selection hs _ => allValidOn_iff.1 h selection hs

/-- A valid field whose set names a known type returns that type. -/
theorem ValidOn.of_composite {scope : Scope} {field : Field} {below : TypeDescriptor}
    {inner : List Selection} (h : ValidOn scope (.composite field below.name inner))
    (hk : scope.bundle.get? below.name = some below) :
    scope.OffersObject field.name field.arguments below ∧
      SelectionSet.ValidOn (scope.within below) ⟨below.name, inner⟩ := by
  unfold ValidOn at h
  obtain ⟨found, ht, hset⟩ := h
  obtain ⟨-, declared, -, hget, -⟩ := ht.1
  have hself := Bundle.get?_self hget
  rw [← show below.name = found.name from hset.1.1, hk] at hself
  obtain rfl := Option.some.inj hself
  exact ⟨ht, hset⟩

/-- A valid fragment on the type of its scope has a set for that type. -/
theorem ValidOn.of_inlineFragment {scope : Scope} {typeName : String} {inner : List Selection}
    (h : ValidOn scope (.inlineFragment scope.type.name typeName inner))
    (hk : scope.bundle.get? scope.type.name = some scope.type) :
    scope.Admits scope.type.name scope.type ∧ SelectionSet.ValidOn scope ⟨typeName, inner⟩ := by
  unfold ValidOn at h
  obtain ⟨target, ha, hset⟩ := h
  obtain rfl : target = scope.type := Option.some.inj (ha.1.symm.trans hk)
  exact ⟨ha, hset⟩

theorem remains_composite (field : Field) (keys : List String) (typeName : String)
    (inner : List Selection) :
    remains (field.responseKey :: keys) (.composite field typeName inner) = true := by
  simp [remains, field?]

theorem remains_inlineFragment (keys : List String) (condition typeName : String)
    (inner : List Selection) : remains keys (.inlineFragment condition typeName inner) = true := rfl

/-- The keys lead from an object of the type to a connection with these nodes. -/
inductive Lane (bundle : Bundle) (nodes : SelectionSet) :
    TypeDescriptor → List String → List Selection → Prop
  | connection {type : TypeDescriptor} {field : Field} {typeName : String}
      {front inner back : List Selection}
      (beside : ∀ other ∈ front ++ back, Beside field.responseKey other)
      (unaliased : Unaliased (.composite field typeName inner))
      (shows : connectionNodeSet? (.composite field typeName inner) = some nodes)
      (pages : type.Pages field.name) :
      Lane bundle nodes type [field.responseKey] (front ++ .composite field typeName inner :: back)
  | object {type below : TypeDescriptor} {field : Field} {key : String} {keys : List String}
      {front inner back : List Selection}
      (beside : ∀ other ∈ front ++ back, Beside field.responseKey other)
      (unaliased : Unaliased (.composite field below.name inner))
      (single : field.connection = false)
      (known : bundle.get? below.name = some below)
      (object : below.kind = .object)
      (further : Lane bundle nodes below (key :: keys) inner) :
      Lane bundle nodes type (field.responseKey :: key :: keys)
        (front ++ .composite field below.name inner :: back)
  | fragment {type : TypeDescriptor} {key typeName : String} {keys : List String}
      {front inner back : List Selection}
      (beside : ∀ other ∈ front ++ back, Beside key other)
      (known : bundle.get? type.name = some type)
      (further : Lane bundle nodes type (key :: keys) inner) :
      Lane bundle nodes type (key :: keys)
        (front ++ .inlineFragment type.name typeName inner :: back)

variable {key cursor : String} {rest : List String} {front back : List Selection}
  {selection : Selection}

theorem Beside.openedAll {selections : List Selection}
    (h : ∀ other ∈ selections, other.Beside key) :
    openedAll selections = selections ∧ selections.find? (answers key) = none := by
  induction selections with
  | nil => exact ⟨rfl, rfl⟩
  | cons selection rest ih =>
    obtain ⟨field, hf, hk⟩ := h selection List.mem_cons_self
    obtain ⟨hopened, hnone⟩ := ih fun other ho => h other (List.mem_cons_of_mem _ ho)
    have hanswers : selection.answers key = false := by simp [answers, hf, hk]
    refine ⟨?_, by rw [List.find?_cons, hanswers, hnone]⟩
    cases selection <;> cases hf <;> rw [Selection.openedAll, hopened] <;> rfl

theorem openedAll_append (before after : List Selection) :
    openedAll (before ++ after) = openedAll before ++ openedAll after := by
  induction before with
  | nil => rfl
  | cons selection rest ih => simp only [List.cons_append, openedAll, ih, List.append_assoc]

/-- Beside other fields a key leads where it leads alone. -/
theorem fieldAt?_beside (h : ∀ other ∈ front ++ back, other.Beside key) :
    fieldAt? (key :: rest) (front ++ selection :: back) = fieldAt? (key :: rest) [selection] := by
  have hfront := Beside.openedAll fun other ho => h other (List.mem_append_left _ ho)
  have hback := Beside.openedAll fun other ho => h other (List.mem_append_right _ ho)
  have hfind : (openedAll (front ++ selection :: back)).find? (answers key) =
      (openedAll [selection]).find? (answers key) := by
    rw [← List.singleton_append, openedAll_append, openedAll_append, List.find?_append,
      List.find?_append, hfront.1, hfront.2, hback.1, hback.2, Option.none_or, Option.or_none]
  cases rest with
  | nil => exact hfind
  | cons next rest => simp only [fieldAt?, hfind]

theorem fieldAt?_composite (field : Field) (typeName next : String) (inner : List Selection) :
    fieldAt? (field.responseKey :: next :: rest) [.composite field typeName inner] =
      fieldAt? (next :: rest) inner := by
  simp [fieldAt?, openedAll, opened, answers, field?, Selection.inner]

theorem fieldAt?_inlineFragment (keys : List String) (condition typeName : String)
    (inner : List Selection) :
    fieldAt? keys [.inlineFragment condition typeName inner] = fieldAt? keys inner := by
  have hsame : openedAll [.inlineFragment condition typeName inner] = openedAll inner :=
    List.append_nil _
  rcases keys with _ | ⟨key, _ | ⟨next, rest⟩⟩
  · rfl
  · rw [fieldAt?, fieldAt?, hsame]
  · simp only [fieldAt?, hsame]

theorem fieldsOn_beside {bundle : Bundle} {type : TypeDescriptor} (h : selection.Beside key) :
    fieldsOn bundle type selection = [selection] := by
  obtain ⟨field, hf, -⟩ := h
  cases selection <;> cases hf <;> rfl

theorem taken_beside {bundle : Bundle} {leg : Leg}
    (h : ∀ other ∈ front ++ back, other.Beside leg.key) :
    taken bundle leg (front ++ selection :: back) = taken bundle leg [selection] := by
  have hnil : ∀ selections : List Selection, (∀ other ∈ selections, other.Beside leg.key) →
      taken bundle leg selections = [] := by
    intro selections hs
    induction selections with
    | nil => rfl
    | cons selection rest ih =>
      have hfirst := hs selection List.mem_cons_self
      obtain ⟨field, hf, hk⟩ := hfirst
      rw [← List.singleton_append, taken_append, ih fun other ho => hs other (List.mem_cons_of_mem _ ho)]
      simp [taken, fieldsOnAll, fieldsOn_beside (hs selection List.mem_cons_self), answers, hf, hk]
  rw [← List.singleton_append, taken_append, taken_append,
    hnil front fun other ho => h other (List.mem_append_left _ ho),
    hnil back fun other ho => h other (List.mem_append_right _ ho), List.nil_append, List.append_nil]

/-- Of the fields under other keys those are kept that tell which object it is. -/
theorem pruneEach_beside {selections : List Selection}
    (h : ∀ other ∈ selections, other.Beside key) :
    pruneEach cursor key rest selections = (selections.filter isIdentityLeaf).map (·, false) := by
  induction selections with
  | nil => rfl
  | cons selection others ih =>
    obtain ⟨field, hf, hk⟩ := h selection List.mem_cons_self
    have hb : (field.responseKey == key) = false := by simpa using hk
    rw [pruneEach, ih fun other ho => h other (List.mem_cons_of_mem _ ho)]
    cases selection with
    | leaf field' =>
      obtain rfl := Option.some.inj hf
      by_cases hi : isIdentity field' = true
      · simp [pruneOne, hb, hi, isIdentityLeaf]
      · simp [pruneOne, hb, hi, isIdentityLeaf]
    | composite field' typeName inner =>
      obtain rfl := Option.some.inj hf
      rw [pruneOne_of_ne typeName inner rest hk]
      simp [isIdentityLeaf]
    | _ => cases hf

theorem prune_beside (typeName : String) {kept : Selection}
    (h : ∀ other ∈ front ++ back, other.Beside key)
    (hs : pruneOne cursor key rest selection = some (kept, true)) :
    SelectionSet.prune ⟨typeName, front ++ selection :: back⟩ (key :: rest) cursor =
      some ⟨typeName, front.filter isIdentityLeaf ++ kept :: back.filter isIdentityLeaf⟩ := by
  rw [SelectionSet.prune, pruneEach_append, pruneEach, hs,
    pruneEach_beside fun other ho => h other (List.mem_append_left _ ho),
    pruneEach_beside fun other ho => h other (List.mem_append_right _ ho), keptIfFound_eq_some]
  · simp [Function.comp_def]
  · simp

namespace Lane

variable {bundle : Bundle} {nodes : SelectionSet} {type : TypeDescriptor} {keys : List String}
  {selections : List Selection}

theorem keys_ne_nil (h : Lane bundle nodes type keys selections) : keys ≠ [] := by
  cases h <;> exact List.cons_ne_nil _ _

theorem ne_nil (h : Lane bundle nodes type keys selections) : selections ≠ [] := by
  cases h <;> simp

end Lane

/-- What pruning to the keys of a lane makes of it. -/
structure Trims (bundle : Bundle) (nodes : SelectionSet) (cursor : String) (type : TypeDescriptor)
    (keys : List String) (selections trimmed : List Selection) : Prop where
  pruned : ∀ typeName, SelectionSet.prune ⟨typeName, selections⟩ keys cursor = some ⟨typeName, trimmed⟩
  lane : Lane bundle nodes type keys trimmed
  cursor : (fieldAt? keys trimmed).bind after? = some cursor
  fewerKeys : (trimmed.filterMap key?).Sublist (selections.filterMap key?)
  fewerSpreads : (trimmed.filterMap spreadName?).Sublist (selections.filterMap spreadName?)
  valid : ∀ scope : Scope, scope.bundle = bundle → scope.type = type →
    KeptValidOn scope keys selections → AllValidOn scope trimmed

section

variable {kept : Selection}

theorem sublist_kept {β : Type} (f : Selection → Option β) (hk : f kept = f selection) :
    ((front.filter isIdentityLeaf ++ kept :: back.filter isIdentityLeaf).filterMap f).Sublist
      ((front ++ selection :: back).filterMap f) := by
  have hfront : ((front.filter isIdentityLeaf).filterMap f).Sublist (front.filterMap f) :=
    List.filter_sublist.filterMap f
  have hback : ((back.filter isIdentityLeaf).filterMap f).Sublist (back.filterMap f) :=
    List.filter_sublist.filterMap f
  rw [List.filterMap_append, List.filterMap_append]
  refine hfront.append ?_
  rw [List.filterMap_cons, List.filterMap_cons, hk]
  cases f selection with
  | none => exact hback
  | some found => exact hback.cons_cons found

theorem allValidOn_kept {scope : Scope} {keys : List String}
    (hv : KeptValidOn scope keys (front ++ selection :: back)) (hr : selection.remains keys = true)
    (hk : selection.ValidOn scope → kept.ValidOn scope) :
    AllValidOn scope (front.filter isIdentityLeaf ++ kept :: back.filter isIdentityLeaf) := by
  have hfilter : ∀ others : List Selection, (∀ other ∈ others, other ∈ front ++ selection :: back) →
      AllValidOn scope (others.filter isIdentityLeaf) := by
    intro others ho
    refine allValidOn_iff.2 fun other hm => ?_
    obtain ⟨hother, hi⟩ := List.mem_filter.1 hm
    exact hv other (ho other hother) (by rw [remains, hi, Bool.true_or])
  refine allValidOn_append.2 ⟨hfilter front fun _ => List.mem_append_left _, hk ?_, hfilter back ?_⟩
  · exact hv selection (List.mem_append_right _ List.mem_cons_self) hr
  · exact fun other ho => List.mem_append_right _ (List.mem_cons_of_mem _ ho)

theorem beside_kept (h : ∀ other ∈ front ++ back, other.Beside key) :
    ∀ other ∈ front.filter isIdentityLeaf ++ back.filter isIdentityLeaf, other.Beside key := by
  intro other ho
  rw [← List.filter_append] at ho
  exact h other (List.mem_filter.1 ho).1

end

end Selection

theorem Keyed.mem_insert {α : Type} {name : String} {value : α}
    {entries : List (String × α)} {entry : String × α} (h : entry ∈ Keyed.insert name value entries) :
    entry = (name, value) ∨ entry ∈ entries := by
  induction entries with
  | nil => exact .inl (List.mem_singleton.1 h)
  | cons first rest ih =>
    rw [Keyed.insert] at h
    split at h
    · rename_i hn
      rcases List.mem_cons.1 h with rfl | h
      · exact .inl (by rw [hn])
      · exact .inr (List.mem_cons_of_mem _ h)
    · rcases List.mem_cons.1 h with rfl | h
      · exact .inr List.mem_cons_self
      · exact (ih h).imp_right (List.mem_cons_of_mem _)

/-- A field that takes a cursor may get one. -/
theorem Scope.Offers.withCursor {scope : Scope} {field : Field} {type : TypeDescriptor}
    (h : scope.Offers field.name field.arguments type) (hp : scope.type.Pages field.name)
    (cursor : String) : scope.Offers field.name (field.withCursor cursor).arguments type := by
  obtain ⟨hn, declared, hd, ht, hfit⟩ := h
  obtain ⟨declared', hd', hc⟩ := hp
  obtain rfl : declared = declared' := Option.some.inj (hd.symm.trans hd')
  refine ⟨hn, declared, hd, ht, fun argument ha => ?_⟩
  rcases Keyed.mem_insert ha with rfl | ha
  · exact ⟨hc, rfl, fun _ hu => absurd hu List.not_mem_nil⟩
  · exact hfit argument ha

namespace Selection

namespace Trims

variable {bundle : Bundle} {nodes : SelectionSet} {cursor : String} {type : TypeDescriptor}
  {keys : List String} {selections trimmed : List Selection}

/-- Beside fields under other keys, pruning is settled by the selection that the keys lead through. -/
theorem of_one {key : String} {rest : List String} {front back : List Selection}
    {selection kept : Selection} (hb : ∀ other ∈ front ++ back, Beside key other)
    (hone : pruneOne cursor key rest selection = some (kept, true))
    (hl : Lane bundle nodes type (key :: rest)
      (front.filter isIdentityLeaf ++ kept :: back.filter isIdentityLeaf))
    (hc : (fieldAt? (key :: rest) [kept]).bind after? = some cursor)
    (hk : kept.key? = selection.key?) (hs : kept.spreadName? = selection.spreadName?)
    (hr : selection.remains (key :: rest) = true)
    (hv : ∀ scope : Scope, scope.bundle = bundle → scope.type = type →
      selection.ValidOn scope → kept.ValidOn scope) :
    Trims bundle nodes cursor type (key :: rest) (front ++ selection :: back)
      (front.filter isIdentityLeaf ++ kept :: back.filter isIdentityLeaf) where
  pruned name := prune_beside name hb hone
  lane := hl
  cursor := by
    rw [fieldAt?_beside (beside_kept hb)]
    exact hc
  fewerKeys := sublist_kept _ hk
  fewerSpreads := sublist_kept _ hs
  valid scope hbundle htype hvalid := allValidOn_kept hvalid hr (hv scope hbundle htype)

theorem distinct (h : Trims bundle nodes cursor type keys selections trimmed)
    (hd : Distinct selections) : Distinct trimmed :=
  ⟨hd.1.sublist h.fewerKeys, hd.2.sublist h.fewerSpreads⟩

/-- A valid set on the type is trimmed to a valid set. -/
theorem validOn {scope : Scope} {typeName : String}
    (h : Trims bundle nodes cursor type keys selections trimmed) (hb : scope.bundle = bundle)
    (ht : scope.type = type) (hv : SelectionSet.ValidOn scope ⟨typeName, selections⟩) :
    SelectionSet.ValidOn scope ⟨typeName, trimmed⟩ :=
  ⟨⟨hv.1.1, h.lane.ne_nil, h.distinct hv.1.2.2⟩,
    h.valid scope hb ht (keptValidOn_of_allValidOn hv.2 keys)⟩

theorem keptIfFound_eq {key : String}
    (h : Trims bundle nodes cursor type (key :: keys) selections trimmed) (typeName : String) :
    keptIfFound typeName (pruneEach cursor key keys selections) = some ⟨typeName, trimmed⟩ :=
  h.pruned typeName

end Trims

namespace Lane

variable {bundle : Bundle} {nodes : SelectionSet} {type : TypeDescriptor} {keys : List String}
  {selections : List Selection}

/-- Pruning to its keys leads a lane to the same nodes, after the cursor. -/
theorem trims (cursor : String) (h : Lane bundle nodes type keys selections) :
    ∃ trimmed, Trims bundle nodes cursor type keys selections trimmed := by
  induction h with
  | @connection type field typeName front inner back beside unaliased shows pages =>
    have hunaliased : Unaliased (.composite (field.withCursor cursor) typeName inner) := by
      intro found hf
      obtain rfl := Option.some.inj hf
      exact unaliased field rfl
    have hlane : Lane bundle nodes type [(field.withCursor cursor).responseKey]
        (front.filter isIdentityLeaf ++ .composite (field.withCursor cursor) typeName inner ::
          back.filter isIdentityLeaf) := .connection (beside_kept beside) hunaliased shows pages
    refine ⟨_, .of_one beside (pruneOne_end typeName inner rfl) hlane ?_ rfl rfl
      (remains_composite _ _ _ _) ?_⟩
    · simp [fieldAt?, openedAll, opened, answers, field?, after?, Field.withCursor,
        Field.responseKey, Keyed.find?_insert_self]
    · rintro scope rfl rfl hs
      unfold ValidOn at hs ⊢
      obtain ⟨below, ht, hset⟩ := hs
      exact ⟨below, ⟨ht.1.withCursor pages cursor, ht.2⟩, hset⟩
  | @object type below field key keys front inner back beside unaliased single known object further ih =>
    obtain ⟨trimmed, h⟩ := ih
    have hone : pruneOne cursor field.responseKey (key :: keys) (.composite field below.name inner) =
        some (.composite field below.name trimmed, true) := by
      rw [pruneOne_through below.name inner key keys rfl single, h.keptIfFound_eq]
      rfl
    refine ⟨_, .of_one beside hone (.object (beside_kept beside) unaliased single known object h.lane)
      ?_ rfl rfl (remains_composite _ _ _ _) ?_⟩
    · rw [fieldAt?_composite]
      exact h.cursor
    · rintro scope rfl rfl hs
      obtain ⟨hoffers, hset⟩ := hs.of_composite known
      unfold ValidOn
      exact ⟨below, hoffers, h.validOn rfl rfl hset⟩
  | @fragment type key typeName keys front inner back beside known further ih =>
    obtain ⟨trimmed, h⟩ := ih
    have hone : pruneOne cursor key keys (.inlineFragment type.name typeName inner) =
        some (.inlineFragment type.name typeName trimmed, true) := by
      rw [pruneOne, h.keptIfFound_eq]
      rfl
    refine ⟨_, .of_one beside hone (.fragment (beside_kept beside) known h.lane) ?_ rfl rfl
      (remains_inlineFragment _ _ _ _) ?_⟩
    · rw [fieldAt?_inlineFragment]
      exact h.cursor
    · rintro scope rfl rfl hs
      obtain ⟨hadmits, hset⟩ := hs.of_inlineFragment known
      unfold ValidOn
      exact ⟨scope.type, hadmits, h.validOn rfl rfl hset⟩

/-- On an object that is known by its id, a lane starts with another key. -/
theorem head?_ne {scope : Scope} (h : Lane bundle nodes type keys selections)
    (hb : scope.bundle = bundle) (ht : scope.type = type) (hv : KeptValidOn scope keys selections) :
    keys.head? ≠ some typenameField ∧ (scope.OffersLeaf "id" [] → keys.head? ≠ some "id") := by
  have hfield : ∀ {field : Field} {keys : List String} {typeName : String}
      {inner front back : List Selection}, Unaliased (.composite field typeName inner) →
      KeptValidOn scope (field.responseKey :: keys)
        (front ++ .composite field typeName inner :: back) →
      some field.responseKey ≠ some typenameField ∧
        (scope.OffersLeaf "id" [] → some field.responseKey ≠ some "id") := by
    intro field keys typeName inner front back hu hv
    have hvalid := hv _ (List.mem_append_right _ List.mem_cons_self) (remains_composite _ _ _ _)
    unfold ValidOn at hvalid
    obtain ⟨type, ⟨ht, hc⟩, -⟩ := hvalid
    obtain ⟨hid, htypename⟩ := hu field rfl
    cases halias : field.aliasName with
    | none =>
      rw [Field.responseKey, halias]
      refine ⟨fun he => ht.1 (Option.some.inj he), fun hleaf he => ?_⟩
      obtain ⟨hn, -⟩ | ⟨leaf, hleaf, hnot⟩ := hleaf
      · exact absurd hn (by decide)
      · have hname : field.name = "id" := Option.some.inj he
        have hsame := ht.typeOf?
        rw [hname, hleaf.typeOf?] at hsame
        rw [Option.some.inj hsame, hc] at hnot
        cases hnot
    | some name =>
      rw [halias] at hid htypename
      rw [Field.responseKey, halias]
      exact ⟨htypename, fun _ => hid⟩
  induction h with
  | connection beside unaliased shows pages => exact hfield unaliased hv
  | object beside unaliased single known object further => exact hfield unaliased hv
  | fragment beside known further ih =>
    subst hb ht
    have hvalid := hv _ (List.mem_append_right _ List.mem_cons_self)
      (remains_inlineFragment _ _ _ _)
    exact ih rfl (keptValidOn_of_allValidOn (hvalid.of_inlineFragment known).2.2 _)

end Lane

/-- A field, which no alias makes to look like the identity of an object. -/
structure Direct (selection : Selection) : Prop where
  isField : selection.field?.isSome = true
  unaliased : selection.Unaliased

instance : DecidablePred Direct := fun selection =>
  decidable_of_iff (selection.field?.isSome = true ∧ selection.Unaliased)
    ⟨fun h => ⟨h.1, h.2⟩, fun h => ⟨h.1, h.2⟩⟩

/-- The keys name fields on object types one below the other, and a connection with these nodes at
the end. -/
inductive Reaches (bundle : Bundle) (nodes : SelectionSet) :
    TypeDescriptor → List String → List Selection → Prop
  | connection {type : TypeDescriptor} {field : Field} {typeName : String}
      {inner selections : List Selection}
      (selected : .composite field typeName inner ∈ selections)
      (shows : connectionNodeSet? (.composite field typeName inner) = some nodes)
      (pages : type.Pages field.name) :
      Reaches bundle nodes type [field.responseKey] selections
  | object {type below : TypeDescriptor} {field : Field} {key : String} {keys : List String}
      {inner selections : List Selection}
      (selected : .composite field below.name inner ∈ selections)
      (single : field.connection = false)
      (known : bundle.get? below.name = some below)
      (object : below.kind = .object)
      (further : Reaches bundle nodes below (key :: keys) inner) :
      Reaches bundle nodes type (field.responseKey :: key :: keys) selections

/-- Other fields of a set have other keys. -/
theorem Distinct.beside {field : Field} {front back : List Selection} {selection : Selection}
    (h : Distinct (front ++ selection :: back))
    (hd : EverywhereAll Direct (front ++ selection :: back)) (hf : selection.field? = some field) :
    ∀ other ∈ front ++ back, other.Beside field.responseKey := by
  intro other ho
  have hmem : other ∈ front ++ selection :: back := by
    rcases List.mem_append.1 ho with ho | ho
    · exact List.mem_append_left _ ho
    · exact List.mem_append_right _ (List.mem_cons_of_mem _ ho)
  obtain ⟨found, hfound⟩ := Option.isSome_iff_exists.1 (everywhereAll_iff.1 hd other hmem).self.isField
  refine ⟨found, hfound, fun he => ?_⟩
  have hkey : other.key? = some field.responseKey := by rw [key?, hfound, Option.map_some, he]
  have hnodup := h.1
  have hselection : selection.key? = some field.responseKey := by rw [key?, hf, Option.map_some]
  rw [List.filterMap_append, List.filterMap_cons_some hselection] at hnodup
  obtain ⟨-, hback, hfront⟩ := List.nodup_append.1 hnodup
  rcases List.mem_append.1 ho with ho | ho
  · exact hfront _ (List.mem_filterMap.2 ⟨other, ho, hkey⟩) _ List.mem_cons_self rfl
  · exact (List.nodup_cons.1 hback).1 (List.mem_filterMap.2 ⟨other, ho, hkey⟩)

/-- Where there are no fragments, keys are those of a lane. -/
theorem Reaches.lane {bundle : Bundle} {nodes : SelectionSet} {type : TypeDescriptor}
    {keys : List String} {selections : List Selection} (h : Reaches bundle nodes type keys selections)
    {scope : Scope} (hv : AllValidOn scope selections) (hdistinct : Distinct selections)
    (hd : EverywhereAll Direct selections) : Lane bundle nodes type keys selections := by
  induction h generalizing scope with
  | connection selected shows pages =>
    obtain ⟨front, back, rfl⟩ := List.append_of_mem selected
    have hself := (everywhereAll_iff.1 hd _ selected).self
    exact .connection (hdistinct.beside hd rfl) hself.unaliased shows pages
  | object selected single known object further ih =>
    obtain ⟨front, back, rfl⟩ := List.append_of_mem selected
    have hfield := everywhereAll_iff.1 hd _ selected
    have hvalid := allValidOn_iff.1 hv _ selected
    unfold ValidOn at hvalid
    obtain ⟨found, -, hp, hi⟩ := hvalid
    exact .object (hdistinct.beside hd rfl) hfield.self.unaliased single known object
      (ih hi hp.2.2 hfield.2)

end Selection

end GraphQLClient
