import Mathlib.Data.List.Infix
import GraphQLClient.Proofs.Decoding.Provenance
import GraphQLClient.Proofs.Paging.Replays
import GraphQLClient.Schema.Issue

set_option autoImplicit false

/-!
# Which follow-up queries can be drilled

The keys of a follow-up query lead through its answer one object at a time. They do so if none of the
fields before the last is a list or a connection, and whether that is so can be seen from what the query
keeps of the set that it starts from.
-/

namespace GraphQLClient

/-- The type declares the field with a list of values. -/
def TypeDescriptor.lists (type : TypeDescriptor) (name : String) : Bool :=
  (type.field? name).any (·.type.isList)

namespace Bundle

/-- The type that a field returns. -/
def below (bundle : Bundle) (type : TypeDescriptor) (name : String) : TypeDescriptor :=
  ((type.field? name).bind fun declared => bundle.get? declared.typeName).getD default

/-- The type that a fragment narrows `type` to. -/
def narrow (bundle : Bundle) (type : TypeDescriptor) (condition : String) : TypeDescriptor :=
  (bundle.get? condition).getD type

end Bundle

namespace Selection

mutual
/-- Of the fields along the keys, on an object of type `type`, all before the last one have a single
object for their value. -/
def straight (bundle : Bundle) (type : TypeDescriptor) (key : String) (rest : List String) :
    Selection → Bool
  | .leaf _ => true
  | .composite field _ selections =>
    match rest with
    | [] => true
    | next :: more =>
      field.responseKey != key || (!field.connection && !type.lists field.name &&
        straightAll bundle (bundle.below type field.name) next more selections)
  | .inlineFragment condition _ selections =>
    straightAll bundle (bundle.narrow type condition) key rest selections
  | .spread _ _ condition _ selections =>
    straightAll bundle (bundle.narrow type condition) key rest selections

def straightAll (bundle : Bundle) (type : TypeDescriptor) (key : String) (rest : List String) :
    List Selection → Bool
  | [] => true
  | selection :: others =>
    straight bundle type key rest selection && straightAll bundle type key rest others
end

mutual
/-- No fragment is spread on the way along the keys, as far as it leads through single objects. -/
def unspread (key : String) (rest : List String) : Selection → Bool
  | .leaf _ => true
  | .composite field _ selections =>
    match rest with
    | [] => true
    | next :: more =>
      field.responseKey != key || field.connection || unspreadAll next more selections
  | .inlineFragment _ _ selections => unspreadAll key rest selections
  | .spread .. => false

def unspreadAll (key : String) (rest : List String) : List Selection → Bool
  | [] => true
  | selection :: others => unspread key rest selection && unspreadAll key rest others
end

end Selection

/-- `Selection.straightAll`, with the keys in one list. -/
def SelectionSet.straightAlong (bundle : Bundle) (type : TypeDescriptor) (set : SelectionSet) :
    List String → Bool
  | [] => true
  | key :: rest => Selection.straightAll bundle type key rest set.selections

/-- No field of the operation on the path before the last one is a list or a connection. -/
def Operation.straightAlong (operation : Operation) (bundle : Bundle) (path : List String) : Bool :=
  match OperationDraft.root? bundle operation.kind with
  | .ok root => operation.set.straightAlong bundle root path
  | .error _ => true

namespace PageMark

/-- What is kept of the set around the place leads to it through single objects: the set of the object
with an id, which is to be fetched as a single one itself, or that of the operation. -/
def straight (mark : PageMark) : Bool :=
  let bundle := mark.source.bundle
  match mark.usableAnchor? with
  | some anchor =>
    let keys := mark.path.drop anchor.depth
    !bundle.queryRoot.lists nodeFieldName && (anchor.set.prune keys mark.cursor).all fun kept =>
      kept.straightAlong bundle (bundle.narrow default anchor.typeName) keys
  | none =>
    let origin := mark.source.operation
    (origin.set.prune mark.path mark.cursor).all fun kept =>
      Operation.straightAlong ⟨origin.kind, origin.name, origin.declarations, origin.directives, kept⟩
        bundle mark.path

end PageMark

namespace Selection

variable {bundle : Bundle} {type : TypeDescriptor} {key : String} {rest : List String}

theorem straightAll_eq_all (selections : List Selection) :
    straightAll bundle type key rest selections =
      selections.all (straight bundle type key rest) := by
  induction selections with
  | nil => rfl
  | cons selection others ih => rw [straightAll, ih, List.all_cons]

theorem straightAll_append (before after : List Selection) :
    straightAll bundle type key rest (before ++ after) =
      (straightAll bundle type key rest before && straightAll bundle type key rest after) := by
  simp only [straightAll_eq_all, List.all_append]

theorem straightAll_singleton (selection : Selection) :
    straightAll bundle type key rest [selection] = straight bundle type key rest selection :=
  Bool.and_true _

theorem straight_of_mem {selection : Selection} {selections : List Selection}
    (h : straightAll bundle type key rest selections = true) (hs : selection ∈ selections) :
    straight bundle type key rest selection = true := by
  rw [straightAll_eq_all, List.all_eq_true] at h
  exact h selection hs

/-! ## What a scope makes of selections -/

mutual
theorem straight_same {a b : Selection} (type : TypeDescriptor) (key : String) (rest : List String)
    (h : a.same b = true) : straight bundle type key rest a = straight bundle type key rest b := by
  cases a with
  | leaf field =>
    cases b with
    | leaf field' => rfl
    | _ => simp only [same, Bool.false_eq_true] at h
  | composite field typeName selections =>
    cases b with
    | composite field' typeName' selections' =>
      simp only [same, Field.same, Bool.and_eq_true, beq_iff_eq] at h
      obtain ⟨⟨⟨⟨⟨hname, halias⟩, -⟩, hconnection⟩, -⟩, hs⟩ := h
      cases rest with
      | nil => rfl
      | cons next more =>
        simp only [straight, Field.responseKey, hname, halias, hconnection,
          straightAll_same _ next more hs]
    | _ => simp only [same, Bool.false_eq_true] at h
  | inlineFragment condition typeName selections =>
    cases b with
    | inlineFragment condition' typeName' selections' =>
      simp only [same, Bool.and_eq_true, beq_iff_eq] at h
      obtain ⟨⟨rfl, -⟩, hs⟩ := h
      exact straightAll_same _ key rest hs
    | _ => simp only [same, Bool.false_eq_true] at h
  | spread serial name condition typeName selections =>
    cases b with
    | spread serial' name' condition' typeName' selections' =>
      simp only [same, Bool.and_eq_true, beq_iff_eq] at h
      obtain ⟨⟨⟨-, rfl⟩, -⟩, hs⟩ := h
      exact straightAll_same _ key rest hs
    | _ => simp only [same, Bool.false_eq_true] at h

theorem straightAll_same {a b : List Selection} (type : TypeDescriptor) (key : String)
    (rest : List String) (h : sameAll a b = true) :
    straightAll bundle type key rest a = straightAll bundle type key rest b := by
  cases a with
  | nil => cases b <;> first | rfl | cases h
  | cons s a =>
    cases b with
    | nil => cases h
    | cons t b =>
      simp only [sameAll, Bool.and_eq_true] at h
      rw [straightAll, straightAll, straight_same type key rest h.1, straightAll_same type key rest h.2]
end

theorem straightAll_settled {before : List Selection} {made : Selection} {answer : String}
    (hf : Fits before answer made) : straightAll bundle type key rest (settled before answer made) =
      (straightAll bundle type key rest before && straight bundle type key rest made) := by
  rw [straightAll_eq_all, straightAll_eq_all]
  exact hf.all_settled fun _ => straight_same type key rest

end Selection

namespace Scope

theorem Offers.below {scope : Scope} {name : String} {arguments : List (String × Value)}
    {type : TypeDescriptor} (h : scope.Offers name arguments type) :
    scope.bundle.below scope.type name = type := by
  obtain ⟨-, declared, hd, ht, -⟩ := h
  simp [Bundle.below, hd, ht]

theorem Admits.narrow {scope : Scope} {condition : String} {target : TypeDescriptor}
    (h : scope.Admits condition target) (type : TypeDescriptor) :
    scope.bundle.narrow type condition = target ∧ scope.bundle.narrow type target.name = target := by
  simp [Bundle.narrow, h.1, Bundle.get?_self h.1]

mutual
theorem Rebuilds.straight {selection : Selection} {scope : Scope} {before after : List Selection}
    {key : String} {rest : List String} (hu : selection.unspread key rest = true)
    (h : scope.Rebuilds selection before after) :
    Selection.straightAll scope.bundle scope.type key rest after =
      (Selection.straightAll scope.bundle scope.type key rest before &&
        Selection.straight scope.bundle scope.type key rest selection) := by
  cases selection with
  | leaf field =>
    unfold Rebuilds at h
    rw [h.2, Selection.straightAll_settled h.1.2]
  | composite field typeName selections =>
    unfold Rebuilds at h
    obtain ⟨type, inner, ht, hi, rfl⟩ := h
    rw [Selection.straightAll_settled ht.2.2]
    congr 1
    cases rest with
    | nil => rfl
    | cons next more =>
      simp only [Selection.straight, ht.1.1.below]
      by_cases hkey : field.responseKey = key
      · cases hc : field.connection with
        | true => simp
        | false =>
          have hinner : Selection.unspreadAll next more selections = true := by
            simpa [Selection.unspread, hkey, hc] using hu
          have hsame := RebuildsAll.straight hinner hi
          change Selection.straightAll scope.bundle type next more inner =
            Selection.straightAll scope.bundle type next more selections at hsame
          rw [hsame]
      · have hne : (field.responseKey != key) = true := by simpa using hkey
        rw [hne, Bool.true_or, Bool.true_or]
  | inlineFragment condition typeName selections =>
    unfold Rebuilds at h
    obtain ⟨target, inner, ha, hi, -, rfl⟩ := h
    obtain ⟨hnarrow, hself⟩ := ha.narrow scope.type
    rw [Selection.straightAll_append, Selection.straightAll_singleton, Selection.straight,
      Selection.straight, hnarrow, hself]
    congr 1
    exact RebuildsAll.straight hu hi
  | spread serial name condition typeName selections => cases hu

/-- What a scope makes of selections is as straight as they are. -/
theorem RebuildsAll.straight {selections : List Selection} {scope : Scope}
    {before after : List Selection} {key : String} {rest : List String}
    (hu : Selection.unspreadAll key rest selections = true)
    (h : scope.RebuildsAll selections before after) :
    Selection.straightAll scope.bundle scope.type key rest after =
      (Selection.straightAll scope.bundle scope.type key rest before &&
        Selection.straightAll scope.bundle scope.type key rest selections) := by
  cases selections with
  | nil =>
    unfold RebuildsAll at h
    rw [h, Selection.straightAll, Bool.and_true]
  | cons selection others =>
    unfold RebuildsAll at h
    obtain ⟨between, hfirst, hrest⟩ := h
    rw [Selection.unspreadAll, Bool.and_eq_true] at hu
    rw [RebuildsAll.straight hu.2 hrest, Rebuilds.straight hu.1 hfirst, Selection.straightAll,
      Bool.and_assoc]
end

theorem straightAll_opening (scope : Scope) (bundle : Bundle) (type : TypeDescriptor) (key : String)
    (rest : List String) : Selection.straightAll bundle type key rest scope.opening = true := by
  unfold opening
  split <;> split <;> rfl

end Scope

/-! ## What pruning keeps -/

namespace Selection

variable {cursor : String}

theorem unspreadAll_keptIfFound {key typeName : String} {rest : List String}
    {kept : List (Selection × Bool)} {set : SelectionSet}
    (hk : unspreadAll key rest (kept.map Prod.fst) = true) (h : keptIfFound typeName kept = some set) :
    unspreadAll key rest set.selections = true := by
  rw [eq_of_keptIfFound h]
  exact hk

theorem unspreadAll_append {key : String} {rest : List String} (before after : List Selection) :
    unspreadAll key rest (before ++ after) =
      (unspreadAll key rest before && unspreadAll key rest after) := by
  induction before with
  | nil => rfl
  | cons selection others ih => rw [List.cons_append, unspreadAll, unspreadAll, ih, Bool.and_assoc]

mutual
theorem unspread_pruneOne {selection : Selection} {key : String} {rest : List String}
    {kept : Selection × Bool} (h : pruneOne cursor key rest selection = some kept) :
    kept.1.unspread key rest = true := by
  cases selection with
  | leaf field => obtain ⟨-, -, rfl⟩ | ⟨-, -, rfl⟩ := pruneOne_leaf_cases h <;> rfl
  | composite field typeName selections =>
    obtain ⟨-, ⟨rfl, rfl⟩ | ⟨next, more, rfl, hthrough⟩⟩ := pruneOne_composite_cases h
    · rfl
    · obtain ⟨-, set, hset, rfl⟩ | ⟨hc, old, nodes, -, -, rfl⟩ := hthrough
      · simp [unspread, unspreadAll_keptIfFound unspreadAll_pruneEach hset]
      · simp [unspread, hc]
  | inlineFragment condition typeName selections =>
    obtain ⟨set, hset, rfl⟩ := Option.map_eq_some_iff.1 h
    exact unspreadAll_keptIfFound unspreadAll_pruneEach hset
  | spread serial name condition typeName selections =>
    obtain ⟨set, hset, rfl⟩ := Option.map_eq_some_iff.1 h
    exact unspreadAll_keptIfFound unspreadAll_pruneEach hset

/-- Pruning puts inline fragments in the place of those that are spread on the way. -/
theorem unspreadAll_pruneEach {selections : List Selection} {key : String} {rest : List String} :
    unspreadAll key rest ((pruneEach cursor key rest selections).map Prod.fst) = true := by
  cases selections with
  | nil => rfl
  | cons selection others =>
    rw [pruneEach, List.map_append, unspreadAll_append, unspreadAll_pruneEach, Bool.and_true]
    cases h : pruneOne cursor key rest selection with
    | none => rfl
    | some kept =>
      change (kept.1.unspread key rest && true) = true
      rw [unspread_pruneOne h]
      rfl
end

end Selection

theorem SelectionSet.unspread_prune {set kept : SelectionSet} {key cursor : String}
    {keys : List String} (h : set.prune (key :: keys) cursor = some kept) :
    Selection.unspreadAll key keys kept.selections = true := by
  rw [SelectionSet.prune_eq_some h]
  exact Selection.unspreadAll_pruneEach

namespace Scope

/-- A query for an object is as straight as what it selects on it, if the object is a single one. -/
theorem Fetches.straight {scope : Scope} {id typeName key : String} {keys : List String}
    {set : SelectionSet} {after : List Selection}
    (h : scope.Fetches id typeName set scope.opening after)
    (hu : Selection.unspreadAll key keys set.selections = true) :
    Selection.straightAll scope.bundle scope.type nodeFieldName (key :: keys) after =
      (!scope.type.lists nodeFieldName && Selection.straightAll scope.bundle
        (scope.bundle.narrow default typeName) key keys set.selections) := by
  obtain ⟨nodeType, target, inner, -, ha, hi, -, ht, rfl⟩ := h
  have hinner : Selection.straightAll scope.bundle target key keys inner =
      Selection.straightAll scope.bundle target key keys set.selections := RebuildsAll.straight hu hi
  have hnode : scope.bundle.below scope.type (fetching id).name = nodeType := ht.1.1.below
  have hself : scope.bundle.narrow nodeType target.name = target := (ha.narrow nodeType).2
  have hnarrow : scope.bundle.narrow default typeName = target := (ha.narrow default).1
  have hkey : ((fetching id).responseKey != nodeFieldName) = false := by
    simp [fetching, Field.responseKey, Field.ofOptions]
  have hconnection : (fetching id).connection = false := rfl
  have hfits : Selection.Fits scope.opening nodeFieldName (.composite (fetching id) nodeType.name
    ((scope.within nodeType).narrowed target inner)) := ht.2.2
  rw [Selection.straightAll_settled hfits, straightAll_opening, Bool.true_and, Selection.straight,
    hkey, hconnection, hnode, narrowed, Selection.straightAll_append, straightAll_opening,
    Selection.straightAll_singleton, Selection.straight, hself, hinner, hnarrow]
  rfl

end Scope

namespace PageMark

variable {mark : PageMark} {next : FollowUp}

/-- The query for the next page is as straight as what is kept for it. -/
theorem straight_nextPage (h : mark.nextPage = .ok next) :
    next.operation.straightAlong mark.source.bundle next.path = mark.straight := by
  obtain ⟨anchor, kept, hu, hp, h⟩ | ⟨hu, kept, hp, h⟩ := nextPage_cases h
  · obtain ⟨key, keys, hkeys⟩ := SelectionSet.keys_of_prune hp
    obtain ⟨hb, hpath, -⟩ := FollowUp.ofDraft_eq_ok h
    obtain ⟨scope, hbundle, hroot, hkind, -, hset⟩ := OperationDraft.set_of_build
      (fun scope => Scope.runs_nodeProgram scope anchor.id anchor.typeName kept scope.opening) hb
    have hquery : scope.type = mark.source.bundle.queryRoot := (Except.ok.inj hroot).symm
    have hop : next.operation.kind = .query := hkind
    rw [hkeys] at hp hpath
    have hstraight := hset.straight (SelectionSet.unspread_prune hp)
    rw [hbundle, hquery] at hstraight
    simp only [straight, hu, hkeys, hp, hpath, Operation.straightAlong, hop, OperationDraft.root?,
      SelectionSet.straightAlong, Option.all_some]
    exact hstraight
  · obtain ⟨key, keys, hkeys⟩ := SelectionSet.keys_of_prune hp
    obtain ⟨hb, hpath, -⟩ := FollowUp.ofDraft_eq_ok h
    obtain ⟨scope, hbundle, hroot, hkind, -, hset⟩ :=
      OperationDraft.set_of_build (fun scope => Scope.runs_extend scope kept scope.opening) hb
    have hop : next.operation.kind = mark.source.operation.kind := hkind
    have hroot : OperationDraft.root? mark.source.bundle mark.source.operation.kind =
      .ok scope.type := hroot
    rw [hkeys] at hp hpath
    have hstraight := Scope.RebuildsAll.straight (SelectionSet.unspread_prune hp) hset
    rw [hbundle, Scope.straightAll_opening, Bool.true_and] at hstraight
    simp only [straight, hu, hkeys, hp, hpath, Operation.straightAlong, hop, hroot,
      SelectionSet.straightAlong, Option.all_some]
    exact hstraight

end PageMark

/-! ## Answers -/

/-- The response key of a move. -/
def Move.name? : Move → Option String
  | .key name => some name
  | .item _ => none

/-- No list stands on the way of the address. -/
def Decoded.Unlisted (decoded : Decoded) (address : List Move) : Prop :=
  ∀ before, before <+: address → ∀ items, decoded.at? before ≠ some (.list items)

theorem Decoded.Unlisted.tail {decoded inner : Decoded} {move : Move} {address : List Move}
    (h : decoded.Unlisted (move :: address)) (hm : decoded.move? move = some inner) :
    inner.Unlisted address := by
  intro before hb items ha
  refine h (move :: before) (List.cons_prefix_cons.2 ⟨rfl, hb⟩) items ?_
  rw [Decoded.at?, hm]
  exact ha

/-- Without lists and without further keys nothing but the place itself is a connection. -/
theorem Decoded.eq_nil_of_connection {decoded : Decoded} {address : List Move} {nodes : List Model}
    {info : PageInfo} {mark : Option PageMark} (hu : decoded.Unlisted address)
    (hk : address.filterMap Move.name? = [])
    (ha : decoded.at? address = some (.connection nodes info mark)) : address = [] := by
  cases address with
  | nil => rfl
  | cons move rest =>
    cases move with
    | key name => cases hk
    | item index =>
      obtain ⟨inner, hm, ha⟩ := Option.bind_eq_some_iff.1 ha
      cases decoded with
      | list items => exact absurd rfl (hu [] (List.nil_prefix) items)
      | connection nodes info mark =>
        obtain ⟨node, -, rfl⟩ := Option.map_eq_some_iff.1 hm
        cases rest with
        | nil => cases ha
        | cons move rest =>
          cases move with
          | key name => cases hk
          | item index => cases ha
      | _ => cases hm

namespace Selection

variable {bundle : Bundle} {concrete : TypeDescriptor} {key : String} {rest : List String}

/-- Each selection is straight on some type. -/
def EachStraight (bundle : Bundle) (key : String) (rest : List String) (selections : List Selection) :
    Prop :=
  ∀ selection ∈ selections, ∃ type, straight bundle type key rest selection = true

theorem eachStraight_of_straightAll {type : TypeDescriptor} {selections : List Selection}
    (h : straightAll bundle type key rest selections = true) :
    EachStraight bundle key rest selections :=
  fun _ hs => ⟨type, straight_of_mem h hs⟩

mutual
theorem eachStraight_fieldsOn {selection : Selection} {type : TypeDescriptor}
    (h : straight bundle type key rest selection = true) :
    EachStraight bundle key rest (fieldsOn bundle concrete selection) := by
  cases selection with
  | leaf field => exact fun other ho => ⟨type, List.mem_singleton.1 ho ▸ h⟩
  | composite field typeName selections => exact fun other ho => ⟨type, List.mem_singleton.1 ho ▸ h⟩
  | inlineFragment condition typeName selections =>
    rw [fieldsOn]
    split
    · exact eachStraight_fieldsOnAll (eachStraight_of_straightAll h)
    · exact fun _ ho => absurd ho List.not_mem_nil
  | spread serial name condition typeName selections =>
    rw [fieldsOn]
    split
    · exact eachStraight_fieldsOnAll (eachStraight_of_straightAll h)
    · exact fun _ ho => absurd ho List.not_mem_nil

theorem eachStraight_fieldsOnAll {selections : List Selection}
    (h : EachStraight bundle key rest selections) :
    EachStraight bundle key rest (fieldsOnAll bundle concrete selections) := by
  cases selections with
  | nil => exact fun _ ho => absurd ho List.not_mem_nil
  | cons selection others =>
    intro other ho
    rw [fieldsOnAll] at ho
    rcases List.mem_append.1 ho with ho | ho
    · obtain ⟨type, htype⟩ := h selection List.mem_cons_self
      exact eachStraight_fieldsOn htype other ho
    · exact eachStraight_fieldsOnAll (fun s hs => h s (List.mem_cons_of_mem _ hs)) other ho
end

/-- A straight field with more keys to come is no connection, and straight inside. -/
theorem EachStraight.inner {selections inner : List Selection} {field : Field} {typeName next : String}
    {more : List String} (h : EachStraight bundle key (next :: more) selections)
    (hs : .composite field typeName inner ∈ selections) (hk : field.responseKey = key) :
    field.connection = false ∧ EachStraight bundle next more inner := by
  obtain ⟨type, htype⟩ := h _ hs
  simp only [straight, hk, bne_self_eq_false, Bool.false_or, Bool.and_eq_true,
    Bool.not_eq_eq_eq_not, Bool.not_true] at htype
  exact ⟨htype.1.1, eachStraight_of_straightAll htype.2⟩

end Selection

/-- A group with sets is that of a field with a set. -/
theorem Collected.field_of_joined {bundle : Bundle} {type : TypeDescriptor} {parts : List Part}
    {name : String} {collected : Collected}
    (hj : joined ((fieldsOfParts bundle type parts).filter (·.key == name)) = some collected)
    (hne : collected.parts ≠ []) :
    collected.field.responseKey = name ∧ ∃ typeName selections,
      Selection.composite collected.field typeName selections ∈
        Selection.fieldsOnAll bundle type (Part.merged parts).selections := by
  cases hfields : (fieldsOfParts bundle type parts).filter (·.key == name) with
  | nil =>
    rw [hfields] at hj
    cases hj
  | cons first rest =>
    obtain ⟨hmem, hkey⟩ : first ∈ fieldsOfParts bundle type parts ∧ (first.key == name) = true :=
      List.mem_filter.1 (hfields ▸ List.mem_cons_self)
    rw [hfields] at hj
    obtain hnil | ⟨pair, rfl⟩ := parts_fieldsOfParts parts first hmem
    · rw [joined_leaf rest hnil] at hj
      obtain rfl := Option.some.inj hj
      exact absurd hnil hne
    · obtain ⟨found, hfound⟩ := joined_field (ofPair pair) rest
      obtain rfl := Option.some.inj (hj.symm.trans hfound)
      exact ⟨beq_iff_eq.1 hkey, _, _, mem_fieldsOn hmem⟩

namespace Decoder

variable {decoder : Decoder} {static : TypeDescriptor} {parts : List Part} {key : String}
  {spot between : Spot}

/-- Where a straight way goes on, it goes on from an object. -/
theorem shape_of_straight {next : String} {more : List String} {entries : List (String × Json)}
    (hs : spot.shape = .object static parts) (hj : spot.json = .obj entries)
    (h : Selection.EachStraight decoder.bundle key (next :: more) (Part.merged parts).selections)
    (hb : decoder.step? spot (.key key) = some between) :
    between.shape = .raw ∨ ∃ type parts', between.shape = .object type parts' ∧
      Selection.EachStraight decoder.bundle next more (Part.merged parts').selections := by
  rw [step?_key hs hj] at hb
  obtain ⟨collected, hjoined, hb⟩ := Option.bind_eq_some_iff.1 hb
  obtain ⟨json, -, rfl⟩ := Option.map_eq_some_iff.1 hb
  have hfields : Selection.EachStraight decoder.bundle key (next :: more)
      (Selection.fieldsOnAll decoder.bundle (decoder.concreteType static entries)
        (Part.merged parts).selections) :=
    Selection.eachStraight_fieldsOnAll h
  change Shape.ofCollected decoder.bundle collected = .raw ∨ _
  cases hparts : collected.parts with
  | nil =>
    left
    unfold Shape.ofCollected
    rw [hparts]
  | cons first others =>
    obtain ⟨hkey, typeName, selections, hmem⟩ :=
      Collected.field_of_joined hjoined (hparts ▸ List.cons_ne_nil _ _)
    obtain ⟨hconnection, -⟩ := hfields.inner hmem hkey
    cases htype : decoder.bundle.get? first.set.typeName with
    | none =>
      left
      simp only [Shape.ofCollected, hparts, htype]
    | some type =>
      refine .inr ⟨type, collected.parts, ?_, fun selection hs => ?_⟩
      · simp only [Shape.ofCollected, hparts, htype, hconnection]
        rfl
      · obtain ⟨part, hp, hs⟩ := List.mem_flatMap.1 hs
        obtain ⟨field, hfield, hcomposite⟩ := Collected.composite_of_mem hjoined hp
        exact (hfields.inner hcomposite hfield).2 selection hs

/-- A straight way that passes no list passes nothing but keys. -/
theorem eq_keys_of_straight {address : List Move} {rest : List String} {nodes : List Model}
    {info : PageInfo} {mark : Option PageMark} (hs : spot.shape = .object static parts)
    (h : Selection.EachStraight decoder.bundle key rest (Part.merged parts).selections)
    (hu : (decoder.read spot).Unlisted address)
    (hk : address.filterMap Move.name? = key :: rest)
    (ha : (decoder.read spot).at? address = some (.connection nodes info mark)) :
    address = (key :: rest).map .key := by
  induction address generalizing spot static parts key rest with
  | nil => cases hk
  | cons move address ih =>
    obtain ⟨inner, hm, hlast⟩ := Option.bind_eq_some_iff.1 ha
    have hrest := hu.tail hm
    rw [move?_read] at hm
    obtain ⟨between, hb, rfl⟩ := Option.map_eq_some_iff.1 hm
    obtain ⟨shape, position, mark', json⟩ := spot
    obtain rfl : shape = _ := hs
    cases json with
    | obj entries =>
      cases move with
      | item index => cases hb
      | key name =>
        obtain ⟨rfl, hkeys⟩ := List.cons.inj (show name :: address.filterMap Move.name? = _ from hk)
        cases rest with
        | nil => rw [Decoded.eq_nil_of_connection hrest hkeys hlast]; rfl
        | cons next more =>
          obtain hraw | ⟨type, parts', hshape, hinner⟩ := shape_of_straight rfl rfl h hb
          · obtain ⟨shape, position, mark, json⟩ := between
            obtain rfl : shape = .raw := hraw
            cases address with
            | nil => cases hkeys
            | cons move address => cases json <;> cases move <;> cases hlast
          · rw [ih hshape hinner hrest hkeys hlast]
            rfl
    | arr items => exact absurd rfl (hu [] List.nil_prefix _)
    | _ => cases move <;> cases hb

/-- The keys of a straight operation lead to every connection that they are the keys of. -/
theorem drill_of_straight {data : Json} {address : List Move} {path : List String}
    {nodes : List Model} {info : PageInfo} {mark : Option PageMark}
    (h : decoder.source.operation.straightAlong decoder.bundle path = true)
    (hroot : ∃ root, OperationDraft.root? decoder.bundle decoder.source.operation.kind = .ok root)
    (hu : (Decoded.object (decoder.decode data)).Unlisted address)
    (hk : address.filterMap Move.name? = path)
    (ha : (Decoded.object (decoder.decode data)).at? address = some (.connection nodes info mark)) :
    (decoder.decode data).drill path = some (.connection nodes info mark) := by
  obtain ⟨root, hroot⟩ := hroot
  rw [Operation.straightAlong, hroot] at h
  cases path with
  | nil => cases Decoded.eq_nil_of_connection hu hk ha ▸ ha
  | cons key rest =>
    have heach : Selection.EachStraight decoder.bundle key rest
        (Part.merged [.ofOperation decoder.source.operation.set]).selections := by
      rw [Part.merged_singleton]
      exact Selection.eachStraight_of_straightAll h
    have hshape : (decoder.root data).shape = _ := rfl
    have haddress : address = (key :: rest).map .key := eq_keys_of_straight hshape heach hu hk ha
    rw [drill_eq_at?, ← haddress]
    exact ha

end Decoder

/-- The decoder for the answer to the query after a mark. -/
def PageMark.answerDecoder (mark : PageMark) (next : FollowUp) : Decoder :=
  ⟨⟨mark.source.bundle, next.operation, next.values⟩, none⟩

theorem PageMark.root_of_nextPage {mark : PageMark} {next : FollowUp} (h : mark.nextPage = .ok next) :
    ∃ root, OperationDraft.root? mark.source.bundle next.operation.kind = .ok root := by
  have hdraft : ∀ draft path, FollowUp.ofDraft mark.source draft path = .ok next →
      ∃ root, OperationDraft.root? mark.source.bundle next.operation.kind = .ok root := by
    intro draft path hd
    obtain ⟨hb, -, -⟩ := FollowUp.ofDraft_eq_ok hd
    obtain ⟨scope, set, hscope, -, hoperation⟩ := OperationDraft.build_eq_ok hb
    obtain ⟨hroot, -, -, -⟩ := OperationDraft.scope_eq_ok hscope
    rw [hoperation]
    exact ⟨_, hroot⟩
  obtain ⟨anchor, kept, -, -, h⟩ | ⟨-, kept, -, h⟩ := nextPage_cases h
  · exact hdraft _ _ h
  · exact hdraft _ _ h

/-- The query for the next page passes no list and no connection exactly if what it keeps passes none.
Its keys then lead to the connection in every answer that holds one under them and no list on the way. -/
theorem PageMark.nextPage_drilled {mark : PageMark} {next : FollowUp} (h : mark.nextPage = .ok next) :
    next.operation.straightAlong mark.source.bundle next.path = mark.straight ∧
      (mark.straight = true → ∀ (decoder : Decoder) (data : Json) (address : List Move)
        (nodes : List Model) (info : PageInfo) (found : Option PageMark),
        decoder.source = ⟨mark.source.bundle, next.operation, next.values⟩ →
        (Decoded.object (decoder.decode data)).at? address = some (.connection nodes info found) →
        address.filterMap Move.name? = next.path →
        (Decoded.object (decoder.decode data)).Unlisted address →
        (decoder.decode data).drill next.path = some (.connection nodes info found)) := by
  have hsame := straight_nextPage h
  refine ⟨hsame, ?_⟩
  intro hstraight decoder data address nodes info found hsource ha hk hu
  have hoperation : decoder.source.operation = next.operation := by rw [hsource]
  have hbundle : decoder.bundle = mark.source.bundle := by rw [Decoder.bundle, hsource]
  have hlong : decoder.source.operation.straightAlong decoder.bundle next.path = true := by
    rw [hoperation, hbundle, hsame]
    exact hstraight
  refine Decoder.drill_of_straight hlong ?_ hu hk ha
  rw [hoperation, hbundle]
  exact root_of_nextPage h

/-- It is enough to look at the places on the way. -/
theorem Decoded.unlisted_of_inits {decoded : Decoded} {address : List Move}
    (h : address.inits.all (fun before =>
      ((decoded.at? before).bind Decoded.list?).isNone) = true) : decoded.Unlisted address := by
  intro before hb items ha
  have hnone := List.all_eq_true.1 h before ((List.mem_inits before address).2 hb)
  rw [ha] at hnone
  cases hnone

def pagedAnswer : Json :=
  .obj [("node", .obj [("__typename", .str "Shop"), ("id", .str "s1"), ("products", .obj
    [("edges", .arr [.obj [("cursor", .str "c2"), ("node", .obj
        [("id", .str "p2"), ("title", .str "Cap")])]]),
     ("pageInfo", .obj [("hasNextPage", .bool false), ("hasPreviousPage", .bool true)])])])]

/-- The page after the first is asked for along single objects, and answered there. -/
def pagedAnswers : Bool :=
  match (Decoded.object (pagedDecoder.decode pagedData)).at? [.key "shop", .key "products"] with
  | some (.connection _ _ (some mark)) =>
    match mark.nextPage with
    | .ok next =>
      let answer := Decoded.object ((mark.answerDecoder next).decode pagedAnswer)
      let address := [Move.key "node", .key "products"]
      mark.straight && (answer.at? address).any (fun found => found.connection?.isSome) &&
        decide (address.filterMap Move.name? = next.path) &&
        address.inits.all fun before => ((answer.at? before).bind Decoded.list?).isNone
    | .error _ => false
  | _ => false

theorem Decoded.eq_connection {decoded : Decoded} (h : decoded.connection?.isSome = true) :
    ∃ nodes info mark, decoded = .connection nodes info mark := by
  cases decoded <;> first | exact ⟨_, _, _, rfl⟩ | cases h

theorem paged_drilled :
    ∃ nodes info mark next nodes' info' mark',
      (Decoded.object (pagedDecoder.decode pagedData)).at? [.key "shop", .key "products"] =
        some (.connection nodes info (some mark)) ∧
      mark.nextPage = .ok next ∧
      next.operation.straightAlong mark.source.bundle next.path = true ∧
      ((mark.answerDecoder next).decode pagedAnswer).drill next.path =
        some (.connection nodes' info' mark') := by
  have h : pagedAnswers = true := by decide +kernel
  unfold pagedAnswers at h
  split at h
  · rename_i nodes info mark hmark
    split at h
    · rename_i next hnext
      simp only [Bool.and_eq_true, decide_eq_true_eq] at h
      obtain ⟨⟨⟨hstraight, hconnection⟩, hkeys⟩, hunlisted⟩ := h
      obtain ⟨found, hfound, hsome⟩ := (Option.any_eq_true _ _).1 hconnection
      obtain ⟨nodes', info', mark', rfl⟩ := Decoded.eq_connection hsome
      obtain ⟨hsame, hdrill⟩ := mark.nextPage_drilled hnext
      exact ⟨nodes, info, mark, next, nodes', info', mark', hmark, hnext, hsame.trans hstraight,
        hdrill hstraight (mark.answerDecoder next) pagedAnswer _ nodes' info' mark' rfl hfound hkeys
          (Decoded.unlisted_of_inits hunlisted)⟩
    · cases h
  · cases h

/-- Shops that have no ids come in a list. -/
def listedBundle : Bundle :=
  let query : TypeDescriptor :=
    ⟨"Query", .object, [⟨"shops", .list (.named "Shop"), []⟩], [], false, []⟩
  let shop : TypeDescriptor := ⟨"Shop", .object,
    [⟨"products", .named "ProductConnection", [("after", .named "String")]⟩], [], false, []⟩
  ⟨query, none, [query, shop] ++ sampleBundle.types.filter fun type =>
    !(["Query", "Node", "Shop"].contains type.name)⟩

def listedDraft : OperationDraft :=
  .ofProgram .query
    [.object "shops" .none [.connection "products" .none [.field "title" .none]]]

abbrev listedDecoder : Decoder := ⟨⟨listedBundle, listedDraft.built listedBundle, []⟩, none⟩

def listedData : Json :=
  .obj [("shops", .arr [.obj [("products", .obj
    [("edges", .arr [.obj [("cursor", .str "c1"), ("node", .obj
        [("id", .str "p1"), ("title", .str "Bowler")])]]),
     ("pageInfo", .obj [("hasNextPage", .bool true), ("hasPreviousPage", .bool false)])])]])]

/-- The query for the next page of a shop's products passes the list of shops. -/
def listedMisses : Bool :=
  match (Decoded.object (listedDecoder.decode listedData)).at?
    [.key "shops", .item 0, .key "products"] with
  | some (.connection _ _ (some mark)) =>
    match mark.nextPage with
    | .ok next =>
      let answer := (mark.answerDecoder next).decode listedData
      !next.operation.straightAlong listedBundle next.path &&
        ((Decoded.object answer).at? [.key "shops", .item 0, .key "products"]).any
          (fun found => found.connection?.isSome) && (answer.drill next.path).isNone
    | .error _ => false
  | _ => false

/-- The next page of products comes, and cannot be found under the keys of the query. -/
theorem listed_page_missed :
    (⟨some "Query", none, listedBundle.types⟩ : BundleDraft).build = .ok listedBundle ∧
    listedBundle.issues = [] ∧
    (listedDraft.build listedBundle).result = .ok listedDecoder.source.operation ∧
    ∃ nodes info mark next nodes' info' mark',
      (Decoded.object (listedDecoder.decode listedData)).at?
        [.key "shops", .item 0, .key "products"] = some (.connection nodes info (some mark)) ∧
      mark.nextPage = .ok next ∧
      next.operation.straightAlong listedBundle next.path = false ∧
      (Decoded.object ((mark.answerDecoder next).decode listedData)).at?
        [.key "shops", .item 0, .key "products"] = some (.connection nodes' info' mark') ∧
      ((mark.answerDecoder next).decode listedData).drill next.path = none := by
  refine ⟨rfl, by decide +kernel, OperationDraft.build_eq_built (by decide +kernel), ?_⟩
  have h : listedMisses = true := by decide +kernel
  unfold listedMisses at h
  split at h
  · rename_i nodes info mark hmark
    split at h
    · rename_i next hnext
      simp only [Bool.and_eq_true, Bool.not_eq_eq_eq_not, Bool.not_true, Option.isNone_iff_eq_none] at h
      obtain ⟨⟨hlong, hconnection⟩, hnone⟩ := h
      obtain ⟨found, hfound, hsome⟩ := (Option.any_eq_true _ _).1 hconnection
      obtain ⟨nodes', info', mark', rfl⟩ := Decoded.eq_connection hsome
      exact ⟨nodes, info, mark, next, nodes', info', mark', hmark, hnext, hlong, hfound, hnone⟩
    · cases h
  · cases h

end GraphQLClient
