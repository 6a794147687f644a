import GraphQLClient.Proofs.Paging.Frames

set_option autoImplicit false

/-!
# Pruning what was pruned

What is kept of a set for some keys does not depend on the cursor, but for the text of the cursor at the
end of the keys. Pruning what was kept for the same keys again keeps all of it, and the new cursor takes
the place of the old one.
-/

namespace GraphQLClient

/-! ## Texts of cursors -/

/-- An argument, but for the text of a cursor. -/
def Value.blankCursor (name : String) : Value → Value
  | .string text => if name = cursorArgument then .string "" else .string text
  | value => value

namespace Field

/-- A field, but for the text of its cursor. -/
def blank (field : Field) : Field :=
  { field with arguments := field.arguments.map fun argument =>
      (argument.1, argument.2.blankCursor argument.1) }

theorem blank_withCursor (field : Field) (cursor cursor' : String) :
    (field.withCursor cursor).blank = (field.withCursor cursor').blank := by
  have harguments : ∀ arguments : List (String × Value),
      (Keyed.insert cursorArgument (.string cursor) arguments).map
          (fun argument => (argument.1, argument.2.blankCursor argument.1)) =
        (Keyed.insert cursorArgument (.string cursor') arguments).map
          fun argument => (argument.1, argument.2.blankCursor argument.1) := by
    intro arguments
    induction arguments with
    | nil => rfl
    | cons argument others ih =>
      rw [Keyed.insert, Keyed.insert]
      split
      · rename_i hname
        rw [List.map_cons, List.map_cons, hname]
        rfl
      · rw [List.map_cons, List.map_cons, ih]
  rw [blank, blank]
  exact congrArg (fun arguments => Field.mk field.name field.aliasName arguments field.connection)
    (harguments field.arguments)

theorem withCursor_withCursor (field : Field) (cursor cursor' : String) :
    (field.withCursor cursor).withCursor cursor' = field.withCursor cursor' := by
  have harguments : ∀ arguments : List (String × Value),
      Keyed.insert cursorArgument (.string cursor')
          (Keyed.insert cursorArgument (.string cursor) arguments) =
        Keyed.insert cursorArgument (.string cursor') arguments := by
    intro arguments
    induction arguments with
    | nil => rfl
    | cons argument others ih =>
      by_cases hname : argument.1 = cursorArgument
      · simp [Keyed.insert, hname]
      · simp [Keyed.insert, hname, ih]
  exact congrArg (fun arguments => Field.mk field.name field.aliasName arguments field.connection)
    (harguments field.arguments)

end Field

namespace Selection

mutual
/-- A selection, but for the texts of cursors outside of fragments that are spread. -/
def blank : Selection → Selection
  | .leaf field => .leaf field.blank
  | .composite field typeName inner => .composite field.blank typeName (blankAll inner)
  | .inlineFragment condition typeName inner => .inlineFragment condition typeName (blankAll inner)
  | .spread serial name condition typeName inner => .spread serial name condition typeName inner

def blankAll : List Selection → List Selection
  | [] => []
  | selection :: rest => selection.blank :: blankAll rest
end

theorem blankAll_eq_map (selections : List Selection) : blankAll selections = selections.map blank := by
  induction selections with
  | nil => rfl
  | cons selection rest ih => rw [blankAll, ih, List.map_cons]

theorem blankAll_append (before after : List Selection) :
    blankAll (before ++ after) = blankAll before ++ blankAll after := by
  simp only [blankAll_eq_map, List.map_append]

theorem usesInFields_blank (arguments : List (String × Value)) :
    Value.usesInFields (arguments.map fun argument =>
      (argument.1, argument.2.blankCursor argument.1)) = Value.usesInFields arguments := by
  induction arguments with
  | nil => rfl
  | cons argument rest ih =>
    obtain ⟨name, value⟩ := argument
    have hvalue : (value.blankCursor name).variableUses = value.variableUses := by
      cases value with
      | string text =>
        rw [Value.blankCursor]
        split <;> rfl
      | _ => rfl
    rw [List.map_cons, Value.usesInFields, Value.usesInFields, hvalue, ih]

mutual
/-- The text of a cursor uses no variables. -/
theorem variableUses_blank (selection : Selection) :
    selection.blank.variableUses = selection.variableUses := by
  cases selection with
  | leaf field => exact usesInFields_blank field.arguments
  | composite field typeName inner =>
    rw [blank, variableUses, variableUses, usesInAll_blankAll inner]
    exact congrArg (· ++ usesInAll inner) (usesInFields_blank field.arguments)
  | inlineFragment condition typeName inner =>
    rw [blank, variableUses, variableUses, usesInAll_blankAll inner]
  | spread serial name condition typeName inner => rfl

theorem usesInAll_blankAll (selections : List Selection) :
    usesInAll (blankAll selections) = usesInAll selections := by
  cases selections with
  | nil => rfl
  | cons selection rest =>
    rw [blankAll, usesInAll, usesInAll, variableUses_blank selection, usesInAll_blankAll rest]
end

mutual
/-- The number of selections, the bodies of spread fragments included. -/
def size : Selection → Nat
  | .leaf _ => 1
  | .composite _ _ inner => 1 + sizeAll inner
  | .inlineFragment _ _ inner => 1 + sizeAll inner
  | .spread _ _ _ _ inner => 1 + sizeAll inner

def sizeAll : List Selection → Nat
  | [] => 0
  | selection :: rest => selection.size + sizeAll rest
end

theorem sizeAll_append (before after : List Selection) :
    sizeAll (before ++ after) = sizeAll before + sizeAll after := by
  induction before with
  | nil => rw [List.nil_append, sizeAll, Nat.zero_add]
  | cons selection rest ih => rw [List.cons_append, sizeAll, sizeAll, ih, Nat.add_assoc]

mutual
theorem size_blank (selection : Selection) : selection.blank.size = selection.size := by
  cases selection with
  | leaf field => rfl
  | composite field typeName inner => rw [blank, size, size, sizeAll_blankAll inner]
  | inlineFragment condition typeName inner => rw [blank, size, size, sizeAll_blankAll inner]
  | spread serial name condition typeName inner => rfl

theorem sizeAll_blankAll (selections : List Selection) :
    sizeAll (blankAll selections) = sizeAll selections := by
  cases selections with
  | nil => rfl
  | cons selection rest => rw [blankAll, sizeAll, sizeAll, size_blank selection, sizeAll_blankAll rest]
end

end Selection

/-! ## Another cursor -/

namespace Selection

variable {cursor cursor' key : String} {rest : List String}

/-- A kept selection, but for the texts of its cursors. -/
def blankKept (kept : Selection × Bool) : Selection × Bool := (kept.1.blank, kept.2)

theorem blank_withSet {set set' : SelectionSet} (hn : set.typeName = set'.typeName)
    (h : blankAll set.selections = blankAll set'.selections) (selection : Selection) :
    (selection.withSet set).blank = (selection.withSet set').blank := by
  cases selection <;> simp only [withSet, blank, hn, h]

theorem blankAll_replaceSet {set set' : SelectionSet} (hn : set.typeName = set'.typeName)
    (h : blankAll set.selections = blankAll set'.selections) (answer : String)
    (selections : List Selection) :
    blankAll (replaceSet answer set selections) = blankAll (replaceSet answer set' selections) := by
  simp only [blankAll_eq_map, replaceSet, List.map_map]
  refine List.map_congr_left fun selection _ => ?_
  simp only [Function.comp_apply]
  split
  · exact blank_withSet hn h selection
  · rfl

theorem blankAll_replaceNodes {nodes nodes' : SelectionSet} (hn : nodes.typeName = nodes'.typeName)
    (h : blankAll nodes.selections = blankAll nodes'.selections) (selections : List Selection) :
    blankAll (replaceNodes nodes selections) = blankAll (replaceNodes nodes' selections) := by
  unfold replaceNodes
  split
  · rename_i edges _
    exact @blankAll_replaceSet ⟨edges.typeName, replaceSet "node" nodes edges.selections⟩
      ⟨edges.typeName, replaceSet "node" nodes' edges.selections⟩ rfl
      (blankAll_replaceSet hn h "node" edges.selections) "edges" selections
  · rfl

/-- The same is kept for another cursor. -/
theorem blank_keptIfFound {typeName : String} {kept kept' : List (Selection × Bool)}
    (h : kept.map blankKept = kept'.map blankKept) :
    (keptIfFound typeName kept).map (fun set => (set.typeName, blankAll set.selections)) =
      (keptIfFound typeName kept').map fun set => (set.typeName, blankAll set.selections) := by
  have hany : ∀ kept : List (Selection × Bool), kept.any (·.2) = (kept.map blankKept).any (·.2) := by
    intro kept
    rw [List.any_map]
    rfl
  have hall : ∀ kept : List (Selection × Bool),
      blankAll (kept.map Prod.fst) = (kept.map blankKept).map Prod.fst := by
    intro kept
    rw [blankAll_eq_map, List.map_map, List.map_map]
    rfl
  unfold keptIfFound
  rw [hany kept, hany kept', h]
  split
  · simp only [Option.map_some, hall, h]
  · rfl

/-- Pruning for the keys with either cursor keeps the same. -/
def Turns (cursor cursor' : String) (keys : List String) : Prop :=
  ∀ key rest, keys = key :: rest → ∀ selections,
    (pruneEach cursor key rest selections).map blankKept =
      (pruneEach cursor' key rest selections).map blankKept

/-- A set that is kept with either cursor is the same, but for the texts of cursors. -/
theorem map_blank_of_keptIfFound {β : Type} {found found' : Option SelectionSet}
    (h : found.map (fun set => (set.typeName, blankAll set.selections)) =
      found'.map fun set => (set.typeName, blankAll set.selections))
    (f : SelectionSet → β)
    (hf : ∀ set set' : SelectionSet, set.typeName = set'.typeName →
      blankAll set.selections = blankAll set'.selections → f set = f set') :
    found.map f = found'.map f := by
  cases found with
  | none =>
    cases found' with
    | none => rfl
    | some set' => cases h
  | some set =>
    cases found' with
    | none => cases h
    | some set' =>
      obtain ⟨hn, hs⟩ := Prod.mk.inj (Option.some.inj h)
      exact congrArg some (hf set set' hn hs)

theorem turns_through {next typeName : String} {more : List String} {field : Field}
    {selections : List Selection} (ih : Turns cursor cursor' (next :: more))
    (hkey : field.responseKey = key) :
    (pruneOne cursor key (next :: more) (.composite field typeName selections)).map blankKept =
      (pruneOne cursor' key (next :: more) (.composite field typeName selections)).map blankKept := by
  cases hc : field.connection with
  | false =>
    rw [pruneOne_through typeName selections next more hkey hc,
      pruneOne_through typeName selections next more hkey hc, Option.map_map, Option.map_map]
    refine map_blank_of_keptIfFound (blank_keptIfFound (ih next more rfl selections)) _
      fun set set' hn hs => ?_
    simp only [Function.comp_apply, blankKept, blank, hn, hs]
  | true =>
    rw [pruneOne_nodes typeName selections next more hkey hc,
      pruneOne_nodes typeName selections next more hkey hc]
    cases SelectionSet.nodeSet? ⟨typeName, selections⟩ with
    | none => rfl
    | some nodes =>
      rw [Option.bind_some, Option.bind_some, Option.map_map, Option.map_map]
      refine map_blank_of_keptIfFound (blank_keptIfFound (ih next more rfl nodes.selections)) _
        fun set set' hn hs => ?_
      simp only [Function.comp_apply, blankKept, blank, blankAll_replaceNodes hn hs]

mutual
theorem blank_pruneOne (ih : Turns cursor cursor' rest) (selection : Selection) :
    (pruneOne cursor key rest selection).map blankKept =
      (pruneOne cursor' key rest selection).map blankKept := by
  cases selection with
  | leaf field =>
    rw [pruneOne, pruneOne]
    split
    · split
      · exact congrArg (fun field => some (Selection.leaf field, true))
          (field.blank_withCursor cursor cursor')
      · rfl
    · rfl
  | composite field typeName selections =>
    by_cases hkey : field.responseKey = key
    · cases rest with
      | nil =>
        rw [pruneOne_end typeName selections hkey, pruneOne_end typeName selections hkey]
        exact congrArg (fun field => some (Selection.composite field typeName (blankAll selections), true))
          (field.blank_withCursor cursor cursor')
      | cons next more => exact turns_through ih hkey
    · rw [pruneOne_of_ne typeName selections rest hkey, pruneOne_of_ne typeName selections rest hkey]
  | inlineFragment condition typeName selections =>
    rw [pruneOne, pruneOne, Option.map_map, Option.map_map]
    refine map_blank_of_keptIfFound (blank_keptIfFound (blank_pruneEach ih selections)) _
      fun set set' hn hs => ?_
    simp only [Function.comp_apply, blankKept, blank, hn, hs]
  | spread serial name condition typeName selections =>
    rw [pruneOne, pruneOne, Option.map_map, Option.map_map]
    refine map_blank_of_keptIfFound (blank_keptIfFound (blank_pruneEach ih selections)) _
      fun set set' hn hs => ?_
    simp only [Function.comp_apply, blankKept, blank, hn, hs]

theorem blank_pruneEach (ih : Turns cursor cursor' rest) (selections : List Selection) :
    (pruneEach cursor key rest selections).map blankKept =
      (pruneEach cursor' key rest selections).map blankKept := by
  have hlist : ∀ found : Option (Selection × Bool),
      found.toList.map blankKept = (found.map blankKept).toList := by
    intro found
    cases found <;> rfl
  cases selections with
  | nil => rfl
  | cons selection others =>
    rw [pruneEach, pruneEach, List.map_append, List.map_append, hlist, hlist,
      blank_pruneOne ih selection, blank_pruneEach ih others]
end

theorem turns (cursor cursor' : String) (keys : List String) : Turns cursor cursor' keys := by
  induction keys with
  | nil => exact fun _ _ h => absurd h (List.cons_ne_nil _ _).symm
  | cons key rest ih =>
    rintro _ _ ⟨⟩ selections
    exact blank_pruneEach ih selections

/-- What is kept does not depend on the cursor, but for the texts of cursors. -/
theorem blankAll_pruneEach (cursor cursor' key : String) (rest : List String)
    (selections : List Selection) :
    blankAll ((pruneEach cursor key rest selections).map Prod.fst) =
      blankAll ((pruneEach cursor' key rest selections).map Prod.fst) := by
  have h := congrArg (List.map Prod.fst) (turns cursor cursor' (key :: rest) key rest rfl selections)
  rw [List.map_map, List.map_map] at h
  rw [blankAll_eq_map, blankAll_eq_map, List.map_map, List.map_map]
  exact h

end Selection

/-- With either cursor the same is kept of a set, but for the texts of cursors. -/
theorem SelectionSet.blank_prune {set kept kept' : SelectionSet} {keys : List String}
    {cursor cursor' : String} (h : set.prune keys cursor = some kept)
    (h' : set.prune keys cursor' = some kept') :
    kept.typeName = kept'.typeName ∧
      Selection.blankAll kept.selections = Selection.blankAll kept'.selections := by
  obtain ⟨key, rest, rfl⟩ := SelectionSet.keys_of_prune h
  have hname : ∀ {cursor kept}, set.prune (key :: rest) cursor = some kept →
      kept.typeName = set.typeName := fun hp => by rw [Selection.eq_of_keptIfFound hp]
  rw [hname h, hname h', SelectionSet.prune_eq_some h, SelectionSet.prune_eq_some h']
  exact ⟨rfl, Selection.blankAll_pruneEach cursor cursor' key rest set.selections⟩

theorem SelectionSet.uses_of_prune {set kept kept' : SelectionSet} {keys : List String}
    {cursor cursor' : String} (h : set.prune keys cursor = some kept)
    (h' : set.prune keys cursor' = some kept') :
    Selection.usesInAll kept.selections = Selection.usesInAll kept'.selections := by
  rw [← Selection.usesInAll_blankAll kept.selections, (SelectionSet.blank_prune h h').2,
    Selection.usesInAll_blankAll]

/-! ## Pruning again -/

namespace Selection

variable {cursor cursor' key : String} {rest : List String}

theorem answers_withSet (set : SelectionSet) (selection : Selection) (answer : String) :
    (selection.withSet set).answers answer = selection.answers answer := by
  cases selection <;> rfl

theorem withSet_withSet (set set' : SelectionSet) (selection : Selection) :
    (selection.withSet set).withSet set' = selection.withSet set' := by
  cases selection <;> rfl

theorem replaceSet_replaceSet (answer : String) (set set' : SelectionSet)
    (selections : List Selection) :
    replaceSet answer set' (replaceSet answer set selections) = replaceSet answer set' selections := by
  rw [replaceSet, replaceSet, List.map_map]
  refine List.map_congr_left fun selection _ => ?_
  rw [Function.comp_apply]
  by_cases ha : selection.answers answer = true
  · rw [if_pos ha, if_pos (by rw [answers_withSet, ha]), if_pos ha, withSet_withSet]
  · rw [if_neg ha, if_neg ha]

theorem below?_replaceSet {answer typeName typeName' : String} {set below : SelectionSet}
    {selections : List Selection}
    (h : SelectionSet.below? ⟨typeName, selections⟩ answer = some below) :
    SelectionSet.below? ⟨typeName', replaceSet answer set selections⟩ answer = some set := by
  obtain ⟨found, hfound, hset⟩ := Option.bind_eq_some_iff.1 h
  have hanswers : found.answers answer = true := List.find?_some hfound
  have hfind : (replaceSet answer set selections).find? (answers answer) = some (found.withSet set) := by
    have hsame : (answers answer ∘ fun selection : Selection =>
        if selection.answers answer then selection.withSet set else selection) = answers answer := by
      funext selection
      rw [Function.comp_apply]
      split
      · exact answers_withSet set selection answer
      · rfl
    rw [replaceSet, List.find?_map, hsame, show selections.find? (answers answer) = some found from hfound,
      Option.map_some, if_pos hanswers]
  rw [SelectionSet.below?, SelectionSet.find?, hfind]
  cases found with
  | composite field name inner => rfl
  | _ => cases hset

/-- The nodes that are put in are found there, and others may take their place. -/
theorem nodeSet?_replaceNodes {typeName : String} {selections : List Selection} {old : SelectionSet}
    (nodes : SelectionSet) (h : SelectionSet.nodeSet? ⟨typeName, selections⟩ = some old) :
    SelectionSet.nodeSet? ⟨typeName, replaceNodes nodes selections⟩ = some nodes ∧
      ∀ nodes', replaceNodes nodes' (replaceNodes nodes selections) = replaceNodes nodes' selections := by
  obtain ⟨edges, hedges, hnode⟩ := Option.bind_eq_some_iff.1 h
  let made : SelectionSet → SelectionSet := fun nodes =>
    ⟨edges.typeName, replaceSet "node" nodes edges.selections⟩
  have hbelow : SelectionSet.below? ⟨"", selections⟩ "edges" = some edges := hedges
  have hreplaced : ∀ nodes, replaceNodes nodes selections =
      replaceSet "edges" (made nodes) selections := by
    intro nodes
    rw [replaceNodes, hbelow]
  have hagain : ∀ name, SelectionSet.below? ⟨name, replaceSet "edges" (made nodes) selections⟩
      "edges" = some (made nodes) := fun _ => below?_replaceSet hedges
  rw [hreplaced]
  refine ⟨?_, fun nodes' => ?_⟩
  · rw [SelectionSet.nodeSet?, hagain, Option.bind_some]
    exact @below?_replaceSet "node" edges.typeName edges.typeName nodes old edges.selections hnode
  · rw [hreplaced, replaceNodes, hagain]
    change replaceSet "edges" ⟨edges.typeName, replaceSet "node" nodes'
      (replaceSet "node" nodes edges.selections)⟩ _ = _
    rw [replaceSet_replaceSet "node", replaceSet_replaceSet "edges"]

/-- Pruning for the keys with another cursor keeps of what was kept what it keeps at first. -/
def Overrides (cursor cursor' : String) (keys : List String) : Prop :=
  ∀ key rest, keys = key :: rest → ∀ selections,
    pruneEach cursor' key rest ((pruneEach cursor key rest selections).map Prod.fst) =
      pruneEach cursor' key rest selections

theorem keptIfFound_overridden {typeName : String} {selections : List Selection}
    (h : pruneEach cursor' key rest ((pruneEach cursor key rest selections).map Prod.fst) =
      pruneEach cursor' key rest selections) :
    ((keptIfFound typeName (pruneEach cursor key rest selections)).bind fun set =>
        keptIfFound set.typeName (pruneEach cursor' key rest set.selections)) =
      keptIfFound typeName (pruneEach cursor' key rest selections) := by
  have hflags := congrArg (List.map Prod.snd) (turns cursor cursor' (key :: rest) key rest rfl selections)
  rw [List.map_map, List.map_map] at hflags
  have hany : (pruneEach cursor key rest selections).any (·.2) =
      (pruneEach cursor' key rest selections).any (·.2) := by
    have hsame := congrArg (List.any · id) hflags
    rwa [List.any_map, List.any_map] at hsame
  cases hfound : (pruneEach cursor key rest selections).any (·.2) with
  | true =>
    rw [keptIfFound_eq_some hfound, Option.bind_some, h]
  | false =>
    rw [keptIfFound, if_neg (by rw [hfound]; exact Bool.false_ne_true), keptIfFound, ← hany,
      if_neg (by rw [hfound]; exact Bool.false_ne_true)]
    rfl

theorem overridden_through {next typeName : String} {more : List String} {field : Field}
    {selections : List Selection} (ih : Overrides cursor cursor' (next :: more))
    (hkey : field.responseKey = key) :
    ((pruneOne cursor key (next :: more) (.composite field typeName selections)).bind fun kept =>
        pruneOne cursor' key (next :: more) kept.1) =
      pruneOne cursor' key (next :: more) (.composite field typeName selections) := by
  cases hc : field.connection with
  | false =>
    rw [pruneOne_through typeName selections next more hkey hc,
      pruneOne_through typeName selections next more hkey hc, Option.bind_map,
      ← keptIfFound_overridden (ih next more rfl selections), Option.map_bind]
    congr 1
    funext set
    exact pruneOne_through set.typeName set.selections next more hkey hc
  | true =>
    rw [pruneOne_nodes typeName selections next more hkey hc,
      pruneOne_nodes typeName selections next more hkey hc]
    cases hnodes : SelectionSet.nodeSet? ⟨typeName, selections⟩ with
    | none => rfl
    | some nodes =>
      rw [Option.bind_some, Option.bind_some, Option.bind_map,
        ← keptIfFound_overridden (ih next more rfl nodes.selections), Option.map_bind]
      congr 1
      funext set
      obtain ⟨hset, hagain⟩ := nodeSet?_replaceNodes set hnodes
      simp only [Function.comp_apply]
      rw [pruneOne_nodes typeName _ next more hkey hc, hset, Option.bind_some]
      simp only [hagain]

mutual
theorem pruneOne_pruneOne (ih : Overrides cursor cursor' rest) (selection : Selection) :
    ((pruneOne cursor key rest selection).bind fun kept => pruneOne cursor' key rest kept.1) =
      pruneOne cursor' key rest selection := by
  cases selection with
  | leaf field =>
    by_cases hkey : (field.responseKey == key) = true
    · rw [pruneOne, if_pos hkey, pruneOne, if_pos hkey]
      split
      · rename_i hrest
        have hkey' : ((field.withCursor cursor).responseKey == key) = true := hkey
        rw [Option.bind_some, pruneOne, if_pos hkey', if_pos hrest, Field.withCursor_withCursor]
      · rfl
    · rw [pruneOne, if_neg hkey, pruneOne, if_neg hkey]
      split
      · rename_i hidentity
        rw [Option.bind_some, pruneOne, if_neg hkey, if_pos hidentity]
      · rfl
  | composite field typeName selections =>
    by_cases hkey : field.responseKey = key
    · cases rest with
      | nil =>
        have hkey' : (field.withCursor cursor).responseKey = key := hkey
        rw [pruneOne_end typeName selections hkey, pruneOne_end typeName selections hkey,
          Option.bind_some, pruneOne_end typeName selections hkey', Field.withCursor_withCursor]
      | cons next more => exact overridden_through ih hkey
    · rw [pruneOne_of_ne typeName selections rest hkey, pruneOne_of_ne typeName selections rest hkey]
      rfl
  | inlineFragment condition typeName selections =>
    rw [pruneOne, pruneOne, Option.bind_map, ← keptIfFound_overridden (pruneEach_pruneEach ih selections),
      Option.map_bind]
    rfl
  | spread serial name condition typeName selections =>
    rw [pruneOne, pruneOne, Option.bind_map, ← keptIfFound_overridden (pruneEach_pruneEach ih selections),
      Option.map_bind]
    rfl

theorem pruneEach_pruneEach (ih : Overrides cursor cursor' rest) (selections : List Selection) :
    pruneEach cursor' key rest ((pruneEach cursor key rest selections).map Prod.fst) =
      pruneEach cursor' key rest selections := by
  cases selections with
  | nil => rfl
  | cons selection others =>
    rw [pruneEach, pruneEach, List.map_append, pruneEach_append, pruneEach_pruneEach ih others,
      ← pruneOne_pruneOne ih selection]
    cases pruneOne cursor key rest selection with
    | none => rfl
    | some kept =>
      change pruneEach cursor' key rest [kept.1] ++ _ = _
      rw [pruneEach, pruneEach, List.append_nil]
      rfl
end

theorem overrides (cursor cursor' : String) (keys : List String) : Overrides cursor cursor' keys := by
  induction keys with
  | nil => exact fun _ _ h => absurd h (List.cons_ne_nil _ _).symm
  | cons key rest ih =>
    rintro _ _ ⟨⟩ selections
    exact pruneEach_pruneEach ih selections

end Selection

/-- What is kept of a set that was pruned before is what is kept of the set. -/
theorem SelectionSet.prune_prune {set kept : SelectionSet} {keys : List String} {cursor : String}
    (cursor' : String) (h : set.prune keys cursor = some kept) :
    kept.prune keys cursor' = set.prune keys cursor' := by
  obtain ⟨key, rest, rfl⟩ := SelectionSet.keys_of_prune h
  have hkept : Selection.keptIfFound set.typeName
      (Selection.pruneEach cursor key rest set.selections) = some kept := h
  have hagain := @Selection.keptIfFound_overridden cursor cursor' key rest set.typeName set.selections
    (Selection.overrides cursor cursor' (key :: rest) key rest rfl set.selections)
  rw [hkept, Option.bind_some] at hagain
  exact hagain

end GraphQLClient
