import GraphQLClient.Proofs.Paging.Repruning

set_option autoImplicit false

/-!
# Chains that answer a path

A chain leads along a path of response keys: from a field under the first key, directly in the selections
or in fragments around it, to one below it under the next, and so on to the last. Pruning to the path
keeps the chains in their order, with the cursor at the end of each, and nothing that no chain needs but
the leaves that tell objects apart.
-/

namespace GraphQLClient

theorem Keyed.filter_insert {α : Type} (name : String) (value : α) (entries : List (String × α)) :
    (insert name value entries).filter (·.1 ≠ name) = entries.filter (·.1 ≠ name) := by
  induction entries with
  | nil => simp [insert]
  | cons entry rest ih =>
    rw [insert]
    split
    · rename_i hname
      rw [List.filter_cons_of_neg (by simpa using hname), List.filter_cons_of_neg (by simpa using hname)]
    · rename_i hname
      rw [List.filter_cons_of_pos (by simpa using hname),
        List.filter_cons_of_pos (by simpa using hname), ih]

/-- The field with a cursor to go on from, and else as it was: its other arguments stand in their order. -/
structure Field.ResumedAt (cursor : String) (field resumed : Field) : Prop where
  name : resumed.name = field.name
  aliasName : resumed.aliasName = field.aliasName
  connection : resumed.connection = field.connection
  cursor : Keyed.find? "after" resumed.arguments = some (.string cursor)
  others : resumed.arguments.filter (·.1 ≠ "after") = field.arguments.filter (·.1 ≠ "after")

theorem Field.resumedAt_withCursor (field : Field) (cursor : String) :
    field.ResumedAt cursor (field.withCursor cursor) where
  name := rfl
  aliasName := rfl
  connection := rfl
  cursor := Keyed.find?_insert_self _ _ _
  others := Keyed.filter_insert _ _ _

namespace Selection

/-- A field that goes on from a cursor with the set below it as it was. -/
def ResumedAt (cursor : String) : Selection → Selection → Prop
  | .leaf field, .leaf resumed => field.ResumedAt cursor resumed
  | .composite field typeName selections, .composite resumed typeName' selections' =>
    field.ResumedAt cursor resumed ∧ typeName' = typeName ∧ selections' = selections
  | _, _ => False

theorem resumedAt_withCursor {selection : Selection} {key : String}
    (h : selection.answers key = true) (cursor : String) :
    selection.ResumedAt cursor (selection.withCursor cursor) := by
  cases selection with
  | leaf field => exact field.resumedAt_withCursor cursor
  | composite field typeName selections => exact ⟨field.resumedAt_withCursor cursor, rfl, rfl⟩
  | inlineFragment condition typeName selections => cases h
  | spread serial name condition typeName selections => cases h

/-! ## Expanded connections -/

/-- What a connection selects around its nodes: one field `edges`, with one field `node` in its set, and
whatever else. -/
structure Expansion where
  front : List Selection
  edges : Field
  edgeType : String
  edgeFront : List Selection
  node : Field
  edgeBack : List Selection
  back : List Selection
  edgesKey : edges.responseKey = "edges"
  nodeKey : node.responseKey = "node"
  oneEdges : ∀ selection ∈ front ++ back, selection.answers "edges" = false
  oneNode : ∀ selection ∈ edgeFront ++ edgeBack, selection.answers "node" = false

namespace Expansion
variable (shape : Expansion)

/-- The selections of a connection with these nodes. -/
def around (nodes : SelectionSet) : List Selection :=
  shape.front ++
    .composite shape.edges shape.edgeType (shape.edgeFront ++
      .composite shape.node nodes.typeName nodes.selections :: shape.edgeBack) :: shape.back

end Expansion

/-- If the field is a connection it has the shape of one. -/
def Expanded : Selection → Prop
  | .composite field _ selections =>
    field.connection = true → ∃ (shape : Expansion) (nodes : SelectionSet), selections = shape.around nodes
  | _ => True

/-! ## Chains -/

/-- A fragment around a field: the type that it is on, and the type of its set. -/
structure Guard where
  condition : String
  typeName : String

/-- A field and the fragments around it, from the outside in. -/
structure Guarded where
  guards : List Guard
  selection : Selection

def Guarded.within (guard : Guard) (guarded : Guarded) : Guarded :=
  { guarded with guards := guard :: guarded.guards }

mutual
/-- The fields of a selection, directly or inside fragments nested to any depth. -/
def guarded : Selection → List Guarded
  | .leaf field => [⟨[], .leaf field⟩]
  | .composite field typeName selections => [⟨[], .composite field typeName selections⟩]
  | .inlineFragment condition typeName selections =>
    (guardedAll selections).map (Guarded.within ⟨condition, typeName⟩)
  | .spread _ _ condition typeName selections =>
    (guardedAll selections).map (Guarded.within ⟨condition, typeName⟩)

def guardedAll : List Selection → List Guarded
  | [] => []
  | selection :: rest => guarded selection ++ guardedAll rest
end

/-- The fields under a key. -/
def answering (key : String) (selections : List Selection) : List Guarded :=
  (guardedAll selections).filter (·.selection.answers key)

/-- Where a path goes on below a field: in the set of the nodes of a connection, in its own set else. -/
def onward? : Selection → Option SelectionSet
  | .composite field typeName selections =>
    if field.connection then SelectionSet.nodeSet? ⟨typeName, selections⟩
    else some ⟨typeName, selections⟩
  | _ => none

/-- Changes what is selected below a field under a key. -/
def mapBelow (key : String) (change : List Selection → List Selection) : Selection → Selection
  | .composite field typeName selections =>
    .composite field typeName (if field.responseKey = key then change selections else selections)
  | other => other

/-- A field without the selections that a path goes on in: of a connection the rest of its shape stays. -/
def hollow : Selection → Selection
  | .composite field typeName selections =>
    .composite field typeName
      (if field.connection then
        selections.map (mapBelow "edges" fun edge => edge.map (mapBelow "node" fun _ => []))
      else [])
  | other => other

/-- A way along a path: the hollow fields that it passes, and the field at its end. -/
structure Chain where
  passed : List Guarded
  last : Guarded

namespace Chain

/-- The chain behind a field that it passes first. -/
def through (guarded : Guarded) (chain : Chain) : Chain :=
  { chain with passed := ⟨guarded.guards, hollow guarded.selection⟩ :: chain.passed }

def withCursor (cursor : String) (chain : Chain) : Chain :=
  { chain with last := ⟨chain.last.guards, chain.last.selection.withCursor cursor⟩ }

/-- The same way, to the same field with a cursor to go on from. -/
structure ResumedAt (cursor : String) (chain resumed : Chain) : Prop where
  passed : resumed.passed = chain.passed
  guards : resumed.last.guards = chain.last.guards
  last : chain.last.selection.ResumedAt cursor resumed.last.selection

/-- The chain inside of a further fragment. -/
def within (guard : Guard) : Chain → Chain
  | ⟨[], last⟩ => ⟨[], last.within guard⟩
  | ⟨first :: rest, last⟩ => ⟨first.within guard :: rest, last⟩

end Chain

/-- The chains of selections that answer a path, in order. -/
def chains : List String → List Selection → List Chain
  | [], _ => []
  | [key], selections => (answering key selections).map fun last => ⟨[], last⟩
  | key :: next :: more, selections =>
    (answering key selections).flatMap fun guarded =>
      match onward? guarded.selection with
      | some set => (chains (next :: more) set.selections).map (Chain.through guarded)
      | none => []

/-- Nothing but what chains need, and leaves that tell objects apart. -/
inductive Bare : List String → Selection → Prop
  | identity {key : String} {rest : List String} {field : Field}
      (named : field.name = "id" ∨ field.name = "__typename") (beside : field.responseKey ≠ key) :
      Bare (key :: rest) (.leaf field)
  | last {key : String} {selection : Selection} (answers : selection.answers key = true) :
      Bare [key] selection
  | passed {key next : String} {more : List String} {selection : Selection} {set : SelectionSet}
      (answers : selection.answers key = true) (onward : onward? selection = some set)
      (leads : chains (next :: more) set.selections ≠ [])
      (bare : ∀ inner ∈ set.selections, Bare (next :: more) inner) :
      Bare (key :: next :: more) selection
  | fragment {key condition typeName : String} {rest : List String} {selections : List Selection}
      (leads : chains (key :: rest) selections ≠ [])
      (bare : ∀ inner ∈ selections, Bare (key :: rest) inner) :
      Bare (key :: rest) (.inlineFragment condition typeName selections)

/-! ## Lists of selections and fragments -/

variable {cursor key next : String} {keys rest more : List String} {before after : List Selection}
  {selection : Selection}

theorem guardedAll_append :
    guardedAll (before ++ after) = guardedAll before ++ guardedAll after := by
  induction before with
  | nil => rfl
  | cons selection others ih => rw [List.cons_append, guardedAll, guardedAll, ih, List.append_assoc]

theorem answering_append : answering key (before ++ after) =
    answering key before ++ answering key after := by
  rw [answering, guardedAll_append, List.filter_append]
  rfl

theorem answering_singleton : answering key [selection] =
    (guarded selection).filter (·.selection.answers key) := by
  rw [answering, guardedAll, guardedAll, List.append_nil]

theorem answering_of_answers (h : selection.answers key = true) :
    answering key [selection] = [⟨[], selection⟩] := by
  have hfield : guarded selection = [⟨[], selection⟩] := by
    cases selection with
    | leaf field => rfl
    | composite field typeName selections => rfl
    | inlineFragment condition typeName selections => cases h
    | spread serial name condition typeName selections => cases h
  rw [answering_singleton, hfield]
  exact List.filter_cons_of_pos h

theorem answering_within {selections : List Selection} {guard : Guard}
    (h : guarded selection = (guardedAll selections).map (Guarded.within guard)) :
    answering key [selection] = (answering key selections).map (Guarded.within guard) := by
  rw [answering_singleton, h, List.filter_map]
  rfl

theorem chains_append (keys : List String) :
    chains keys (before ++ after) = chains keys before ++ chains keys after := by
  rcases keys with _ | ⟨key, _ | ⟨next, more⟩⟩
  · rfl
  · simp only [chains, answering_append, List.map_append]
  · simp only [chains, answering_append, List.flatMap_append]

theorem chains_of_answering_eq_nil (h : answering key before = []) : chains (key :: rest) before = [] := by
  cases rest with
  | nil => rw [chains, h, List.map_nil]
  | cons next more => rw [chains, h, List.flatMap_nil]

theorem chains_nil (keys : List String) : chains keys [] = [] := by
  cases keys with
  | nil => rfl
  | cons key rest => exact chains_of_answering_eq_nil rfl

theorem chains_beside {field : Field} (hkey : field.responseKey ≠ key)
    (hf : selection.field? = some field) : chains (key :: rest) [selection] = [] := by
  have hfield : selection.answers key = false := by
    rw [answers, hf]
    exact beq_eq_false_iff_ne.2 hkey
  refine chains_of_answering_eq_nil ?_
  cases selection <;> cases hf <;> simp [answering_singleton, guarded, hfield]

/-- In a fragment there are the chains of its body. -/
theorem chains_within {selections : List Selection} {guard : Guard}
    (h : guarded selection = (guardedAll selections).map (Guarded.within guard)) (keys : List String) :
    chains keys [selection] = (chains keys selections).map (Chain.within guard) := by
  rcases keys with _ | ⟨key, _ | ⟨next, more⟩⟩
  · rfl
  · rw [chains, chains, answering_within h, List.map_map, List.map_map]
    rfl
  · rw [chains, chains, answering_within h, List.flatMap_map, List.map_flatMap]
    refine congrArg (List.flatMap · _) (funext fun guarded => ?_)
    -- the fragments around a field have no say in where a path goes on below it
    rw [show (Guarded.within guard guarded).selection = guarded.selection from rfl]
    cases onward? guarded.selection with
    | none => rfl
    | some set =>
      simp only [List.map_map]
      rfl

theorem chains_last (h : selection.answers key = true) :
    chains [key] [selection] = [⟨[], ⟨[], selection⟩⟩] := by
  rw [chains, answering_of_answers h]
  rfl

theorem chains_onward {set : SelectionSet} (h : selection.answers key = true)
    (ho : onward? selection = some set) :
    chains (key :: next :: more) [selection] =
      (chains (next :: more) set.selections).map (Chain.through ⟨[], selection⟩) := by
  rw [chains, answering_of_answers h, List.flatMap_singleton, ho]

theorem chains_astray (h : selection.answers key = true) (ho : onward? selection = none) :
    chains (key :: next :: more) [selection] = [] := by
  rw [chains, answering_of_answers h, List.flatMap_singleton, ho]

theorem key?_hollow (selection : Selection) : (hollow selection).key? = selection.key? := by
  cases selection <;> rfl

theorem key?_of_mem_answering {guarded : Guarded} {selections : List Selection}
    (h : guarded ∈ answering key selections) : guarded.selection.key? = some key :=
  key?_of_answers (List.mem_filter.1 h).2

/-- A chain that answers a path has a field under each of its keys. -/
theorem keys_of_mem_chains {chain : Chain} {selections : List Selection}
    (h : chain ∈ chains keys selections) :
    (chain.passed ++ [chain.last]).map (·.selection.key?) = keys.map some := by
  induction keys generalizing chain selections with
  | nil => cases h
  | cons key rest ih =>
    cases rest with
    | nil =>
      obtain ⟨last, hlast, rfl⟩ := List.mem_map.1 h
      exact congrArg ([·]) (key?_of_mem_answering hlast)
    | cons next more =>
      obtain ⟨guarded, hguarded, hchain⟩ := List.mem_flatMap.1 h
      cases ho : onward? guarded.selection with
      | none =>
        rw [ho] at hchain
        cases hchain
      | some set =>
        rw [ho] at hchain
        obtain ⟨behind, hbehind, rfl⟩ := List.mem_map.1 hchain
        rw [List.map_cons, ← ih hbehind, ← key?_of_mem_answering hguarded, ← key?_hollow]
        rfl

theorem resumedAt_of_mem_chains {chain : Chain} {selections : List Selection}
    (h : chain ∈ chains keys selections) (cursor : String) :
    chain.ResumedAt cursor (chain.withCursor cursor) := by
  have hlast : chain.last.selection.key? ∈ keys.map some := by
    rw [← keys_of_mem_chains h, List.map_append]
    exact List.mem_append_right _ List.mem_cons_self
  obtain ⟨key, -, hkey⟩ := List.mem_map.1 hlast
  exact ⟨rfl, rfl, resumedAt_withCursor (answers_iff_key?.2 hkey.symm) cursor⟩

/-! ## Nodes of an expanded connection -/

theorem find?_between {front back : List Selection} (h : ∀ other ∈ front ++ back, other.answers key = false)
    (hs : selection.answers key = true) :
    (front ++ selection :: back).find? (answers key) = some selection := by
  have hfront : front.find? (answers key) = none :=
    List.find?_eq_none.2 fun other ho => by
      rw [h other (List.mem_append_left back ho)]
      exact Bool.false_ne_true
  rw [List.find?_append, hfront, Option.none_or, List.find?_cons_of_pos hs]

theorem replaceSet_between {front back : List Selection}
    (h : ∀ other ∈ front ++ back, other.answers key = false) (hs : selection.answers key = true)
    (set : SelectionSet) :
    replaceSet key set (front ++ selection :: back) = front ++ selection.withSet set :: back := by
  have hsame : ∀ others ⊆ front ++ back, replaceSet key set others = others := by
    intro others ho
    refine (List.map_congr_left fun other hother => ?_).trans (List.map_id others)
    rw [if_neg (by rw [h other (ho hother)]; exact Bool.false_ne_true), id]
  rw [replaceSet, List.map_append, List.map_cons, if_pos hs]
  exact congrArg₂ (fun front back => front ++ selection.withSet set :: back)
    (hsame front (List.subset_append_left front back))
    (hsame back (List.subset_append_right front back))

namespace Expansion
variable (shape : Expansion) (nodes : SelectionSet)

theorem edges_answers (typeName : String) (selections : List Selection) :
    (composite shape.edges typeName selections).answers "edges" = true :=
  beq_iff_eq.2 shape.edgesKey

theorem node_answers (typeName : String) (selections : List Selection) :
    (composite shape.node typeName selections).answers "node" = true :=
  beq_iff_eq.2 shape.nodeKey

theorem below?_around (typeName : String) :
    SelectionSet.below? ⟨typeName, shape.around nodes⟩ "edges" = some ⟨shape.edgeType, shape.edgeFront ++
      .composite shape.node nodes.typeName nodes.selections :: shape.edgeBack⟩ := by
  rw [SelectionSet.below?, SelectionSet.find?, around,
    find?_between shape.oneEdges (shape.edges_answers _ _)]
  rfl

theorem nodeSet?_around (typeName : String) :
    SelectionSet.nodeSet? ⟨typeName, shape.around nodes⟩ = some nodes := by
  rw [SelectionSet.nodeSet?, below?_around, Option.bind_some, SelectionSet.below?, SelectionSet.find?,
    find?_between shape.oneNode (shape.node_answers _ _)]
  rfl

theorem replaceNodes_around (other : SelectionSet) :
    replaceNodes other (shape.around nodes) = shape.around other := by
  rw [replaceNodes, below?_around]
  change replaceSet "edges" ⟨_, replaceSet "node" other (_ ++ _ :: _)⟩ (_ ++ _ :: _) = _
  rw [replaceSet_between shape.oneNode (shape.node_answers _ _),
    replaceSet_between shape.oneEdges (shape.edges_answers _ _)]
  rfl

/-- Of a connection nothing of its nodes is left but their type. -/
theorem hollow_around {other : SelectionSet} (h : other.typeName = nodes.typeName) (field : Field)
    (typeName : String) :
    hollow (.composite field typeName (shape.around other)) =
      hollow (.composite field typeName (shape.around nodes)) := by
  simp only [hollow, around, List.map_append, List.map_cons, mapBelow, shape.edgesKey, shape.nodeKey,
    if_true, h]

end Expansion

end Selection

namespace Scope

open Selection

variable {scope : Scope}

theorem answers_of_mem_opening {key : String} (hi : key ≠ "id") (ht : key ≠ typenameField)
    {selection : Selection} (h : selection ∈ scope.opening) : selection.answers key = false :=
  Bool.eq_false_iff.2 (List.find?_eq_none.1 (find?_opening hi ht) selection h)

/-- What the builder puts around the nodes of a connection. -/
def expansion (scope : Scope) (edges info : TypeDescriptor) : Expansion where
  front := scope.opening
  edges := .plain "edges"
  edgeType := edges.name
  edgeFront := (scope.within edges).opening ++ [.leaf (.plain "cursor")]
  node := .plain "node"
  edgeBack := []
  back := [.composite (.plain "pageInfo") info.name ((scope.within info).opening ++
    [.leaf (.plain "hasNextPage"), .leaf (.plain "hasPreviousPage")])]
  edgesKey := rfl
  nodeKey := rfl
  oneEdges := List.forall_mem_append.2 ⟨fun _ => answers_of_mem_opening (by decide) (by decide),
    List.forall_mem_singleton.2 rfl⟩
  oneNode := by
    rw [List.append_nil]
    exact List.forall_mem_append.2 ⟨fun _ => answers_of_mem_opening (by decide) (by decide),
      List.forall_mem_singleton.2 rfl⟩

theorem connectionSet_eq_around (edges node info : TypeDescriptor) (nodes : List Selection) :
    scope.connectionSet edges node info nodes =
      (scope.expansion edges info).around ⟨node.name, nodes⟩ := by
  simp only [connectionSet, expansion, Expansion.around, List.append_assoc, List.cons_append,
    List.nil_append]

end Scope

namespace Selection

variable {cursor key next : String} {keys rest more : List String} {before after : List Selection}
  {selection : Selection}

/-- A connection in the shape that the builder gives it is expanded. -/
theorem Furnished.expanded {bundle : Bundle} (h : selection.Furnished bundle) : selection.Expanded := by
  cases selection with
  | composite field typeName selections =>
    intro hc
    obtain ⟨child, edges, node, info, nodes, -, -, -, rfl⟩ := h hc
    exact ⟨child.expansion edges info, _, Scope.connectionSet_eq_around edges node info nodes⟩
  | _ => trivial

/-! ## What is kept -/

/-- What is kept of selections has the chains that they have, with the cursor, and is bare. -/
structure KeptChains (cursor : String) (keys : List String) (selections : List Selection)
    (kept : List (Selection × Bool)) : Prop where
  chains : chains keys (kept.map Prod.fst) = (Selection.chains keys selections).map (Chain.withCursor cursor)
  leads : kept.any (·.2) = true ↔ Selection.chains keys selections ≠ []
  bare : ∀ entry ∈ kept, Bare keys entry.1

namespace KeptChains

theorem append {kept kept' : List (Selection × Bool)} (h : KeptChains cursor keys before kept)
    (h' : KeptChains cursor keys after kept') : KeptChains cursor keys (before ++ after) (kept ++ kept') where
  chains := by rw [List.map_append, chains_append, chains_append, List.map_append, h.chains, h'.chains]
  leads := by
    rw [List.any_append, Bool.or_eq_true, h.leads, h'.leads, chains_append, ne_eq, ne_eq, ne_eq,
      List.append_eq_nil_iff, not_and_or]
  bare := List.forall_mem_append.2 ⟨h.bare, h'.bare⟩

/-- Selections without a chain may be left out. -/
theorem nothing (h : Selection.chains keys before = []) : KeptChains cursor keys before [] where
  chains := by rw [h, List.map_nil, chains_nil, List.map_nil]
  leads := by simp [h]
  bare := fun _ h => absurd h List.not_mem_nil

theorem identity {field : Field} (hkey : field.responseKey ≠ key) (hi : isIdentity field = true) :
    KeptChains cursor (key :: rest) [.leaf field] [(.leaf field, false)] := by
  have hnone : Selection.chains (key :: rest) [.leaf field] = [] :=
    chains_beside hkey rfl
  refine ⟨?_, ?_, ?_⟩
  · rw [List.map_cons, List.map_nil, hnone, List.map_nil]
  · simp [hnone]
  · rw [isIdentity, Bool.or_eq_true, beq_iff_eq, beq_iff_eq] at hi
    exact List.forall_mem_singleton.2 (.identity hi hkey)

/-- The end of the keys. -/
theorem last (h : selection.answers key = true) :
    KeptChains cursor [key] [selection] [(selection.withCursor cursor, true)] := by
  have hcursor : (selection.withCursor cursor).answers key = true := by
    cases selection <;> exact h
  refine ⟨?_, ?_, ?_⟩
  · rw [List.map_cons, List.map_nil, chains_last h, chains_last hcursor]
    rfl
  · simp [chains_last h]
  · exact List.forall_mem_singleton.2 (.last hcursor)

/-- A selection whose chains are those of a set, each changed alike, is kept around what is kept of the
set. -/
theorem around {keys' : List String} {selections : List Selection} {typeName : String}
    {kept : List (Selection × Bool)} {change : Chain → Chain} (wrap : SelectionSet → Selection)
    (h : KeptChains cursor keys' selections kept)
    (hchains : Selection.chains keys [selection] = (Selection.chains keys' selections).map change)
    (hcursor : ∀ chain : Chain, change (chain.withCursor cursor) = (change chain).withCursor cursor)
    (hwrap : ∀ set : SelectionSet, set.typeName = typeName →
      Selection.chains keys [wrap set] = (Selection.chains keys' set.selections).map change)
    (hbare : ∀ set : SelectionSet, set.typeName = typeName →
      Selection.chains keys' set.selections ≠ [] → (∀ inner ∈ set.selections, Bare keys' inner) → Bare keys (wrap set)) :
    KeptChains cursor keys [selection]
      ((keptIfFound typeName kept).map fun set => (wrap set, true)).toList := by
  by_cases hfound : kept.any (·.2) = true
  · have hleads : Selection.chains keys' selections ≠ [] := h.leads.1 hfound
    rw [keptIfFound_eq_some hfound, Option.map_some, Option.toList_some]
    refine ⟨?_, ?_, List.forall_mem_singleton.2 (hbare _ rfl ?_ ?_)⟩
    · rw [List.map_cons, List.map_nil, hwrap _ rfl, hchains, h.chains, List.map_map, List.map_map]
      exact List.map_congr_left fun chain _ => hcursor chain
    · simpa [hchains] using hleads
    · rw [h.chains]
      simpa using hleads
    · intro inner hinner
      obtain ⟨entry, hentry, rfl⟩ := List.mem_map.1 hinner
      exact h.bare entry hentry
  · have hnone : Selection.chains keys' selections = [] := by
      by_contra hne
      exact hfound (h.leads.2 hne)
    rw [keptIfFound, if_neg hfound]
    exact nothing (by rw [hchains, hnone, List.map_nil])

theorem fragment {condition typeName : String} {selections : List Selection}
    {kept : List (Selection × Bool)} (h : KeptChains cursor (key :: rest) selections kept)
    (hs : guarded selection = (guardedAll selections).map (Guarded.within ⟨condition, typeName⟩)) :
    KeptChains cursor (key :: rest) [selection] ((keptIfFound typeName kept).map fun set =>
      (.inlineFragment condition set.typeName set.selections, true)).toList :=
  around (fun set => .inlineFragment condition set.typeName set.selections) h
    (chains_within hs _) (fun chain => by obtain ⟨_ | _, _⟩ := chain <;> rfl)
    (fun set hname => chains_within (by rw [guarded, hname]) _) (fun set _ => .fragment)

/-- A field that a set of its own, or of its nodes, leads on from. -/
theorem passed {kept : List (Selection × Bool)} (set : SelectionSet) (wrap : SelectionSet → Selection)
    (h : KeptChains cursor (next :: more) set.selections kept) (hs : selection.answers key = true)
    (ho : onward? selection = some set)
    (hanswers : ∀ other, (wrap other).answers key = true)
    (honward : ∀ other, onward? (wrap other) = some other)
    (hhollow : ∀ other : SelectionSet, other.typeName = set.typeName →
      hollow (wrap other) = hollow selection) :
    KeptChains cursor (key :: next :: more) [selection]
      ((keptIfFound set.typeName kept).map fun set => (wrap set, true)).toList := by
  refine around wrap h (chains_onward hs ho) (fun _ => rfl) (fun other hname => ?_)
    (fun other _ => .passed (hanswers other) (honward other))
  have hthrough : Chain.through ⟨[], wrap other⟩ = Chain.through ⟨[], selection⟩ := by
    funext chain
    exact congrArg (fun field => Chain.mk (⟨[], field⟩ :: chain.passed) chain.last) (hhollow other hname)
  rw [chains_onward (hanswers other) (honward other), hthrough]

end KeptChains

/-- For these keys pruning keeps the chains of expanded selections. -/
def PruneKeepsChains (cursor : String) (keys : List String) : Prop :=
  ∀ key rest, keys = key :: rest → ∀ selections, EverywhereAll Expanded selections →
    KeptChains cursor keys selections (pruneEach cursor key rest selections)

theorem kept_through {field : Field} {typeName : String} {selections : List Selection}
    (ih : PruneKeepsChains cursor (next :: more)) (hkey : field.responseKey = key)
    (h : Everywhere Expanded (.composite field typeName selections)) :
    KeptChains cursor (key :: next :: more) [.composite field typeName selections]
      (pruneOne cursor key (next :: more) (.composite field typeName selections)).toList := by
  have hanswers : ∀ typeName selections, (composite field typeName selections).answers key = true :=
    fun _ _ => beq_iff_eq.2 hkey
  cases hc : field.connection with
  | false =>
    have honward : ∀ typeName selections,
        onward? (composite field typeName selections) = some ⟨typeName, selections⟩ := by
      intro typeName selections
      rw [onward?, hc, if_neg Bool.false_ne_true]
    rw [pruneOne_through typeName selections next more hkey hc]
    refine KeptChains.passed ⟨typeName, selections⟩
      (fun set => .composite field set.typeName set.selections)
      (ih next more rfl selections h.2) (hanswers _ _) (honward _ _) (fun _ => hanswers _ _)
      (fun _ => honward _ _) fun other hname => ?_
    simp only [hollow, hname, hc, Bool.false_eq_true, if_false]
  | true =>
    -- what is kept of the nodes is put back into the one place that they came from
    obtain ⟨shape, nodes, rfl⟩ := h.1 hc
    have honward : ∀ nodes,
        onward? (composite field typeName (shape.around nodes)) = some nodes := by
      intro nodes
      rw [onward?, if_pos hc, shape.nodeSet?_around]
    rw [pruneOne_nodes typeName _ next more hkey hc, shape.nodeSet?_around, Option.bind_some]
    simp only [shape.replaceNodes_around]
    have hnodes : EverywhereAll Expanded nodes.selections :=
      @everywhere_nodeSet? Expanded ⟨typeName, _⟩ nodes h.2 (shape.nodeSet?_around nodes typeName)
    exact KeptChains.passed nodes (fun set => .composite field typeName (shape.around set))
      (ih next more rfl nodes.selections hnodes) (hanswers _ _) (honward nodes)
      (fun _ => hanswers _ _) (fun _ => honward _)
      fun other hname => shape.hollow_around nodes hname field typeName

-- Into a fragment the keys stay and the selections get smaller, below a field there are fewer keys: the
-- one is recursion here, the other is `ih`.
mutual
theorem kept_pruneOne (ih : PruneKeepsChains cursor rest) (selection : Selection)
    (h : Everywhere Expanded selection) :
    KeptChains cursor (key :: rest) [selection] (pruneOne cursor key rest selection).toList := by
  cases selection with
  | leaf field =>
    by_cases hkey : field.responseKey = key
    · have hanswers : (leaf field).answers key = true := beq_iff_eq.2 hkey
      rw [pruneOne, if_pos (beq_iff_eq.2 hkey)]
      cases rest with
      | nil => exact .last hanswers
      | cons next more => exact .nothing (chains_astray hanswers rfl)
    · rw [pruneOne, if_neg (by simpa using hkey)]
      split
      · rename_i hidentity
        exact .identity hkey hidentity
      · exact .nothing (chains_beside hkey rfl)
  | composite field typeName selections =>
    by_cases hkey : field.responseKey = key
    · cases rest with
      | nil =>
        rw [pruneOne_end typeName selections hkey]
        exact .last (beq_iff_eq.2 hkey)
      | cons next more => exact kept_through ih hkey h
    · rw [pruneOne_of_ne typeName selections rest hkey]
      exact .nothing (chains_beside hkey rfl)
  | inlineFragment condition typeName selections =>
    rw [pruneOne]
    exact (kept_pruneEach ih selections h.2).fragment (by rw [guarded])
  | spread serial name condition typeName selections =>
    rw [pruneOne]
    exact (kept_pruneEach ih selections h.2).fragment (by rw [guarded])

theorem kept_pruneEach (ih : PruneKeepsChains cursor rest) (selections : List Selection)
    (h : EverywhereAll Expanded selections) :
    KeptChains cursor (key :: rest) selections (pruneEach cursor key rest selections) := by
  cases selections with
  | nil => exact .nothing (chains_nil _)
  | cons selection others => exact (kept_pruneOne ih selection h.1).append (kept_pruneEach ih others h.2)
end

theorem pruneKeepsChains (cursor : String) (keys : List String) : PruneKeepsChains cursor keys := by
  induction keys with
  | nil => exact fun _ _ h => absurd h (List.cons_ne_nil _ _).symm
  | cons key rest ih =>
    rintro _ _ ⟨⟩ selections h
    exact kept_pruneEach ih selections h

end Selection

namespace SelectionSet

open Selection

/-- What is kept of a set for a path has the chains of the set, with the cursor at their ends, and nothing
that these do not need. -/
structure PrunedTo (path : List String) (cursor : String) (set kept : SelectionSet) : Prop where
  typeName : kept.typeName = set.typeName
  chains : List.Forall₂ (Chain.ResumedAt cursor) (Selection.chains path set.selections)
    (Selection.chains path kept.selections)
  bare : ∀ selection ∈ kept.selections, Bare path selection

theorem isSome_prune {set : SelectionSet} (h : EverywhereAll Expanded set.selections)
    (path : List String) (cursor : String) :
    (set.prune path cursor).isSome = true ↔ chains path set.selections ≠ [] := by
  cases path with
  | nil => exact iff_of_false Bool.false_ne_true fun hne => hne rfl
  | cons key rest =>
    rw [← (pruneKeepsChains cursor (key :: rest) key rest rfl set.selections h).leads, prune, keptIfFound]
    split
    · rename_i hfound
      exact iff_of_true rfl hfound
    · rename_i hnone
      exact iff_of_false Bool.false_ne_true hnone

/-- Without raw selections all connections have the shape that the builder gives them. -/
theorem isSome_prune_of_furnished {bundle : Bundle} {set : SelectionSet}
    (h : EverywhereAll (Furnished bundle) set.selections) (path : List String) (cursor : String) :
    (set.prune path cursor).isSome = true ↔ chains path set.selections ≠ [] :=
  isSome_prune (h.mono fun _ hself => hself.expanded) path cursor

theorem prunedTo_of_prune {set kept : SelectionSet} (h : EverywhereAll Expanded set.selections)
    {path : List String} {cursor : String} (hp : set.prune path cursor = some kept) :
    set.PrunedTo path cursor kept := by
  obtain ⟨key, rest, rfl⟩ := keys_of_prune hp
  have hkept := pruneKeepsChains cursor (key :: rest) key rest rfl set.selections h
  obtain rfl := eq_of_keptIfFound hp
  refine ⟨rfl, ?_, ?_⟩
  · rw [hkept.chains, List.forall₂_map_right_iff, List.forall₂_same]
    exact fun chain hchain => resumedAt_of_mem_chains hchain cursor
  · intro selection hs
    obtain ⟨entry, hentry, rfl⟩ := List.mem_map.1 hs
    exact hkept.bare entry hentry

theorem prune_again (set : SelectionSet) (path : List String) (cursor cursor' : String) :
    ((set.prune path cursor).bind fun kept => kept.prune path cursor') = set.prune path cursor' := by
  cases path with
  | nil => rfl
  | cons key rest =>
    exact keptIfFound_overridden (overrides cursor cursor' (key :: rest) key rest rfl set.selections)

/-- Pruning a set of expanded connections gives a set exactly if a chain answers the path. What it gives
has those chains, in their order and under the same fragments, with the cursor at the end of each, and
beside them only leaves that tell objects apart and the rest of the connections on the way; and what was
pruned before is pruned like the set itself. -/
theorem prune_chains {set : SelectionSet} (h : EverywhereAll Expanded set.selections)
    (path : List String) (cursor cursor' : String) :
    ((set.prune path cursor).isSome = true ↔ chains path set.selections ≠ []) ∧
      (∀ kept, set.prune path cursor = some kept → set.PrunedTo path cursor kept) ∧
      ((set.prune path cursor).bind fun kept => kept.prune path cursor') = set.prune path cursor' :=
  ⟨isSome_prune h path cursor, fun _ hp => prunedTo_of_prune h hp,
    set.prune_again path cursor cursor'⟩

end SelectionSet

/-- Pages of products. -/
def productPages : Selection.Expansion :=
  ⟨[], .plain "edges", "ProductEdge", [.leaf (.plain "cursor")], .plain "node", [],
    [.composite (.plain "pageInfo") "PageInfo" [.leaf (.plain "hasNextPage")]], rfl, rfl, by decide,
    by decide⟩

/-- A product with the products that are related to it, from some page on. -/
def relatedNodes (arguments : List (String × Value)) : SelectionSet :=
  ⟨"Product", [.leaf (.plain "id"),
    .composite ⟨"related", none, arguments, true⟩ "ProductConnection"
      (productPages.around ⟨"Product", [.leaf (.plain "title")]⟩)]⟩

/-- The shop twice: at first without products, then with products, in a fragment that another spreads. -/
def relatedSet : SelectionSet :=
  ⟨"Query", [.composite (.plain "shop") "Shop" [.leaf (.plain "name")],
    .inlineFragment "Query" "Query" [.spread 0 "Goods" "Query" "Query"
      [.composite (.plain "shop") "Shop" [.leaf (.plain "id"), .leaf (.plain "name"),
        .composite ⟨"products", none, [("first", .int 5)], true⟩ "ProductConnection"
          (productPages.around (relatedNodes [("after", .var "from"), ("first", .int 2)]))]]]]⟩

theorem relatedSet_pruned :
    Selection.EverywhereAll Selection.Expanded relatedSet.selections ∧
      Selection.chains ["shop", "products", "related"] relatedSet.selections ≠ [] ∧
      ∃ kept, relatedSet.prune ["shop", "products", "related"] "c1" = some kept ∧
        relatedSet.PrunedTo ["shop", "products", "related"] "c1" kept ∧
        kept.prune ["shop", "products", "related"] "c2" =
          relatedSet.prune ["shop", "products", "related"] "c2" := by
  have hplain : ∀ name typeName selections,
      Selection.Expanded (.composite (.plain name) typeName selections) := by
    rintro name typeName selections ⟨⟩
  have hpages : ∀ field typeName nodes,
      Selection.Expanded (.composite field typeName (productPages.around nodes)) :=
    fun _ _ nodes _ => ⟨productPages, nodes, rfl⟩
  have haround : ∀ nodes : SelectionSet, Selection.EverywhereAll Selection.Expanded nodes.selections →
      Selection.EverywhereAll Selection.Expanded (productPages.around nodes) := fun nodes h =>
    ⟨⟨hplain _ _ _, trivial, ⟨hplain _ _ _, h⟩, trivial⟩, ⟨hplain _ _ _, trivial, trivial⟩, trivial⟩
  have hexpanded : Selection.EverywhereAll Selection.Expanded relatedSet.selections :=
    ⟨⟨hplain _ _ _, trivial, trivial⟩, ⟨trivial, ⟨trivial, ⟨hplain _ _ _, trivial, trivial,
      ⟨hpages _ _ _, haround _ ⟨trivial, ⟨hpages _ _ _, haround _ ⟨trivial, trivial⟩⟩, trivial⟩⟩,
      trivial⟩, trivial⟩, trivial⟩, trivial⟩
  have hkept : relatedSet.prune ["shop", "products", "related"] "c1" = some ⟨"Query",
      [.inlineFragment "Query" "Query" [.inlineFragment "Query" "Query"
        [.composite (.plain "shop") "Shop" [.leaf (.plain "id"),
          .composite ⟨"products", none, [("first", .int 5)], true⟩ "ProductConnection"
            (productPages.around (relatedNodes [("after", .string "c1"), ("first", .int 2)]))]]]]⟩ := rfl
  obtain ⟨hleads, hpruned, hagain⟩ :=
    SelectionSet.prune_chains hexpanded ["shop", "products", "related"] "c1" "c2"
  rw [hkept, Option.bind_some] at hagain
  exact ⟨hexpanded, hleads.1 (by rw [hkept]; rfl), _, hkept, hpruned _ hkept, hagain⟩

end GraphQLClient
