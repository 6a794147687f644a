import GraphQLClient.Paging.Prune

set_option autoImplicit false

/-!
# What pruning keeps of a selection

A selection is kept as it is, with a cursor, or with what is kept of the sets below it. Each way to be
kept is told once here. The nodes of a connection are pruned like any other set, so that an induction
over pruning has two kinds of steps: into a fragment for the same keys, and below a field for the keys
that are left.
-/

namespace GraphQLClient

namespace Selection

variable {cursor key : String} {rest : List String} {kept : Selection × Bool}

theorem keptIfFound_eq_some {typeName : String} {kept : List (Selection × Bool)}
    (h : kept.any (·.2) = true) :
    keptIfFound typeName kept = some ⟨typeName, kept.map Prod.fst⟩ := by
  rw [keptIfFound, if_pos h]

theorem eq_of_keptIfFound {typeName : String} {kept : List (Selection × Bool)} {set : SelectionSet}
    (h : keptIfFound typeName kept = some set) : set = ⟨typeName, kept.map Prod.fst⟩ := by
  rw [keptIfFound] at h
  split at h
  · exact (Option.some.inj h).symm
  · cases h

theorem pruneEach_append (before after : List Selection) :
    pruneEach cursor key rest (before ++ after) =
      pruneEach cursor key rest before ++ pruneEach cursor key rest after := by
  induction before with
  | nil => rfl
  | cons selection others ih => simp only [List.cons_append, pruneEach, ih, List.append_assoc]

theorem mem_pruneEach {selections : List Selection} :
    kept ∈ pruneEach cursor key rest selections ↔
      ∃ selection ∈ selections, pruneOne cursor key rest selection = some kept := by
  induction selections with
  | nil => simp [pruneEach]
  | cons selection others ih =>
    rw [pruneEach, List.mem_append, Option.mem_toList, ih]
    simp only [List.mem_cons, exists_eq_or_imp]

/-! ## Nodes -/

theorem pruneNodes_eq (typeName : String) (selections : List Selection) :
    pruneNodes cursor key rest selections =
      (SelectionSet.below? ⟨typeName, selections⟩ "node").bind fun nodes =>
        keptIfFound nodes.typeName (pruneEach cursor key rest nodes.selections) := by
  induction selections with
  | nil => rfl
  | cons selection others ih =>
    rw [pruneNodes]
    by_cases ha : selection.answers "node" = true
    · have hfind : SelectionSet.find? ⟨typeName, selection :: others⟩ "node" = some selection := by
        simp [SelectionSet.find?, ha]
      rw [if_pos ha, SelectionSet.below?, hfind]
      cases selection <;> rfl
    · have hfind : SelectionSet.find? ⟨typeName, selection :: others⟩ "node" =
          SelectionSet.find? ⟨typeName, others⟩ "node" := by
        simp [SelectionSet.find?, ha]
      rw [if_neg ha, ih, SelectionSet.below?, SelectionSet.below?, hfind]

/-- The nodes of a connection are pruned like any other set. -/
theorem pruneEdges_eq (typeName : String) (selections : List Selection) :
    pruneEdges cursor key rest selections =
      (SelectionSet.nodeSet? ⟨typeName, selections⟩).bind fun nodes =>
        keptIfFound nodes.typeName (pruneEach cursor key rest nodes.selections) := by
  induction selections with
  | nil => rfl
  | cons selection others ih =>
    rw [pruneEdges]
    by_cases ha : selection.answers "edges" = true
    · have hfind : SelectionSet.find? ⟨typeName, selection :: others⟩ "edges" = some selection := by
        simp [SelectionSet.find?, ha]
      rw [if_pos ha, SelectionSet.nodeSet?, SelectionSet.below?, hfind]
      cases selection with
      | composite field edges inner => exact pruneNodes_eq edges inner
      | _ => rfl
    · have hfind : SelectionSet.find? ⟨typeName, selection :: others⟩ "edges" =
          SelectionSet.find? ⟨typeName, others⟩ "edges" := by
        simp [SelectionSet.find?, ha]
      rw [if_neg ha, ih, SelectionSet.nodeSet?, SelectionSet.nodeSet?, SelectionSet.below?,
        SelectionSet.below?, hfind]

/-! ## Fields with a set -/

section

variable {field : Field} (typeName : String) (selections : List Selection)

theorem pruneOne_end (hk : field.responseKey = key) :
    pruneOne cursor key [] (.composite field typeName selections) =
      some (.composite (field.withCursor cursor) typeName selections, true) := by
  simp only [pruneOne, hk, beq_self_eq_true, if_true]

theorem pruneOne_through (next : String) (rest : List String) (hk : field.responseKey = key)
    (hc : field.connection = false) :
    pruneOne cursor key (next :: rest) (.composite field typeName selections) =
      (keptIfFound typeName (pruneEach cursor next rest selections)).map fun set =>
        (.composite field set.typeName set.selections, true) := by
  simp only [pruneOne, hk, beq_self_eq_true, if_true, hc, Bool.false_eq_true, if_false]

/-- Where keys lead on from a connection, its nodes are replaced by what is kept of them. -/
theorem pruneOne_nodes (next : String) (more : List String) (hk : field.responseKey = key)
    (hc : field.connection = true) :
    pruneOne cursor key (next :: more) (.composite field typeName selections) =
      ((SelectionSet.nodeSet? ⟨typeName, selections⟩).bind fun nodes =>
        keptIfFound nodes.typeName (pruneEach cursor next more nodes.selections)).map fun kept =>
          (.composite field typeName (replaceNodes kept selections), true) := by
  simp only [pruneOne, hk, beq_self_eq_true, if_true, hc, pruneEdges_eq typeName]

theorem pruneOne_of_ne (rest : List String) (hk : field.responseKey ≠ key) :
    pruneOne cursor key rest (.composite field typeName selections) = none := by
  have hb : (field.responseKey == key) = false := by simpa using hk
  cases rest <;> simp only [pruneOne, hb, Bool.false_eq_true, if_false]

/-- What is kept of a field from which further keys lead on: its set is pruned for them, or that of its
nodes if it is a connection. -/
def KeptThrough (cursor next : String) (more : List String) (field : Field) (typeName : String)
    (selections : List Selection) (kept : Selection × Bool) : Prop :=
  (field.connection = false ∧ ∃ set,
    keptIfFound typeName (pruneEach cursor next more selections) = some set ∧
      kept = (.composite field set.typeName set.selections, true)) ∨
  (field.connection = true ∧ ∃ old nodes, SelectionSet.nodeSet? ⟨typeName, selections⟩ = some old ∧
    keptIfFound old.typeName (pruneEach cursor next more old.selections) = some nodes ∧
      kept = (.composite field typeName (replaceNodes nodes selections), true))

end

/-! ## How a selection is kept -/

theorem pruneOne_leaf_cases {field : Field}
    (h : pruneOne cursor key rest (.leaf field) = some kept) :
    (field.responseKey = key ∧ rest = [] ∧ kept = (.leaf (field.withCursor cursor), true)) ∨
      (field.responseKey ≠ key ∧ isIdentity field = true ∧ kept = (.leaf field, false)) := by
  rw [pruneOne] at h
  split at h
  · rename_i hkey
    split at h
    · rename_i hrest
      exact .inl ⟨beq_iff_eq.1 hkey, List.isEmpty_iff.1 hrest, (Option.some.inj h).symm⟩
    · cases h
  · rename_i hkey
    split at h
    · rename_i hidentity
      exact .inr ⟨fun hk => hkey (beq_iff_eq.2 hk), hidentity, (Option.some.inj h).symm⟩
    · cases h

theorem pruneOne_composite_cases {field : Field} {typeName : String} {selections : List Selection}
    (h : pruneOne cursor key rest (.composite field typeName selections) = some kept) :
    field.responseKey = key ∧
      ((rest = [] ∧ kept = (.composite (field.withCursor cursor) typeName selections, true)) ∨
        ∃ next more, rest = next :: more ∧
          KeptThrough cursor next more field typeName selections kept) := by
  by_cases hkey : field.responseKey = key
  · refine ⟨hkey, ?_⟩
    cases rest with
    | nil =>
      rw [pruneOne_end typeName selections hkey] at h
      exact .inl ⟨rfl, (Option.some.inj h).symm⟩
    | cons next more =>
      refine .inr ⟨next, more, rfl, ?_⟩
      cases hc : field.connection with
      | false =>
        rw [pruneOne_through typeName selections next more hkey hc] at h
        obtain ⟨set, hset, rfl⟩ := Option.map_eq_some_iff.1 h
        exact .inl ⟨hc, set, hset, rfl⟩
      | true =>
        rw [pruneOne_nodes typeName selections next more hkey hc] at h
        obtain ⟨nodes, hnodes, rfl⟩ := Option.map_eq_some_iff.1 h
        obtain ⟨old, hold, hkept⟩ := Option.bind_eq_some_iff.1 hnodes
        exact .inr ⟨hc, old, nodes, hold, hkept, rfl⟩
  · rw [pruneOne_of_ne typeName selections rest hkey] at h
    cases h

end Selection

namespace SelectionSet

theorem keys_of_prune {set kept : SelectionSet} {path : List String} {cursor : String}
    (h : set.prune path cursor = some kept) : ∃ key keys, path = key :: keys := by
  cases path with
  | nil => cases h
  | cons key keys => exact ⟨key, keys, rfl⟩

theorem prune_eq_some {set pruned : SelectionSet} {key cursor : String} {keys : List String}
    (h : set.prune (key :: keys) cursor = some pruned) :
    pruned.selections = (Selection.pruneEach cursor key keys set.selections).map Prod.fst := by
  rw [Selection.eq_of_keptIfFound h]

end SelectionSet

end GraphQLClient
