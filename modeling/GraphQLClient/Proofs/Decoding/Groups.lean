import Mathlib.Data.List.Basic
import GraphQLClient.Proofs.Decoding.Connections
import GraphQLClient.Proofs.Decoding.Repeats
import GraphQLClient.Proofs.Decoding.Sound

set_option autoImplicit false

/-!
# What the groups of an object stand for

Parts stand for a list of selections if they are where their origins say and hold that list but for
repeats. The group that the decoder collects under a key then stands for all the fields of that key:
sets are skipped only where their origin is there already, and one origin has one set. No agreement
between the fields is needed.
-/

namespace GraphQLClient

structure Part.StandFor (set : SelectionSet) (table : Nat → Option SelectionSet)
    (parts : List Part) (selections : List Selection) : Prop where
  placed : ∀ part ∈ parts, part.Placed set table
  thinned : Selection.Thinned [] selections (Part.merged parts).selections

/-- The field is the first one, and the parts below it stand for the selections below all of them. -/
structure Collected.StandsFor (set : SelectionSet) (table : Nat → Option SelectionSet)
    (collected : Collected) (fields : List Selection) : Prop where
  head : fields.head? = some collected.selection
  below : collected.parts ≠ [] →
    Part.StandFor set table collected.parts (fields.flatMap Selection.inner)

variable {set : SelectionSet} {table : Nat → Option SelectionSet} {bundle : Bundle}
  {type : TypeDescriptor}

theorem Part.Located.set_eq {a b : Part} (ha : a.Located set table) (hb : b.Located set table)
    (ho : a.origin = b.origin) : a.set = b.set := by
  unfold Part.Located at ha hb
  rw [ho] at ha
  exact Option.some.inj (ha.symm.trans hb)

theorem Part.Placed.standFor {part : Part} (h : part.Placed set table) :
    StandFor set table [part] part.set.selections := by
  refine ⟨fun other ho => (List.mem_singleton.1 ho) ▸ h, ?_⟩
  rw [merged, List.flatMap_singleton]
  exact .refl _ _

/-- What stands for selections stands for all that they are left of. -/
theorem Part.StandFor.of_thinned {parts : List Part} {all kept : List Selection}
    (h : StandFor set table parts kept) (ht : Selection.Thinned [] all kept) :
    StandFor set table parts all :=
  ⟨h.placed, ht.trans h.thinned (.refl [])⟩

theorem Collected.StandsFor.of_thinned {collected : Collected} {all kept : List Selection}
    (h : collected.StandsFor set table kept) (ht : Selection.Thinned [] all kept) :
    collected.StandsFor set table all :=
  ⟨ht.head?_eq ▸ h.head, fun hne => (h.below hne).of_thinned ht.inner⟩

namespace Collected

theorem extend_nil (found : Collected) : found.extend [] = found := by
  obtain ⟨field, parts⟩ := found
  rcases parts with _ | ⟨_, _ | _⟩ <;> rfl

/-- A further set goes to the end, unless it stands where the only one before it stands. -/
theorem extend_singleton {found : Collected} (part : Part) (hne : found.parts ≠ []) :
    ((∃ only, found.parts = [only] ∧ only.origin = part.origin) ∧ found.extend [part] = found) ∨
      found.extend [part] = { found with parts := found.parts ++ [part] } := by
  obtain ⟨field, parts⟩ := found
  rcases parts with _ | ⟨only, _ | _⟩
  · exact absurd rfl hne
  · by_cases ho : part.origin = only.origin
    · exact .inl ⟨⟨only, rfl, ho.symm⟩, by simp [extend, ho]⟩
    · exact .inr (by simp [extend, ho])
  · exact .inr rfl

theorem inner_selection (collected : Collected) (hp : collected.parts = []) :
    collected.selection.inner = [] := by
  unfold selection
  rw [hp]
  rfl

/-- Joining further fields to a set adds their sets, but for repeats. -/
theorem thinned_foldl {found : Collected} {fields : List Collected} (hne : found.parts ≠ [])
    (hp : ∀ part ∈ found.parts, part.Placed set table)
    (hf : ∀ field ∈ fields, ∀ part ∈ field.parts, part.Placed set table)
    (hpair : ∀ field ∈ fields, field.parts = [] ∨ ∃ pair, field = ofPair pair) :
    ∃ more, fields.foldl (fun found field => found.extend field.parts) found =
        ⟨found.field, found.parts ++ more⟩ ∧
      (∀ part ∈ more, part.Placed set table) ∧
      Selection.Thinned (Part.merged found.parts).selections
        ((fields.map selection).flatMap Selection.inner) (Part.merged more).selections := by
  induction fields generalizing found with
  | nil => exact ⟨[], by simp, fun _ h => absurd h List.not_mem_nil, .nil _⟩
  | cons field rest ih =>
    have hrest := fun field hm => hf field (List.mem_cons_of_mem _ hm)
    have hpairs := fun field hm => hpair field (List.mem_cons_of_mem _ hm)
    rw [List.foldl_cons, List.map_cons, List.flatMap_cons]
    obtain hleaf | ⟨⟨added, part⟩, rfl⟩ := hpair field List.mem_cons_self
    · rw [hleaf, extend_nil, inner_selection field hleaf]
      exact ih hne hp hrest hpairs
    · have hpart := hf _ List.mem_cons_self part List.mem_cons_self
      change ∃ more, rest.foldl _ (found.extend [part]) = _ ∧ _ ∧
        Selection.Thinned _ (part.set.selections ++ _) _
      obtain ⟨⟨only, honly, ho⟩, hext⟩ | hext := extend_singleton part hne
      · obtain ⟨more, hfold, hmore, hthin⟩ := ih hne hp hrest hpairs
        refine ⟨more, by rw [hext]; exact hfold, hmore, .dropAll ?_ hthin⟩
        rw [honly] at hp ⊢
        rw [← (hp only List.mem_cons_self).located.set_eq hpart.located ho, Part.merged,
          List.flatMap_singleton]
        exact .refl _
      · obtain ⟨more, hfold, hmore, hthin⟩ :=
          @ih { found with parts := found.parts ++ [part] } (by simp) (by
            intro other hm
            rcases List.mem_append.1 hm with hm | hm
            · exact hp other hm
            · exact (List.mem_singleton.1 hm) ▸ hpart) hrest hpairs
        refine ⟨part :: more, ?_, ?_, ?_⟩
        · rw [hext, hfold]
          simp
        · exact List.forall_mem_cons.2 ⟨hpart, hmore⟩
        · rw [Part.merged, List.flatMap_append, List.flatMap_singleton] at hthin
          exact .keepAll _ hthin

/-- The first of some fields with what is joined to it stands for all of them. -/
theorem standsFor_joined {first : Collected} {rest : List Collected} {selections : List Selection}
    (hp : ∀ field ∈ first :: rest, ∀ part ∈ field.parts, part.Placed set table)
    (hpair : ∀ field ∈ first :: rest, field.parts = [] ∨ ∃ pair, field = ofPair pair)
    (ht : Selection.Thinned [] selections ((first :: rest).map selection)) :
    ∃ collected, joined (first :: rest) = some collected ∧ collected.StandsFor set table selections := by
  have hhead : selections.head? = some first.selection := ht.head?_eq.symm
  obtain hleaf | ⟨⟨field, part⟩, rfl⟩ := hpair first List.mem_cons_self
  · exact ⟨first, joined_leaf rest hleaf, hhead, fun hne => absurd hleaf hne⟩
  · have hpart := hp _ List.mem_cons_self part List.mem_cons_self
    have hne : (ofPair (field, part)).parts ≠ [] := List.cons_ne_nil _ _
    obtain ⟨more, hfold, hmore, hthin⟩ := thinned_foldl hne (hp _ List.mem_cons_self)
      (fun field hf => hp field (List.mem_cons_of_mem _ hf))
      (fun field hf => hpair field (List.mem_cons_of_mem _ hf))
    refine ⟨_, congrArg some hfold, hhead, fun _ => ⟨List.forall_mem_cons.2 ⟨hpart, hmore⟩, ?_⟩⟩
    have hall : Selection.Thinned [] (((ofPair (field, part) :: rest).map selection).flatMap Selection.inner)
        (Part.merged (part :: more)).selections := by
      refine .keepAll part.set.selections ?_
      rwa [List.nil_append, ← List.flatMap_singleton (fun part : Part => part.set.selections) part]
    exact ht.inner.trans hall (.refl [])

/-- The group of a key stands for the fields of that key; without one no field has the key. -/
theorem joined_cases (bundle : Bundle) (type : TypeDescriptor) {parts : List Part}
    {selections : List Selection}
    (h : Part.StandFor set table parts selections) (key : String) :
    let fields := (Selection.fieldsOnAll bundle type selections).filter (Selection.answers key)
    let group := joined ((fieldsOfParts bundle type parts).filter (·.key == key))
    (group = none ∧ fields = []) ∨
      ∃ collected, group = some collected ∧ collected.StandsFor set table fields := by
  intro fields group
  have hthin : Selection.Thinned [] fields
      (((fieldsOfParts bundle type parts).filter (·.key == key)).map selection) := by
    rw [filter_selections, selections_fieldsOfParts]
    exact h.thinned.fieldsOnAll.answers key
  have hmem : ∀ field ∈ (fieldsOfParts bundle type parts).filter (·.key == key),
      field ∈ fieldsOfParts bundle type parts := fun field hf => (List.mem_filter.1 hf).1
  change (joined _ = none ∧ _) ∨ ∃ collected, joined _ = some collected ∧ _
  cases hg : (fieldsOfParts bundle type parts).filter (·.key == key) with
  | nil =>
    rw [hg] at hthin
    exact .inl ⟨rfl, List.head?_eq_none_iff.1 hthin.head?_eq.symm⟩
  | cons first rest =>
    rw [hg] at hthin hmem
    exact .inr (standsFor_joined
      (fun field hf => placed_fieldsOfParts h.placed field (hmem field hf))
      (fun field hf => parts_fieldsOfParts parts field (hmem field hf)) hthin)

theorem find?_of_nodup {groups : List Collected} (h : (groups.map key).Nodup) {collected : Collected}
    (hm : collected ∈ groups) : groups.find? (·.key == collected.key) = some collected := by
  induction groups with
  | nil => cases hm
  | cons first rest ih =>
    obtain ⟨hfirst, hrest⟩ := List.nodup_cons.1 h
    rcases List.mem_cons.1 hm with rfl | hm
    · simp
    · have hne : first.key ≠ collected.key := fun he => hfirst (he ▸ List.mem_map_of_mem hm)
      rw [List.find?_cons_of_neg (by simpa using hne)]
      exact ih hrest hm

theorem keys_merge (field : Field) (added : List Part) (found : List Collected) :
    (merge field added found).map key = if field.responseKey ∈ found.map key then found.map key
      else found.map key ++ [field.responseKey] := by
  induction found with
  | nil => rfl
  | cons first rest ih =>
    unfold merge
    by_cases hf : first.key = field.responseKey
    · simp [hf]
    · rw [if_neg hf, List.map_cons, ih, List.map_cons]
      by_cases hr : field.responseKey ∈ rest.map key
      · rw [if_pos hr, if_pos (List.mem_cons_of_mem _ hr)]
      · rw [if_neg hr, if_neg (by simp [hr, Ne.symm hf])]
        rfl

theorem keys_mergeAll (fields found : List Collected) :
    (mergeAll found fields).map key =
      found.map key ++ ((fields.map key).filter (!(found.map key).contains ·)).eraseDups := by
  induction fields generalizing found with
  | nil => simp [mergeAll]
  | cons field rest ih =>
    change (mergeAll (merge field.field field.parts found) rest).map key = _
    rw [ih, keys_merge, List.map_cons, List.filter_cons]
    change _ = _ ++ List.eraseDups (if (!(found.map key).contains field.field.responseKey) = true
      then field.field.responseKey :: _ else _)
    by_cases hf : field.field.responseKey ∈ found.map key
    · rw [if_pos hf, if_neg (by simpa using hf)]
    · rw [if_neg hf, if_pos (by simpa using hf), List.eraseDups_cons, List.filter_filter,
        List.append_assoc, List.singleton_append]
      congr 4
      funext other
      by_cases h : other = field.field.responseKey <;> simp [h]

/-- Keys come in the order in which the fields first have them. -/
theorem keys_ofParts (parts : List Part) :
    (ofParts bundle type parts).map key = ((fieldsOfParts bundle type parts).map key).eraseDups := by
  rw [ofParts_eq_mergeAll, keys_mergeAll, List.map_nil, List.nil_append, List.filter_eq_self.2]
  exact fun _ _ => rfl

end Collected

/-- The keys of an object are those of the fields that its parts stand for. -/
theorem Collected.keys_of_standFor {parts : List Part} {selections : List Selection}
    (h : Part.StandFor set table parts selections) :
    (ofParts bundle type parts).map key =
      ((Selection.fieldsOnAll bundle type selections).filterMap Selection.key?).eraseDups := by
  have hselections : ((fieldsOfParts bundle type parts).map selection).filterMap Selection.key? =
      (fieldsOfParts bundle type parts).map key := by
    rw [List.filterMap_map, ← List.filterMap_eq_map]
    refine List.filterMap_congr fun field _ => ?_
    change field.selection.key? = some field.key
    unfold Collected.selection
    cases field.parts.head? <;> rfl
  rw [keys_ofParts, h.thinned.fieldsOnAll.eraseDups_eq fun _ _ he => he.key?_eq,
    ← selections_fieldsOfParts, hselections]

theorem Collected.standsFor_of_mem {parts : List Part} {selections : List Selection}
    (h : Part.StandFor set table parts selections) {collected : Collected}
    (hm : collected ∈ ofParts bundle type parts) :
    collected.StandsFor set table
      ((Selection.fieldsOnAll bundle type selections).filter (Selection.answers collected.key)) := by
  have hfind := find?_of_nodup (nodup_keys_ofParts parts) hm
  rw [find?_ofParts] at hfind
  obtain ⟨hnone, -⟩ | ⟨found, hsome, hs⟩ :=
    joined_cases bundle type h collected.key
  · cases hfind.symm.trans hnone
  · obtain rfl := Option.some.inj (hfind.symm.trans hsome)
    exact hs

/-- Where a set is found depends on the parts put together only. -/
theorem Part.below?_set (parts : List Part) (key : String) :
    (below? parts key).map (·.set) =
      ((merged parts).selections.find? (Selection.answers key)).bind Selection.fieldSet? := by
  have hfind : (parts.findSome? fun part => findIn? key part.origin 0 part.set.selections).map
      Prod.snd = (merged parts).selections.find? (Selection.answers key) := by
    induction parts with
    | nil => rfl
    | cons part rest ih =>
      have hpart := findIn?_selection key part.origin 0 part.set.selections
      change _ = (part.set.selections ++ (merged rest).selections).find? _
      rw [List.findSome?_cons, List.find?_append, ← hpart]
      cases findIn? key part.origin 0 part.set.selections with
      | none => exact ih
      | some found => rfl
  rw [← hfind]
  unfold below?
  cases parts.findSome? fun part => findIn? key part.origin 0 part.set.selections with
  | none => rfl
  | some found =>
    obtain ⟨origin, selection⟩ := found
    change Option.map _ (Option.map _ selection.fieldSet?) = selection.fieldSet?
    rw [Option.map_map]
    exact Option.map_id'

/-- The nodes of a connection are those of the selections that its parts stand for. -/
theorem Part.StandFor.nodes?_set {parts : List Part} {selections : List Selection}
    (h : StandFor set table parts selections) (typeName : String) :
    (nodes? parts).map (·.set) = SelectionSet.nodeSet? ⟨typeName, selections⟩ := by
  have hfind : (merged parts).selections.find? (Selection.answers "edges") =
      selections.find? (Selection.answers "edges") := by
    rw [← List.head?_filter, ← List.head?_filter]
    exact (h.thinned.answers "edges").head?_eq
  have hedges := below?_set parts "edges"
  rw [hfind] at hedges
  change _ = ((selections.find? (Selection.answers "edges")).bind Selection.fieldSet?).bind _
  rw [← hedges, nodes?]
  cases below? parts "edges" with
  | none => rfl
  | some edges =>
    have hnode := below?_set [edges] "node"
    rwa [merged, List.flatMap_singleton] at hnode

end GraphQLClient
