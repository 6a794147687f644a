import GraphQLClient.Proofs.Decoding.Fields
import GraphQLClient.Proofs.Language.Everywhere

set_option autoImplicit false

/-!
# Origins of sets

An origin names a set by the fragment it stands in and the way to it there. Parts with one origin hold
one set as long as every fragment is registered under its own serial number; so the sets that are
skipped when fields are merged are there already.
-/

namespace GraphQLClient

namespace Selection

variable {P : Selection → Prop}

mutual
theorem everywhere_fieldsOn {bundle : Bundle} {type : TypeDescriptor} {selection : Selection}
    (h : Everywhere P selection) : EverywhereAll P (fieldsOn bundle type selection) := by
  cases selection with
  | leaf field => exact ⟨h, trivial⟩
  | composite field typeName selections => exact ⟨h, trivial⟩
  | inlineFragment condition typeName selections =>
    rw [fieldsOn]
    split
    · exact everywhere_fieldsOnAll h.2
    · trivial
  | spread serial name condition typeName selections =>
    rw [fieldsOn]
    split
    · exact everywhere_fieldsOnAll h.2
    · trivial

theorem everywhere_fieldsOnAll {bundle : Bundle} {type : TypeDescriptor}
    {selections : List Selection} (h : EverywhereAll P selections) :
    EverywhereAll P (fieldsOnAll bundle type selections) := by
  cases selections with
  | nil => trivial
  | cons selection rest =>
    rw [fieldsOnAll, everywhereAll_append]
    exact ⟨everywhere_fieldsOn h.1, everywhere_fieldsOnAll h.2⟩
end

/-- The set of a selection that is not a fragment of its own. -/
def set? : Selection → Option SelectionSet
  | .composite _ typeName selections => some ⟨typeName, selections⟩
  | .inlineFragment _ typeName selections => some ⟨typeName, selections⟩
  | _ => none

end Selection

/-- The set that a list of positions leads to. -/
def SelectionSet.descend? (set : SelectionSet) : List Nat → Option SelectionSet
  | [] => some set
  | index :: rest => (set.selections[index]?).bind fun selection =>
      selection.set?.bind (·.descend? rest)

theorem SelectionSet.descend?_append (set : SelectionSet) (path more : List Nat) :
    set.descend? (path ++ more) = (set.descend? path).bind (·.descend? more) := by
  induction path generalizing set with
  | nil => rfl
  | cons index rest ih =>
    rw [List.cons_append, descend?, descend?]
    cases set.selections[index]? with
    | none => rfl
    | some selection =>
      rw [Option.bind_some, Option.bind_some]
      cases selection.set? with
      | none => rfl
      | some inner => exact ih inner

/-- The set that an origin names in an operation, whose fragments are in a table. -/
def Origin.locate? (set : SelectionSet) (table : Nat → Option SelectionSet) (origin : Origin) :
    Option SelectionSet :=
  match origin.fragment with
  | none => set.descend? origin.path
  | some serial => (table serial).bind (·.descend? origin.path)

namespace Origin

variable {set : SelectionSet} {table : Nat → Option SelectionSet}

theorem locate?_child {origin : Origin} {found : SelectionSet} {index : Nat}
    {selection : Selection} (h : origin.locate? set table = some found)
    (hs : found.selections[index]? = some selection) :
    (origin.child index).locate? set table = selection.set? := by
  have hstep : found.descend? [index] = selection.set? := by
    rw [SelectionSet.descend?, hs, Option.bind_some]
    cases selection.set? <;> rfl
  unfold locate? at h ⊢
  cases hf : origin.fragment with
  | none =>
    rw [hf] at h
    simp only [Origin.child, hf, SelectionSet.descend?_append, h]
    exact hstep
  | some serial =>
    rw [hf] at h
    change (table serial).bind _ = _ at h
    cases ht : table serial with
    | none => simp [ht] at h
    | some body =>
      rw [ht] at h
      change body.descend? origin.path = some found at h
      simp only [Origin.child, hf, ht, Option.bind_some, SelectionSet.descend?_append, h]
      exact hstep

end Origin

/-- The part holds the set that its origin names. -/
def Part.Located (set : SelectionSet) (table : Nat → Option SelectionSet) (part : Part) : Prop :=
  part.origin.locate? set table = some part.set

theorem SelectionSet.everywhere_descend? {P : Selection → Prop} {set found : SelectionSet}
    {path : List Nat} (hs : Selection.EverywhereAll P set.selections)
    (h : set.descend? path = some found) : Selection.EverywhereAll P found.selections := by
  induction path generalizing set with
  | nil => exact (Option.some.inj h) ▸ hs
  | cons index rest ih =>
    obtain ⟨selection, hget, h⟩ := Option.bind_eq_some_iff.1 h
    obtain ⟨inner, hset, h⟩ := Option.bind_eq_some_iff.1 h
    have hselection := Selection.everywhereAll_iff.1 hs _ (List.mem_of_getElem? hget)
    refine ih ?_ h
    cases selection <;> cases hset <;> exact hselection.2

/-- What holds everywhere in an operation and its fragments holds everywhere in a part of them. -/
theorem Part.Located.everywhere {P : Selection → Prop} {set : SelectionSet}
    {table : Nat → Option SelectionSet} {part : Part} (h : part.Located set table)
    (hs : Selection.EverywhereAll P set.selections)
    (ht : ∀ serial body, table serial = some body → Selection.EverywhereAll P body.selections) :
    Selection.EverywhereAll P part.set.selections := by
  unfold Located Origin.locate? at h
  split at h
  · exact SelectionSet.everywhere_descend? hs h
  · obtain ⟨body, hb, h⟩ := Option.bind_eq_some_iff.1 h
    exact SelectionSet.everywhere_descend? (ht _ body hb) h

/-- The part is where its origin says, and its spreads are known. -/
structure Part.Placed (set : SelectionSet) (table : Nat → Option SelectionSet) (part : Part) :
    Prop where
  located : part.Located set table
  registered : Selection.EverywhereAll (Selection.Registered table) part.set.selections

namespace Collected

variable {bundle : Bundle} {type : TypeDescriptor} {set : SelectionSet}
  {table : Nat → Option SelectionSet}

mutual
theorem located_fieldsOf {origin : Origin} {selection : Selection}
    (ho : ∀ found, selection.set? = some found → origin.locate? set table = some found)
    (hr : selection.Everywhere (Selection.Registered table)) :
    ∀ field ∈ fieldsOf bundle type origin selection, ∀ part ∈ field.parts,
      part.Located set table := by
  cases selection with
  | leaf field =>
    intro found hf part hp
    obtain rfl := List.mem_singleton.1 hf
    cases hp
  | composite field typeName selections =>
    intro found hf part hp
    obtain rfl := List.mem_singleton.1 hf
    obtain rfl := List.mem_singleton.1 hp
    exact ho _ rfl
  | inlineFragment condition typeName selections =>
    rw [fieldsOf]
    split
    · exact located_fieldsOfAll (ho _ rfl) rfl hr.2
    · exact fun _ h => absurd h List.not_mem_nil
  | spread serial name condition typeName selections =>
    rw [fieldsOf]
    split
    · have hbody : table serial = some ⟨typeName, selections⟩ := hr.self
      have hlocate : (⟨some serial, []⟩ : Origin).locate? set table = some ⟨typeName, selections⟩ := by
        simp only [Origin.locate?, hbody]
        rfl
      exact located_fieldsOfAll hlocate rfl hr.2
    · exact fun _ h => absurd h List.not_mem_nil

theorem located_fieldsOfAll {origin : Origin} {index : Nat} {found : SelectionSet}
    {selections : List Selection} (ho : origin.locate? set table = some found)
    (hd : found.selections.drop index = selections)
    (hr : Selection.EverywhereAll (Selection.Registered table) selections) :
    ∀ field ∈ fieldsOfAll bundle type origin index selections, ∀ part ∈ field.parts,
      part.Located set table := by
  cases selections with
  | nil => exact fun _ h => absurd h List.not_mem_nil
  | cons selection rest =>
    have hget : found.selections[index]? = some selection := by
      rw [← List.head?_drop, hd]
      rfl
    have hdrop : found.selections.drop (index + 1) = rest := by
      rw [← List.drop_drop, hd]
      rfl
    intro field hf
    rw [fieldsOfAll] at hf
    rcases List.mem_append.1 hf with hf | hf
    · refine located_fieldsOf (fun inner hi => ?_) hr.1 field hf
      rw [Origin.locate?_child ho hget, hi]
    · exact located_fieldsOfAll ho hdrop hr.2 field hf
end

theorem located_fieldsOfParts {parts : List Part} (hl : ∀ part ∈ parts, part.Located set table)
    (hr : ∀ part ∈ parts,
      Selection.EverywhereAll (Selection.Registered table) part.set.selections) :
    ∀ field ∈ fieldsOfParts bundle type parts, ∀ part ∈ field.parts, part.Located set table := by
  intro field hf
  obtain ⟨part, hp, hf⟩ := List.mem_flatMap.1 hf
  exact located_fieldsOfAll (hl part hp) List.drop_zero (hr part hp) field hf

def ofPair (pair : Field × Part) : Collected := ⟨pair.1, [pair.2]⟩

/-- Fields that all have a set are joined to their parts, where those that repeat the origin of the
first are left out until another one comes. -/
theorem joined_ofPair (first : Field × Part) (fields : List (Field × Part)) :
    joined ((first :: fields).map ofPair) =
      some ⟨first.1,
        first.2 :: (fields.map Prod.snd).dropWhile (·.origin = first.2.origin)⟩ := by
  have happend : ∀ (fields : List (Field × Part)) (part : Part) (more : List Part), more ≠ [] →
      (fields.map ofPair).foldl (fun found field => extend found field.parts)
        ⟨first.1, part :: more⟩ = ⟨first.1, part :: (more ++ fields.map Prod.snd)⟩ := by
    intro fields
    induction fields with
    | nil => exact fun part more _ => by simp
    | cons pair rest ih =>
      intro part more hne
      obtain ⟨second, others, rfl⟩ := List.exists_cons_of_ne_nil hne
      have hext : extend ⟨first.1, part :: second :: others⟩ (ofPair pair).parts =
          ⟨first.1, part :: ((second :: others) ++ [pair.2])⟩ := rfl
      rw [List.map_cons, List.foldl_cons, hext, ih part _ (by simp)]
      simp
  have hskip : ∀ (fields : List (Field × Part)),
      (fields.map ofPair).foldl (fun found field => extend found field.parts)
        ⟨first.1, [first.2]⟩ =
        ⟨first.1, first.2 :: (fields.map Prod.snd).dropWhile (·.origin = first.2.origin)⟩ := by
    intro fields
    induction fields with
    | nil => rfl
    | cons pair rest ih =>
      rw [List.map_cons, List.foldl_cons, List.map_cons, List.dropWhile_cons]
      by_cases ho : pair.2.origin = first.2.origin
      · have hext : extend ⟨first.1, [first.2]⟩ (ofPair pair).parts = ⟨first.1, [first.2]⟩ := by
          simp [extend, ofPair, ho]
        rw [hext, ih, if_pos (by simpa using ho)]
      · have hext : extend ⟨first.1, [first.2]⟩ (ofPair pair).parts =
            ⟨first.1, [first.2, pair.2]⟩ := by
          simp [extend, ofPair, ho]
        rw [hext, happend _ _ _ (by simp), if_neg (by simpa using ho)]
        rfl
  exact congrArg some (hskip fields)

end Collected

end GraphQLClient
