set_option autoImplicit false

/-!
# Named entries in order

Arguments, objects, fields and types are lists of named entries. Their order is the order in which
the names first came, and a name that comes again keeps its place and takes the new value.
-/

namespace GraphQLClient.Keyed

variable {α : Type}

/-- The value of the first entry with this name. -/
def find? (name : String) : List (String × α) → Option α
  | [] => none
  | (key, value) :: rest => if key = name then some value else find? name rest

def contains (name : String) (entries : List (String × α)) : Bool :=
  (find? name entries).isSome

/-- A known name keeps its place and takes the new value; a new name goes to the end. -/
def insert (name : String) (value : α) : List (String × α) → List (String × α)
  | [] => [(name, value)]
  | (key, old) :: rest =>
    if key = name then (key, value) :: rest else (key, old) :: insert name value rest

/-- Later entries of `added` win over earlier ones and over `entries`. -/
def insertAll (entries added : List (String × α)) : List (String × α) :=
  added.foldl (fun kept entry => insert entry.1 entry.2 kept) entries

def ofList (added : List (String × α)) : List (String × α) :=
  insertAll [] added

/-- Puts a value that names itself among others: in the place of the one with its name, or at the
end. -/
def put (nameOf : α → String) (value : α) : List α → List α
  | [] => [value]
  | old :: rest =>
    if nameOf old = nameOf value then value :: rest else old :: put nameOf value rest

def names (entries : List (String × α)) : List String :=
  entries.map Prod.fst

/-- Entries ordered by name, for places where no other order is defined. -/
def sortByName (entries : List (String × α)) : List (String × α) :=
  entries.mergeSort fun a b => decide (a.1 ≤ b.1)

theorem find?_insert_self (name : String) (value : α) (entries : List (String × α)) :
    find? name (insert name value entries) = some value := by
  induction entries with
  | nil => simp [insert, find?]
  | cons entry rest ih =>
    by_cases h : entry.1 = name
    · simp [insert, find?, h]
    · simp [insert, find?, h, ih]

theorem find?_insert_of_ne {name other : String} (h : name ≠ other) (value : α)
    (entries : List (String × α)) :
    find? other (insert name value entries) = find? other entries := by
  induction entries with
  | nil => simp [insert, find?, h]
  | cons entry rest ih =>
    by_cases hn : entry.1 = name
    · have : entry.1 ≠ other := fun he => h (hn.symm.trans he)
      simp [insert, find?, hn, h]
    · simp only [insert, hn, if_false, find?]
      split <;> simp_all

theorem mem_of_find? {name : String} {value : α} {entries : List (String × α)}
    (h : find? name entries = some value) : (name, value) ∈ entries := by
  induction entries with
  | nil => cases h
  | cons entry rest ih =>
    rw [find?] at h
    split at h
    next he =>
      obtain rfl := Option.some.inj h
      exact he ▸ List.mem_cons_self
    next => exact List.mem_cons_of_mem _ (ih h)

theorem find?_of_mem {name : String} {value : α} {entries : List (String × α)}
    (hn : (names entries).Nodup) (h : (name, value) ∈ entries) : find? name entries = some value := by
  induction entries with
  | nil => cases h
  | cons entry rest ih =>
    have hrest := List.nodup_cons.1 hn
    rw [find?]
    rcases List.mem_cons.1 h with rfl | h
    · exact if_pos rfl
    · have hne : entry.1 ≠ name := fun he =>
        hrest.1 (he ▸ List.mem_map_of_mem h)
      rw [if_neg hne]
      exact ih hrest.2 h

theorem find?_eq_none {name : String} {entries : List (String × α)} (h : name ∉ names entries) :
    find? name entries = none := by
  cases hfind : find? name entries with
  | none => rfl
  | some value => exact absurd (List.mem_map_of_mem (mem_of_find? hfind)) h

theorem not_mem_of_find? {name : String} {entries : List (String × α)}
    (h : find? name entries = none) : name ∉ names entries := by
  intro hmem
  induction entries with
  | nil => cases hmem
  | cons entry rest ih =>
    rw [find?] at h
    split at h
    · cases h
    · rename_i hne
      rcases List.mem_cons.1 hmem with heq | hmem
      · exact hne heq.symm
      · exact ih h hmem

theorem find?_append (name : String) (before after : List (String × α)) :
    find? name (before ++ after) = (find? name before).or (find? name after) := by
  induction before with
  | nil => rfl
  | cons entry rest ih =>
    rw [List.cons_append, find?, find?, ih]
    split <;> rfl

theorem find?_map {β : Type} (f : α → β) (name : String) (entries : List (String × α)) :
    find? name (entries.map fun entry => (entry.1, f entry.2)) = (find? name entries).map f := by
  induction entries with
  | nil => rfl
  | cons entry rest ih =>
    rw [List.map_cons, find?, find?, ih]
    split <;> rfl

theorem find?_filter {name : String} {p : String → Bool} (h : p name = true)
    (entries : List (String × α)) :
    find? name (entries.filter fun entry => p entry.1) = find? name entries := by
  induction entries with
  | nil => rfl
  | cons entry rest ih =>
    rw [List.filter_cons]
    split
    · rw [find?, find?, ih]
    · rename_i hp
      have hne : entry.1 ≠ name := fun heq => hp (heq ▸ h)
      rw [ih, find?, if_neg hne]

/-- Names that come once and their values determine the entries. -/
theorem eq_of_find? {entries others : List (String × α)} (hn : (names entries).Nodup)
    (hnames : names others = names entries)
    (h : ∀ name ∈ names entries, find? name others = find? name entries) : others = entries := by
  induction entries generalizing others with
  | nil => exact List.map_eq_nil_iff.1 hnames
  | cons entry rest ih =>
    obtain ⟨other, others, rfl, hkey, hrest⟩ := List.map_eq_cons_iff.1 hnames
    obtain ⟨hentry, hn⟩ := List.nodup_cons.1 hn
    have hvalue := h entry.1 List.mem_cons_self
    rw [find?, find?, if_pos hkey, if_pos rfl] at hvalue
    rw [Prod.ext hkey (Option.some.inj hvalue), ih hn hrest]
    intro name hmem
    have hne : entry.1 ≠ name := fun heq => hentry (heq ▸ hmem)
    have hfind := h name (List.mem_cons_of_mem _ hmem)
    rw [find?, find?, if_neg (hkey ▸ hne), if_neg hne] at hfind
    exact hfind

theorem mem_names_insert {name key : String} {value : α} {entries : List (String × α)} :
    key ∈ names (insert name value entries) ↔ key = name ∨ key ∈ names entries := by
  induction entries with
  | nil => simp [insert, names]
  | cons entry rest ih =>
    rw [insert]
    split
    · rename_i hname
      simp [names, ← hname]
    · simp only [names, List.map_cons, List.mem_cons] at ih ⊢
      rw [ih, or_left_comm]

theorem nodup_insert {name : String} {value : α} {entries : List (String × α)}
    (h : (names entries).Nodup) : (names (insert name value entries)).Nodup := by
  induction entries with
  | nil => simp [insert, names]
  | cons entry rest ih =>
    obtain ⟨hentry, hrest⟩ := List.nodup_cons.1 h
    rw [insert]
    split
    · exact h
    · rename_i hne
      refine List.nodup_cons.2 ⟨fun hmem => ?_, ih hrest⟩
      exact (mem_names_insert.1 hmem).elim hne hentry

theorem nodup_insertAll {entries : List (String × α)} (added : List (String × α))
    (h : (names entries).Nodup) : (names (insertAll entries added)).Nodup := by
  induction added generalizing entries with
  | nil => exact h
  | cons entry rest ih => exact ih (nodup_insert h)

theorem find?_insertAll {added : List (String × α)} (h : (names added).Nodup) (name : String)
    (entries : List (String × α)) :
    find? name (insertAll entries added) = (find? name added).or (find? name entries) := by
  induction added generalizing entries with
  | nil => rfl
  | cons entry rest ih =>
    obtain ⟨hentry, hrest⟩ := List.nodup_cons.1 h
    have hstep : find? name (insertAll entries (entry :: rest)) =
        (find? name rest).or (find? name (insert entry.1 entry.2 entries)) := ih hrest _
    rw [hstep, find?]
    split
    · rename_i hname
      rw [← hname, find?_eq_none hentry, find?_insert_self]
      rfl
    · rename_i hne
      rw [find?_insert_of_ne hne]

theorem find?_of_perm {entries others : List (String × α)} (h : others.Perm entries)
    (hn : (names entries).Nodup) (name : String) : find? name others = find? name entries := by
  have hn' : (names others).Nodup := (h.map Prod.fst).nodup_iff.2 hn
  cases hfind : find? name others with
  | some value => exact (find?_of_mem hn (h.mem_iff.1 (mem_of_find? hfind))).symm
  | none =>
    cases hother : find? name entries with
    | none => rfl
    | some value =>
      rw [find?_of_mem hn' (h.mem_iff.2 (mem_of_find? hother))] at hfind
      cases hfind

theorem insert_of_not_mem {name : String} {entries : List (String × α)} (h : name ∉ names entries)
    (value : α) : insert name value entries = entries ++ [(name, value)] := by
  induction entries with
  | nil => rfl
  | cons entry rest ih =>
    have hne : entry.1 ≠ name := fun heq => h (heq ▸ List.mem_cons_self)
    rw [insert, if_neg hne, ih fun hmem => h (List.mem_cons_of_mem _ hmem), List.cons_append]

theorem insertAll_eq_append {entries added : List (String × α)}
    (h : (names (entries ++ added)).Nodup) : insertAll entries added = entries ++ added := by
  induction added generalizing entries with
  | nil => exact (List.append_nil entries).symm
  | cons entry rest ih =>
    have hsplit : entries ++ entry :: rest = entries ++ [entry] ++ rest := by simp
    have hnew : entry.1 ∉ names entries := by
      rw [names, List.map_append, List.map_cons, List.nodup_append] at h
      exact fun hmem => h.2.2 _ hmem _ List.mem_cons_self rfl
    have hstep : insertAll entries (entry :: rest) =
        insertAll (insert entry.1 entry.2 entries) rest := rfl
    rw [hsplit] at h ⊢
    rw [hstep, insert_of_not_mem hnew, ih h]

theorem ofList_eq_self {entries : List (String × α)} (h : (names entries).Nodup) :
    ofList entries = entries :=
  insertAll_eq_append h

theorem nodup_ofList (entries : List (String × α)) : (names (ofList entries)).Nodup :=
  nodup_insertAll entries List.nodup_nil

theorem perm_sortByName (entries : List (String × α)) : (sortByName entries).Perm entries :=
  List.mergeSort_perm entries _

end GraphQLClient.Keyed
