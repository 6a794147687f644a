import GraphQLClient.Proofs.Json.ReadBack
import GraphQLClient.Transport.Params

set_option autoImplicit false

/-!
# What the body of a request says

The body is an object of the standard properties and then the further ones, as they are. It says what
the request has, each property once, exactly if no further property has a standard name; and then it is
read back as the request if the reader takes every value back.
-/

namespace GraphQLClient

theorem Keyed.length_filter_le_one {α : Type} {entries : List (String × α)}
    (hn : (Keyed.names entries).Nodup) (name : String) :
    (entries.filter (·.1 == name)).length ≤ 1 := by
  have hcount := List.nodup_iff_count_le_one.1 hn name
  rwa [Keyed.names, List.count_eq_length_filter, List.filter_map, List.length_map] at hcount

/-- The tree of an object has the entries of the object. -/
theorem Json.obj?_tree (entries : List (String × Json)) :
    (Json.obj entries).tree.obj? = some (entries.map fun entry => (entry.1, entry.2.tree)) := by
  induction entries with
  | nil => rfl
  | cons entry rest ih =>
    simp only [tree, Written.obj?] at ih
    simp [tree, treeEntries, Written.obj?, ih]

namespace RequestParams

variable {params : RequestParams}

/-- No further property comes twice or has a standard name. -/
def Separate (params : RequestParams) : Prop :=
  (standardNames ++ Keyed.names params.extra).Nodup

instance (params : RequestParams) : Decidable params.Separate :=
  inferInstanceAs (Decidable (List.Nodup _))

/-- The properties of a body are those of the request: no key comes twice, query, variables and name
of the operation are as the request has them, and there is none where it has none. -/
structure SaidBy (params : RequestParams) (entries : List (String × Written)) : Prop where
  once : (Keyed.names entries).Nodup
  query : Keyed.find? "query" entries = some (.str (some params.query))
  values : Keyed.find? "variables" entries =
    params.values.bind fun values => Written.ofText? (Json.obj values).text
  operationName : Keyed.find? "operationName" entries =
    params.operationName.map fun name => .str (some name)

/-! ## Standard and further properties -/

def standard (params : RequestParams) : List (String × Json) :=
  [("query", .str params.query)] ++
    (match params.values with
      | some values => [("variables", .obj values)]
      | none => []) ++
    (match params.operationName with
      | some name => [("operationName", .str name)]
      | none => [])

theorem entries_eq_append (params : RequestParams) :
    params.entries = params.standard ++ params.extra := rfl

theorem names_standard_sublist (params : RequestParams) :
    (Keyed.names params.standard).Sublist standardNames := by
  obtain ⟨query, values, operationName, extra⟩ := params
  cases values <;> cases operationName <;> simp [standard, standardNames, Keyed.names]

theorem find?_standard (params : RequestParams) :
    Keyed.find? "query" params.standard = some (.str params.query) ∧
      Keyed.find? "variables" params.standard = params.values.map .obj ∧
      Keyed.find? "operationName" params.standard = params.operationName.map .str := by
  obtain ⟨query, values, operationName, extra⟩ := params
  cases values <;> cases operationName <;> exact ⟨rfl, rfl, rfl⟩

/-- Further properties leave the standard ones alone exactly if they keep to names of their own. -/
theorem separate_iff : params.Separate ↔ (Keyed.names params.entries).Nodup ∧
    ∀ name ∈ standardNames,
      Keyed.find? name params.entries = Keyed.find? name params.standard := by
  have hnames : Keyed.names params.entries =
      Keyed.names params.standard ++ Keyed.names params.extra := List.map_append
  have hsublist := params.names_standard_sublist
  rw [hnames, Separate]
  constructor
  · intro h
    refine ⟨h.sublist (hsublist.append_right _), fun name hname => ?_⟩
    have hextra : name ∉ Keyed.names params.extra := fun hmem =>
      (List.nodup_append.1 h).2.2 name hname name hmem rfl
    rw [entries_eq_append, Keyed.find?_append, Keyed.find?_eq_none hextra, Option.or_none]
  · rintro ⟨hnodup, hfind⟩
    obtain ⟨-, hextra, hdisjoint⟩ := List.nodup_append.1 hnodup
    refine List.nodup_append.2 ⟨by decide, hextra, ?_⟩
    rintro name hname _ hmem rfl
    have hsame := hfind name hname
    rw [entries_eq_append, Keyed.find?_append] at hsame
    cases hstandard : Keyed.find? name params.standard with
    | some value =>
      exact hdisjoint name (List.mem_map_of_mem (Keyed.mem_of_find? hstandard)) name hmem rfl
    | none =>
      rw [hstandard, Option.none_or] at hsame
      exact Keyed.not_mem_of_find? hsame hmem

/-! ## The body -/

/-- The properties as they stand in the body. -/
def written (params : RequestParams) : List (String × Written) :=
  params.entries.map fun entry => (entry.1, entry.2.tree)

theorem obj?_body (params : RequestParams) :
    (Written.ofText? params.text).bind Written.obj? = some params.written := by
  rw [text, Json.ofText?_text, Option.bind_some, Json.obj?_tree, written]

theorem names_written (params : RequestParams) :
    Keyed.names params.written = Keyed.names params.entries := by
  simp [Keyed.names, written]

theorem find?_written (params : RequestParams) (name : String) :
    Keyed.find? name params.written = (Keyed.find? name params.entries).map Json.tree :=
  Keyed.find?_map Json.tree name params.entries

theorem saidBy_iff : params.SaidBy params.written ↔ params.Separate := by
  obtain ⟨hquery, hvalues, hname⟩ := params.find?_standard
  rw [separate_iff]
  constructor
  · rintro ⟨honce, -, hsaidValues, hsaidName⟩
    rw [names_written] at honce
    refine ⟨honce, fun name hmem => ?_⟩
    rw [entries_eq_append, Keyed.find?_append]
    cases hstandard : Keyed.find? name params.standard with
    | some value => rfl
    | none =>
      -- a further property would stand in for what the request does not have
      have habsent : Keyed.find? name params.written = none := by
        simp only [standardNames, List.mem_cons, List.not_mem_nil, or_false] at hmem
        rcases hmem with rfl | rfl | rfl
        · rw [hquery] at hstandard
          cases hstandard
        · rw [hvalues, Option.map_eq_none_iff] at hstandard
          rw [hsaidValues, hstandard, Option.bind_none]
        · rw [hname, Option.map_eq_none_iff] at hstandard
          rw [hsaidName, hstandard, Option.map_none]
      rwa [find?_written, Option.map_eq_none_iff, entries_eq_append, Keyed.find?_append, hstandard]
        at habsent
  · rintro ⟨honce, hfind⟩
    refine ⟨params.names_written ▸ honce, ?_, ?_, ?_⟩
    · rw [find?_written, hfind _ (by decide), hquery]
      rfl
    · rw [find?_written, hfind _ (by decide), hvalues]
      cases params.values with
      | none => rfl
      | some values => exact (Json.ofText?_text _).symm
    · rw [find?_written, hfind _ (by decide), hname]
      cases params.operationName <;> rfl

/-! ## Reading the body -/

theorem valuesOf?_eq_some {found : Option Json} {values : List (String × Json)}
    (h : valuesOf? found = some (some values)) : found = some (.obj values) := by
  unfold valuesOf? at h
  split at h <;> simp_all

theorem nameOf?_eq_some {found : Option Json} {name : String}
    (h : nameOf? found = some (some name)) : found = some (.str name) := by
  unfold nameOf? at h
  split at h <;> simp_all

theorem ofJson?_eq_some {entries : List (String × Json)} (h : ofJson? (.obj entries) = some params) :
    Keyed.find? "query" entries = some (.str params.query) ∧
      valuesOf? (Keyed.find? "variables" entries) = some params.values ∧
      nameOf? (Keyed.find? "operationName" entries) = some params.operationName ∧
      params.extra = entries.filter fun entry => !standardNames.contains entry.1 := by
  rw [ofJson?] at h
  split at h
  · rename_i query values name hquery hvalues hname
    obtain rfl := Option.some.inj h
    exact ⟨hquery, hvalues, hname, rfl⟩
  · cases h

/-- What is read has all standard properties of the request, and further ones of its own. -/
theorem separate_of_ofJson? {entries : List (String × Json)} (hn : (Keyed.names entries).Nodup)
    (h : ofJson? (.obj entries) = some params) : params.Separate := by
  obtain ⟨-, -, -, hextra⟩ := ofJson?_eq_some h
  refine List.nodup_append.2 ⟨by decide, ?_, ?_⟩
  · rw [hextra]
    exact hn.sublist (List.filter_sublist.map _)
  · rintro name hname _ hmem rfl
    obtain ⟨entry, hentry, rfl⟩ := List.mem_map.1 hmem
    rw [hextra, List.mem_filter] at hentry
    simp [hname] at hentry

theorem find?_standard_of_ofJson? {entries : List (String × Json)}
    (h : ofJson? (.obj entries) = some params) {name : String}
    (hname : name ∈ Keyed.names params.standard) :
    Keyed.find? name entries = Keyed.find? name params.standard := by
  obtain ⟨hquery, hvalues, hoperation, -⟩ := ofJson?_eq_some h
  obtain ⟨hquery', hvalues', hoperation'⟩ := params.find?_standard
  have hmem := params.names_standard_sublist.subset hname
  simp only [standardNames, List.mem_cons, List.not_mem_nil, or_false] at hmem
  rcases hmem with rfl | rfl | rfl
  · rw [hquery, hquery']
  · cases hsome : params.values with
    | none => exact absurd hname (Keyed.not_mem_of_find? (by rw [hvalues', hsome, Option.map_none]))
    | some values =>
      rw [hsome] at hvalues
      rw [hvalues', hsome, valuesOf?_eq_some hvalues, Option.map_some]
  · cases hsome : params.operationName with
    | none =>
      exact absurd hname (Keyed.not_mem_of_find? (by rw [hoperation', hsome, Option.map_none]))
    | some operationName =>
      rw [hsome] at hoperation
      rw [hoperation', hsome, nameOf?_eq_some hoperation, Option.map_some]

theorem find?_of_ofJson? (hs : params.Separate) {entries : List (String × Json)}
    (h : ofJson? (.obj entries) = some params) {name : String}
    (hname : name ∈ Keyed.names params.entries) :
    Keyed.find? name entries = Keyed.find? name params.entries := by
  obtain ⟨-, -, -, hextra⟩ := ofJson?_eq_some h
  have hsame := (separate_iff.1 hs).2
  rw [entries_eq_append, Keyed.names, List.map_append, List.mem_append] at hname
  rcases hname with hname | hname
  · rw [find?_standard_of_ofJson? h hname,
      hsame name (params.names_standard_sublist.subset hname)]
  · have hother : name ∉ standardNames := fun hmem =>
      (List.nodup_append.1 hs).2.2 name hmem name hname rfl
    have hstandard : name ∉ Keyed.names params.standard := fun hmem =>
      hother (params.names_standard_sublist.subset hmem)
    have hfilter : (!standardNames.contains name) = true := by simpa using hother
    rw [entries_eq_append, Keyed.find?_append, Keyed.find?_eq_none hstandard, Option.none_or, hextra,
      @Keyed.find?_filter _ name (fun key => !standardNames.contains key) hfilter]

theorem filter_entries (hs : params.Separate) :
    (params.entries.filter fun entry => !standardNames.contains entry.1) = params.extra := by
  have hstandard : (params.standard.filter fun entry => !standardNames.contains entry.1) = [] := by
    refine List.filter_eq_nil_iff.2 fun entry hmem => ?_
    have hname := params.names_standard_sublist.subset (List.mem_map_of_mem hmem)
    simpa using hname
  have hextra : (params.extra.filter fun entry => !standardNames.contains entry.1) =
      params.extra := by
    refine List.filter_eq_self.2 fun entry hmem => ?_
    have hname : entry.1 ∉ standardNames := fun hname =>
      (List.nodup_append.1 hs).2.2 _ hname _ (List.mem_map_of_mem hmem) rfl
    simpa using hname
  rw [entries_eq_append, List.filter_append, hstandard, hextra, List.nil_append]

theorem ofJson?_entries (hs : params.Separate) : ofJson? (.obj params.entries) = some params := by
  obtain ⟨hquery, hvalues, hname⟩ := params.find?_standard
  have hsame := (separate_iff.1 hs).2
  have hreadValues : valuesOf? (params.values.map .obj) = some params.values := by
    cases params.values <;> rfl
  have hreadName : nameOf? (params.operationName.map .str) = some params.operationName := by
    cases params.operationName <;> rfl
  rw [ofJson?, hsame _ (by decide), hsame _ (by decide), hsame _ (by decide), hquery, hvalues, hname,
    hreadValues, hreadName, filter_entries hs]

/-- The reader of a body looks at its keys, reads the values one level down and takes the parameters
from them. -/
theorem ofText?_text (params : RequestParams) : ofText? params.text =
    if standardNames.all fun name => (params.written.filter (·.1 == name)).length ≤ 1 then
      ((Written.entries? (Written.depthLimit - 1) (Json.treeEntries params.entries)).map
        Keyed.ofList).bind fun found => ofJson? (.obj found)
    else none := by
  have hvalue : Written.value? Written.depthLimit (Json.obj params.entries).tree =
      (Written.entries? (Written.depthLimit - 1) (Json.treeEntries params.entries)).map
        fun found => .obj (Keyed.ofList found) := by
    rw [Json.tree, Written.depthLimit, Written.value?]
  rw [ofText?, text, Json.ofText?_text, Option.bind_some, ofWritten?, Json.obj?_tree]
  simp only [hvalue, written]
  cases Written.entries? (Written.depthLimit - 1) (Json.treeEntries params.entries) <;> rfl

/-- A request comes back from its body exactly if its further properties keep to names of their own
and every value comes back. -/
theorem ofText?_text_iff : ofText? params.text = some params ↔
    params.Separate ∧ ∀ entry ∈ params.entries, entry.2.Carried (Written.depthLimit - 1) := by
  rw [ofText?_text, ← Json.carriedEntries_iff, ← Json.entries?_tree_iff]
  constructor
  · intro h
    split at h
    · obtain ⟨listed, hlisted, hread⟩ := Option.bind_eq_some_iff.1 h
      obtain ⟨found, hfound, rfl⟩ := Option.map_eq_some_iff.1 hlisted
      have hs := separate_of_ofJson? (Keyed.nodup_ofList found) hread
      have honce := (separate_iff.1 hs).1
      have hnames := Json.names_of_entries? hfound
      rw [Keyed.ofList_eq_self (hnames ▸ honce)] at hread
      have heq : found = params.entries :=
        Keyed.eq_of_find? honce hnames fun name hname => find?_of_ofJson? hs hread hname
      exact ⟨hs, heq ▸ hfound⟩
    · cases h
  · rintro ⟨hs, hcarried⟩
    have honce := (separate_iff.1 hs).1
    have hcheck : (standardNames.all fun name =>
        (params.written.filter (·.1 == name)).length ≤ 1) = true :=
      List.all_eq_true.2 fun name _ =>
        decide_eq_true (Keyed.length_filter_le_one (params.names_written ▸ honce) name)
    rw [if_pos hcheck, hcarried, Option.map_some, Option.bind_some, Keyed.ofList_eq_self honce,
      ofJson?_entries hs]

/-- A body with a further property of the name of one that the request has is refused. -/
theorem ofText?_text_eq_none {name : String} (h : name ∈ Keyed.names params.standard)
    (hextra : name ∈ Keyed.names params.extra) : ofText? params.text = none := by
  obtain ⟨entry, hentry, rfl⟩ := List.mem_map.1 h
  obtain ⟨further, hfurther, hname⟩ := List.mem_map.1 hextra
  have htwice : 2 ≤ (params.written.filter (·.1 == entry.1)).length := by
    have hfirst : 0 < (params.standard.filter (·.1 == entry.1)).length :=
      List.length_pos_of_mem (List.mem_filter.2 ⟨hentry, beq_self_eq_true _⟩)
    have hsecond : 0 < (params.extra.filter (·.1 == entry.1)).length :=
      List.length_pos_of_mem (List.mem_filter.2 ⟨hfurther, beq_iff_eq.2 hname⟩)
    rw [written, List.filter_map, List.length_map, entries_eq_append, List.filter_append,
      List.length_append]
    exact Nat.add_le_add hfirst hsecond
  rw [ofText?_text, if_neg]
  intro hall
  have hle := List.all_eq_true.1 hall entry.1 (params.names_standard_sublist.subset h)
  exact absurd (of_decide_eq_true hle) (by omega)

/-- The body of every request is read as an object. It says what the request has, each property once,
exactly if no further property comes twice or has a standard name; and the request comes back from it
exactly if, besides, every value does. -/
theorem body_iff (params : RequestParams) :
    (∃ entries, (Written.ofText? params.text).bind Written.obj? = some entries ∧
      (params.SaidBy entries ↔ params.Separate)) ∧
    (ofText? params.text = some params ↔
      params.Separate ∧ ∀ entry ∈ params.entries, entry.2.Carried (Written.depthLimit - 1)) :=
  ⟨⟨params.written, params.obj?_body, saidBy_iff⟩, ofText?_text_iff⟩

end RequestParams

/-- Arrays in each other. -/
def Json.nested : ℕ → Json
  | 0 => .null
  | depth + 1 => .arr [nested depth]

theorem Json.carried_nested_iff (n depth : ℕ) : (Json.nested n).Carried depth ↔ n ≤ depth := by
  induction n generalizing depth with
  | zero => exact iff_of_true trivial (Nat.zero_le depth)
  | succ n ih =>
    rw [nested, Carried, CarriedItems, CarriedItems, ih, and_true]
    omega

/-- A request with one further property. -/
def RequestParams.withFurther (name : String) (value : Json) : RequestParams :=
  ⟨"a", none, none, [(name, value)]⟩

/-- A further property named `query` stands in the body beside the query, one named `variables` in the
place of none. Neither request comes back, and one with too deep a value does not either. -/
theorem query_written_twice :
    (Written.ofText? (RequestParams.withFurther "query" (.str "b")).text).bind Written.obj? =
        some [("query", .str (some "a")), ("query", .str (some "b"))] ∧
      RequestParams.ofText? (RequestParams.withFurther "query" (.str "b")).text = none ∧
      RequestParams.ofText? (RequestParams.withFurther "variables" (.obj [])).text ≠
        some (RequestParams.withFurther "variables" (.obj [])) ∧
      RequestParams.ofText? (RequestParams.withFurther "deep" (.nested 127)).text ≠
        some (RequestParams.withFurther "deep" (.nested 127)) := by
  refine ⟨RequestParams.obj?_body _, ?_, ?_, ?_⟩
  · exact @RequestParams.ofText?_text_eq_none _ "query" List.mem_cons_self List.mem_cons_self
  · exact fun h => absurd (RequestParams.ofText?_text_iff.1 h).1 (by decide)
  · intro h
    have hcarried := (RequestParams.ofText?_text_iff.1 h).2 _
      (List.mem_cons_of_mem _ List.mem_cons_self)
    exact absurd ((Json.carried_nested_iff 127 126).1 hcarried) (by decide)

end GraphQLClient
