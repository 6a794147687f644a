import GraphQLClient.Json.Printer
import GraphQLClient.Proofs.Json.Numerals
import GraphQLClient.Proofs.Json.Quoting

set_option autoImplicit false

/-!
# Texts are read back as trees

The text of every value can be read, and its tree has the shape of the value: `Json.tree`. What the
text cannot carry is lost in the leaves: a float that is not finite is written `null`, and a number has
the value that the reader makes of its digits.
-/

namespace GraphQLClient

namespace Json

mutual
/-- What the reader makes of the text of a value. -/
def tree : Json → Written
  | .null => .null
  | .bool b => .bool b
  | .int n => .number (NumberText.ofInt n).value?
  | .float x => if x.isFinite then .number (Decimal.readBack x) else .null
  | .str s => .str (some s)
  | .arr items => .arr (treeItems items)
  | .obj entries => .obj (treeEntries entries)

def treeItems : List Json → List Written
  | [] => []
  | item :: rest => tree item :: treeItems rest

def treeEntries : List (String × Json) → List (Option String × Written)
  | [] => []
  | (key, value) :: rest => (some key, tree value) :: treeEntries rest
end

end Json

namespace Reader

open Json

theorem skipBlank_cons {c : Char} (h : c ∉ [' ', '\t', '\n', '\r']) (rest : List Char) :
    skipBlank (c :: rest) = c :: rest := by
  simp only [List.mem_cons, List.not_mem_nil, or_false, not_or] at h
  simp [skipBlank, h]

/-! ## Texts in quotes -/

theorem hexValue?_hexDigit {n : ℕ} (h : n < 16) : Text.hexValue? (hexDigit n) = some n := by
  have hall : ∀ n < 16, Text.hexValue? (hexDigit n) = some n := by decide
  exact hall n h

theorem unit?_control {n : ℕ} (h : n < 256) (rest : List Char) :
    unit? ('0' :: '0' :: hexDigit (n / 16) :: hexDigit (n % 16) :: rest) = some (n, rest) := by
  have hzero : Text.hexValue? '0' = some 0 := rfl
  have hvalue : ((0 * 16 + 0) * 16 + n / 16) * 16 + n % 16 = n := by omega
  rw [unit?, hzero, hexValue?_hexDigit (by omega), hexValue?_hexDigit (by omega)]
  simp only [hvalue]

/-- One character is read from what was written for it. -/
theorem text?_escapeChar (c : Char) (fuel : ℕ) (done rest : List Char) :
    text? (fuel + 1) done true (escapeChar c ++ rest) = text? fuel (c :: done) true rest := by
  unfold escapeChar
  split_ifs with hquote hback hb hf hn hr ht hcontrol
  all_goals first | (subst c; rfl) | skip
  · change text? (fuel + 1) done true
      ('\\' :: 'u' :: '0' :: '0' :: hexDigit (c.toNat / 16) :: hexDigit (c.toNat % 16) :: rest) = _
    have hhigh : isHighSurrogate c.toNat = false := by
      simp only [isHighSurrogate, Bool.and_eq_false_iff, decide_eq_false_iff_not]
      omega
    have hlow : isLowSurrogate c.toNat = false := by
      simp only [isLowSurrogate, Bool.and_eq_false_iff, decide_eq_false_iff_not]
      omega
    rw [text?, unit?_control (by omega)]
    simp only [hhigh, hlow, Bool.false_eq_true, if_false, Char.ofNat_toNat]
  · change text? (fuel + 1) done true (c :: rest) = _
    simp [text?, hback, hcontrol]

theorem text?_flatMap (text : List Char) {fuel : ℕ} (hf : text.length < fuel)
    (done rest : List Char) :
    text? fuel done true (text.flatMap escapeChar ++ '"' :: rest) =
      some (some (String.ofList (done.reverse ++ text)), rest) := by
  induction text generalizing fuel done with
  | nil =>
    obtain ⟨fuel, rfl⟩ := Nat.exists_eq_succ_of_ne_zero (Nat.ne_zero_of_lt hf)
    simp [text?]
  | cons c text ih =>
    obtain ⟨fuel, rfl⟩ := Nat.exists_eq_succ_of_ne_zero (Nat.ne_zero_of_lt hf)
    rw [List.flatMap_cons, List.append_assoc, text?_escapeChar, ih (Nat.lt_of_succ_lt_succ hf),
      List.reverse_cons, List.append_assoc, List.singleton_append]

theorem length_le_flatMap (text : List Char) : text.length ≤ (text.flatMap escapeChar).length := by
  induction text with
  | nil => exact Nat.le_refl 0
  | cons c text ih =>
    have hc : 0 < (escapeChar c).length := by
      unfold escapeChar
      split_ifs <;> exact Nat.succ_pos _
    rw [List.flatMap_cons, List.length_append, List.length_cons]
    omega

theorem quoted_toList_append (s : String) (rest : List Char) :
    (quoted s).toList ++ rest = '"' :: (s.toList.flatMap escapeChar ++ '"' :: rest) := by
  simp [quoted]

/-- A text is read from behind its opening quote. -/
theorem text?_quoted (s : String) (rest : List Char) :
    text? ((s.toList.flatMap escapeChar ++ '"' :: rest).length + 1) [] true
      (s.toList.flatMap escapeChar ++ '"' :: rest) = some (some s, rest) := by
  have hlength := length_le_flatMap s.toList
  have hfuel : s.toList.length < (s.toList.flatMap escapeChar ++ '"' :: rest).length + 1 := by
    rw [List.length_append, List.length_cons]
    omega
  rw [text?_flatMap s.toList hfuel, List.reverse_nil, List.nil_append, String.ofList_toList]

/-! ## Values -/

/-- How the text of a value starts: not with a blank and not with the end of another value. -/
def Opens (text : List Char) : Prop :=
  ∃ c rest, text = c :: rest ∧ c ∉ [' ', '\t', '\n', '\r'] ∧ c ∉ [']', '}']

theorem Opens.append {text : List Char} (h : Opens text) (rest : List Char) : Opens (text ++ rest) := by
  obtain ⟨c, tail, rfl, hc⟩ := h
  exact ⟨c, tail ++ rest, rfl, hc⟩

theorem Opens.skipBlank {text : List Char} (h : Opens text) : skipBlank text = text := by
  obtain ⟨c, rest, rfl, hc, -⟩ := h
  exact skipBlank_cons hc rest

theorem opens_quoted (text : String) (rest : List Char) : Opens ((quoted text).toList ++ rest) :=
  ⟨'"', _, quoted_toList_append text rest, by decide, by decide⟩

/-- A number starts with a digit or a minus. -/
theorem start_chars {n : NumberText} (hn : n.Proper) :
    ∃ c rest, n.chars = c :: rest ∧ (c.isDigit = true ∨ c = '-') := by
  unfold NumberText.chars
  cases n.negative with
  | true => exact ⟨'-', _, rfl, .inr rfl⟩
  | false =>
    obtain ⟨c, rest, hc⟩ := hn.lead.exists_eq_cons
    refine ⟨c, _, congrArg (· ++ _) hc, .inl (hn.whole c ?_)⟩
    rw [hc]
    exact List.mem_cons_self

theorem ne_of_start {c d : Char} (h : c.isDigit = true ∨ c = '-') (hd : d.isDigit = false)
    (hminus : d ≠ '-') : c ≠ d := by
  rintro rfl
  rcases h with h | h
  · rw [hd] at h
    cases h
  · exact hminus h

theorem opens_of_start {c : Char} (h : c.isDigit = true ∨ c = '-') (rest : List Char) :
    Opens (c :: rest) := by
  have hmarks : ∀ d ∈ [' ', '\t', '\n', '\r', ']', '}'], d.isDigit = false ∧ d ≠ '-' := by
    simp
  have hne : ∀ d ∈ [' ', '\t', '\n', '\r', ']', '}'], c ≠ d := fun d hd =>
    ne_of_start h (hmarks d hd).1 (hmarks d hd).2
  refine ⟨c, rest, rfl, fun hmem => hne c ?_ rfl, fun hmem => hne c ?_ rfl⟩
  · exact List.mem_append_left [']', '}'] hmem
  · exact List.mem_append_right [' ', '\t', '\n', '\r'] hmem

/-- No word and no opening mark is a number. -/
theorem value?_of_start {c : Char} (h : c.isDigit = true ∨ c = '-') (fuel : ℕ) (rest : List Char) :
    value? (fuel + 1) (c :: rest) =
      (number? (c :: rest)).map fun (found, rest) => (.number found.value?, rest) := by
  have hskip := (opens_of_start h rest).skipBlank
  have hne : ∀ {d : Char}, d.isDigit = false → d ≠ '-' → ∀ {tail}, c :: rest ≠ d :: tail :=
    fun hd hminus _ heq => ne_of_start h hd hminus (List.cons.inj heq).1
  unfold value?
  rw [hskip]
  split
  all_goals first | (rename_i heq; exact absurd heq (hne rfl (by decide))) | rfl

theorem value?_items {text : List Char} (h : Opens text) (fuel : ℕ) :
    value? (fuel + 1) ('[' :: text) =
      (items? fuel text).map fun (found, rest) => (.arr found, rest) := by
  have hskip : skipBlank ('[' :: text) = '[' :: text := rfl
  obtain ⟨c, rest, rfl, hblank, hend⟩ := h
  unfold value?
  simp only [hskip, skipBlank_cons hblank]
  split
  · rename_i heq
    exact absurd (List.cons.inj heq).1 (fun hc => hend (by simp [hc]))
  · rfl

theorem value?_entries {text : List Char} (h : Opens text) (fuel : ℕ) :
    value? (fuel + 1) ('{' :: text) =
      (entries? fuel text).map fun (found, rest) => (.obj found, rest) := by
  have hskip : skipBlank ('{' :: text) = '{' :: text := rfl
  obtain ⟨c, rest, rfl, hblank, hend⟩ := h
  unfold value?
  simp only [hskip, skipBlank_cons hblank]
  split
  · rename_i heq
    exact absurd (List.cons.inj heq).1 (fun hc => hend (by simp [hc]))
  · rfl

theorem value?_quoted (s : String) (fuel : ℕ) (rest : List Char) :
    value? (fuel + 1) ((quoted s).toList ++ rest) = some (.str (some s), rest) := by
  have hskip := (opens_quoted s rest).skipBlank
  rw [quoted_toList_append] at hskip ⊢
  unfold value?
  simp only [hskip]
  rw [text?_quoted]
  rfl

/-- Behind a key and its colon the value is read, and then the other entries. -/
theorem entries?_quoted (key : String) (fuel : ℕ) (rest : List Char) :
    entries? (fuel + 1) ((quoted key).toList ++ ':' :: rest) =
      match value? fuel rest with
      | none => none
      | some (item, rest) =>
        match skipBlank rest with
        | ',' :: rest =>
          (entries? fuel rest).map fun (found, rest) => ((some key, item) :: found, rest)
        | '}' :: rest => some ([(some key, item)], rest)
        | _ => none := by
  have hskip := (opens_quoted key (':' :: rest)).skipBlank
  rw [quoted_toList_append] at hskip ⊢
  rw [entries?, hskip]
  simp only
  rw [text?_quoted]
  rfl

theorem value?_chars {n : NumberText} (hn : n.Proper) (fuel : ℕ) {rest : List Char}
    (hr : Closes rest) :
    value? (fuel + 1) (n.chars ++ rest) = some (.number n.value?, rest) := by
  have hnumber := number?_chars hn hr
  obtain ⟨c, tail, hc, hstart⟩ := start_chars hn
  rw [hc, List.cons_append] at hnumber ⊢
  rw [value?_of_start hstart, hnumber]
  rfl

end Reader

namespace Json

open Reader

theorem text_arr_toList (items : List Json) :
    (text (.arr items)).toList = '[' :: ((itemsText items).toList ++ [']']) := by
  simp [text]

theorem text_obj_toList (entries : List (String × Json)) :
    (text (.obj entries)).toList = '{' :: ((entriesText entries).toList ++ ['}']) := by
  simp [text]

theorem itemsText_cons_toList (first second : Json) (rest : List Json) :
    (itemsText (first :: second :: rest)).toList =
      (text first).toList ++ ',' :: (itemsText (second :: rest)).toList := by
  simp [itemsText]

theorem entriesText_singleton_toList (key : String) (value : Json) :
    (entriesText [(key, value)]).toList = (quoted key).toList ++ ':' :: (text value).toList := by
  simp [entriesText]

theorem entriesText_cons_toList (key : String) (value : Json) (second : String × Json)
    (rest : List (String × Json)) :
    (entriesText ((key, value) :: second :: rest)).toList =
      (quoted key).toList ++ ':' :: ((text value).toList ++
        ',' :: (entriesText (second :: rest)).toList) := by
  simp [entriesText]

theorem exists_floatText {x : Float} (hx : x.isFinite = true) : ∃ n : NumberText, n.Proper ∧
    n.chars = (floatText x).toList ∧ n.value? = Decimal.readBack x := by
  rw [floatText, if_pos hx]
  exact Decimal.exists_readBack x

theorem opens_text (j : Json) : Opens (text j).toList := by
  cases j with
  | null => exact ⟨'n', _, rfl, by decide, by decide⟩
  | bool b => cases b <;> exact ⟨_, _, rfl, by decide, by decide⟩
  | int n =>
    obtain ⟨c, rest, hc, hstart⟩ := start_chars (NumberText.proper_ofInt n)
    change Opens (toString n).toList
    rw [← NumberText.chars_ofInt, hc]
    exact opens_of_start hstart rest
  | float x =>
    change Opens (floatText x).toList
    by_cases hx : x.isFinite = true
    · obtain ⟨n, hn, hchars, -⟩ := exists_floatText hx
      obtain ⟨c, rest, hc, hstart⟩ := start_chars hn
      rw [← hchars, hc]
      exact opens_of_start hstart rest
    · rw [floatText, if_neg hx]
      exact ⟨'n', _, rfl, by decide, by decide⟩
  | str s =>
    change Opens (quoted s).toList
    simpa using opens_quoted s []
  | arr items => exact ⟨'[', _, text_arr_toList items, by decide, by decide⟩
  | obj entries => exact ⟨'{', _, text_obj_toList entries, by decide, by decide⟩

theorem opens_itemsText (item : Json) (others : List Json) (rest : List Char) :
    Opens ((itemsText (item :: others)).toList ++ rest) := by
  cases others with
  | nil => exact (opens_text item).append rest
  | cons second others =>
    rw [itemsText_cons_toList, List.append_assoc]
    exact (opens_text item).append _

theorem opens_entriesText (key : String) (value : Json) (others : List (String × Json))
    (rest : List Char) : Opens ((entriesText ((key, value) :: others)).toList ++ rest) := by
  cases others with
  | nil =>
    rw [entriesText_singleton_toList, List.append_assoc]
    exact opens_quoted key _
  | cons second others =>
    rw [entriesText_cons_toList, List.append_assoc]
    exact opens_quoted key _

theorem closes_mark {mark : Char} (h : mark ∈ [',', ']', '}']) (rest : List Char) :
    Closes (mark :: rest) := by
  intro c hc
  obtain rfl := Option.some.inj hc
  exact h

mutual
/-- The reader takes the text of a value off the front, as its tree. Two steps for every character are
enough: an item and the brackets around it take one step each. -/
theorem value?_text (j : Json) {fuel : ℕ} (hf : 2 * (text j).toList.length < fuel)
    {rest : List Char} (hr : Closes rest) :
    value? fuel ((text j).toList ++ rest) = some (tree j, rest) := by
  obtain ⟨fuel, rfl⟩ := Nat.exists_eq_succ_of_ne_zero (Nat.ne_zero_of_lt hf)
  cases j with
  | null => rfl
  | bool b => cases b <;> rfl
  | int n =>
    change value? (fuel + 1) ((toString n).toList ++ rest) = _
    rw [← NumberText.chars_ofInt]
    exact value?_chars (NumberText.proper_ofInt n) fuel hr
  | float x =>
    change value? (fuel + 1) ((floatText x).toList ++ rest) = _
    by_cases hx : x.isFinite = true
    · obtain ⟨n, hn, hchars, hvalue⟩ := exists_floatText hx
      rw [← hchars, value?_chars hn fuel hr, hvalue, tree, if_pos hx]
    · rw [floatText, if_neg hx, tree, if_neg hx]
      rfl
  | str s => exact value?_quoted s fuel rest
  | arr items =>
    rw [text_arr_toList, List.length_cons, List.length_append, List.length_singleton] at hf
    rw [text_arr_toList, List.cons_append, List.append_assoc, List.singleton_append]
    have hitems := @items?_text items fuel (by omega) rest
    cases items with
    | nil => rfl
    | cons item others =>
      rw [value?_items (opens_itemsText item others _), hitems (List.cons_ne_nil _ _)]
      rfl
  | obj entries =>
    rw [text_obj_toList, List.length_cons, List.length_append, List.length_singleton] at hf
    rw [text_obj_toList, List.cons_append, List.append_assoc, List.singleton_append]
    have hentries := @entries?_text entries fuel (by omega) rest
    cases entries with
    | nil => rfl
    | cons entry others =>
      rw [value?_entries (opens_entriesText entry.1 entry.2 others _),
        hentries (List.cons_ne_nil _ _)]
      rfl

theorem items?_text (items : List Json) {fuel : ℕ}
    (hf : 2 * (itemsText items).toList.length + 2 ≤ fuel) {rest : List Char} (hne : items ≠ []) :
    items? fuel ((itemsText items).toList ++ ']' :: rest) = some (treeItems items, rest) := by
  obtain ⟨fuel, rfl⟩ := Nat.exists_eq_succ_of_ne_zero (show fuel ≠ 0 by omega)
  cases items with
  | nil => exact absurd rfl hne
  | cons item others =>
    have hitem := @value?_text item fuel
    have hothers := @items?_text others fuel
    cases others with
    | nil =>
      change 2 * (text item).toList.length + 2 ≤ _ at hf
      change items? (fuel + 1) ((text item).toList ++ ']' :: rest) = _
      rw [items?, hitem (by omega) (closes_mark (by decide) rest)]
      rfl
    | cons second others =>
      rw [itemsText_cons_toList, List.length_append, List.length_cons] at hf
      rw [itemsText_cons_toList, List.append_assoc, List.cons_append, items?,
        hitem (by omega) (closes_mark (by decide) _)]
      simp only [skipBlank_cons (show ',' ∉ [' ', '\t', '\n', '\r'] by decide)]
      rw [hothers (by omega) (List.cons_ne_nil _ _)]
      rfl

theorem entries?_text (entries : List (String × Json)) {fuel : ℕ}
    (hf : 2 * (entriesText entries).toList.length + 2 ≤ fuel) {rest : List Char}
    (hne : entries ≠ []) :
    entries? fuel ((entriesText entries).toList ++ '}' :: rest) =
      some (treeEntries entries, rest) := by
  obtain ⟨fuel, rfl⟩ := Nat.exists_eq_succ_of_ne_zero (show fuel ≠ 0 by omega)
  match entries with
  | [] => exact absurd rfl hne
  | (key, value) :: others =>
    have hvalue := @value?_text value fuel
    have hothers := @entries?_text others fuel
    cases others with
    | nil =>
      rw [entriesText_singleton_toList, List.length_append, List.length_cons] at hf
      rw [entriesText_singleton_toList, List.append_assoc, List.cons_append, entries?_quoted,
        hvalue (by omega) (closes_mark (by decide) rest)]
      rfl
    | cons second others =>
      rw [entriesText_cons_toList, List.length_append, List.length_cons, List.length_append,
        List.length_cons] at hf
      rw [entriesText_cons_toList, List.append_assoc, List.cons_append, List.append_assoc,
        List.cons_append, entries?_quoted, hvalue (by omega) (closes_mark (by decide) _)]
      simp only [skipBlank_cons (show ',' ∉ [' ', '\t', '\n', '\r'] by decide)]
      rw [hothers (by omega) (List.cons_ne_nil _ _)]
      rfl
end

theorem ofText?_text (j : Json) : Written.ofText? j.text = some j.tree := by
  have hread := @value?_text j (2 * j.text.toList.length + 2) (by omega) []
    fun _ h => absurd h (Option.not_mem_none _)
  rw [List.append_nil] at hread
  rw [Written.ofText?]
  simp only [hread]
  rfl

/-! ## Values that come back -/

mutual
/-- The text carries the value to a reader that allows `depth` arrays and objects in each other: whole
numbers fit 64 bits, floats are among those that the reader takes back, and no key comes twice. -/
def Carried (depth : ℕ) : Json → Prop
  | .int n => -2 ^ 63 ≤ n ∧ n < 2 ^ 64
  | .float x => x.isFinite = true ∧ Decimal.readBack x = some (.float x)
  | .arr items => 0 < depth ∧ CarriedItems (depth - 1) items
  | .obj entries => 0 < depth ∧ (Keyed.names entries).Nodup ∧ CarriedEntries (depth - 1) entries
  | _ => True

def CarriedItems (depth : ℕ) : List Json → Prop
  | [] => True
  | item :: rest => Carried depth item ∧ CarriedItems depth rest

def CarriedEntries (depth : ℕ) : List (String × Json) → Prop
  | [] => True
  | (_, value) :: rest => Carried depth value ∧ CarriedEntries depth rest
end

theorem carriedEntries_iff {depth : ℕ} {entries : List (String × Json)} :
    CarriedEntries depth entries ↔ ∀ entry ∈ entries, Carried depth entry.2 := by
  induction entries with
  | nil => simp [CarriedEntries]
  | cons entry rest ih =>
    rw [List.forall_mem_cons, ← ih]
    rfl

theorem values?_cons (depth : ℕ) (item : Written) (rest : List Written) :
    Written.values? depth (item :: rest) =
      (Written.value? depth item).bind fun value => (Written.values? depth rest).map (value :: ·) := by
  cases hitem : Written.value? depth item <;> cases hrest : Written.values? depth rest <;>
    simp [Written.values?, hitem, hrest]

theorem entries?_cons (depth : ℕ) (key : String) (item : Written)
    (rest : List (Option String × Written)) :
    Written.entries? depth ((some key, item) :: rest) =
      (Written.value? depth item).bind fun value =>
        (Written.entries? depth rest).map ((key, value) :: ·) := by
  cases hitem : Written.value? depth item <;> cases hrest : Written.entries? depth rest <;>
    simp [Written.entries?, hitem, hrest]

theorem names_of_entries? {depth : ℕ} {entries found : List (String × Json)}
    (h : Written.entries? depth (treeEntries entries) = some found) :
    Keyed.names found = Keyed.names entries := by
  induction entries generalizing found with
  | nil =>
    obtain rfl := Option.some.inj h
    rfl
  | cons entry rest ih =>
    rw [treeEntries, entries?_cons] at h
    obtain ⟨value, -, h⟩ := Option.bind_eq_some_iff.1 h
    obtain ⟨others, hothers, rfl⟩ := Option.map_eq_some_iff.1 h
    exact congrArg (entry.1 :: ·) (ih hothers)

/-- An object of distinct keys comes back if its entries do. -/
theorem ofList_eq_iff {depth : ℕ} {entries : List (String × Json)} :
    (Written.entries? depth (treeEntries entries)).map Keyed.ofList = some entries ↔
      (Keyed.names entries).Nodup ∧
        Written.entries? depth (treeEntries entries) = some entries := by
  constructor
  · intro h
    obtain ⟨found, hfound, hlist⟩ := Option.map_eq_some_iff.1 h
    have hnodup : (Keyed.names entries).Nodup := hlist ▸ Keyed.nodup_ofList found
    rw [Keyed.ofList_eq_self (names_of_entries? hfound ▸ hnodup)] at hlist
    exact ⟨hnodup, hlist ▸ hfound⟩
  · rintro ⟨hnodup, h⟩
    rw [h, Option.map_some, Keyed.ofList_eq_self hnodup]

mutual
theorem value?_tree_iff (depth : ℕ) (j : Json) :
    Written.value? depth j.tree = some j ↔ j.Carried depth := by
  cases j with
  | null => exact iff_of_true rfl trivial
  | bool b => exact iff_of_true rfl trivial
  | int n => exact NumberText.value?_ofInt_iff n
  | float x =>
    rw [tree, Carried]
    split
    · rename_i hx
      exact ⟨fun h => ⟨hx, h⟩, fun h => h.2⟩
    · rename_i hx
      exact iff_of_false (fun h => by cases h) fun h => hx h.1
  | str s => exact iff_of_true rfl trivial
  | arr items =>
    rw [tree, Carried]
    cases depth with
    | zero => exact iff_of_false (fun h => by cases h) fun h => absurd h.1 (Nat.lt_irrefl 0)
    | succ depth =>
      have hitems := values?_tree_iff depth items
      rw [Written.value?, Nat.add_sub_cancel, ← hitems]
      simp
  | obj entries =>
    rw [tree, Carried]
    cases depth with
    | zero => exact iff_of_false (fun h => by cases h) fun h => absurd h.1 (Nat.lt_irrefl 0)
    | succ depth =>
      have hentries := entries?_tree_iff depth entries
      have hobject : Written.value? (depth + 1) (.obj (treeEntries entries)) =
          ((Written.entries? depth (treeEntries entries)).map Keyed.ofList).map .obj := by
        rw [Written.value?, Option.map_map]
        rfl
      rw [hobject, Nat.add_sub_cancel, ← hentries, ← ofList_eq_iff]
      simp

theorem values?_tree_iff (depth : ℕ) (items : List Json) :
    Written.values? depth (treeItems items) = some items ↔ CarriedItems depth items := by
  match items with
  | [] => exact iff_of_true rfl trivial
  | item :: rest =>
    have hitem := value?_tree_iff depth item
    have hrest := values?_tree_iff depth rest
    rw [treeItems, values?_cons, CarriedItems, ← hitem, ← hrest]
    simp [Option.bind_eq_some_iff]

theorem entries?_tree_iff (depth : ℕ) (entries : List (String × Json)) :
    Written.entries? depth (treeEntries entries) = some entries ↔ CarriedEntries depth entries := by
  match entries with
  | [] => exact iff_of_true rfl trivial
  | (key, value) :: rest =>
    have hvalue := value?_tree_iff depth value
    have hrest := entries?_tree_iff depth rest
    rw [treeEntries, entries?_cons, CarriedEntries, ← hvalue, ← hrest]
    simp [Option.bind_eq_some_iff]
end

end Json

end GraphQLClient
