import GraphQLClient.Proofs.Language.TypeText
import GraphQLClient.Proofs.Text.Cuts
import Mathlib.Data.List.DropRight
import Mathlib.Data.List.TakeWhile

set_option autoImplicit false

/-!
# The grammar of type references

The texts that are read as types are given by two rules, one for a type and one for what stands under
its mark. Reading a type off the front of a text follows the rules in both directions: what is read
is derived, and a derived text is read where what follows cannot belong to it.
-/

namespace GraphQLClient.TypeRef

def Gaps (text : List Char) : Prop := ∀ c ∈ text, isGap c = true

mutual

/-- White space, a base, white space and at most one mark. -/
inductive Derives : List Char → TypeRef → Prop where
  | plain {before base after : List Char} {type : TypeRef} (hbefore : Gaps before)
      (hbase : DerivesBase base type) (hafter : Gaps after) :
      Derives (before ++ (base ++ after)) type
  | marked {before base after : List Char} {type : TypeRef} (hbefore : Gaps before)
      (hbase : DerivesBase base type) (hafter : Gaps after) :
      Derives (before ++ (base ++ (after ++ ['!']))) (.nonNull type)

/-- A name, or a type and white space in brackets. -/
inductive DerivesBase : List Char → TypeRef → Prop where
  | named {name : String} (hname : IsName name) : DerivesBase name.toList (.named name)
  | list {text after : List Char} {item : TypeRef} (hitem : Derives text item)
      (hafter : Gaps after) : DerivesBase ('[' :: (text ++ (after ++ [']']))) (.list item)

end

/-- No mark stands right behind another. -/
def WellMarked : TypeRef → Prop
  | .named _ => True
  | .list item => item.WellMarked
  | .nonNull base => base.isNonNull = false ∧ base.WellMarked

/-- What follows does not go on with the type. Nothing goes on with a marked type. -/
def Ends (type : TypeRef) (rest : List Char) : Prop :=
  type.isNonNull = false → Stops isNamePart rest ∧ Stops (· == '!') (skipGap rest)

variable {text front rest before base after : List Char} {type found item : TypeRef} {fuel : Nat}

/-! ## White space -/

theorem Gaps.nil : Gaps [] := fun _ h => nomatch h

/-- What is skipped is white space. -/
theorem exists_gaps (text : List Char) : ∃ gaps, Gaps gaps ∧ gaps ++ skipGap text = text :=
  ⟨text.takeWhile isGap, fun _ hc => List.mem_takeWhile_imp hc, List.takeWhile_append_dropWhile⟩

theorem skipGap_append (h : Gaps before) (rest : List Char) :
    skipGap (before ++ rest) = skipGap rest :=
  List.dropWhile_append_of_pos h

theorem skipGap_cons {c : Char} (h : isGap c = false) (rest : List Char) :
    skipGap (c :: rest) = c :: rest :=
  List.dropWhile_cons_of_neg (by simp [h])

theorem skipGap_skipGap (text : List Char) : skipGap (skipGap text) = skipGap text :=
  List.dropWhile_idempotent _ _

theorem isNamePart_of_isGap {c : Char} (h : isGap c = true) : isNamePart c = false := by
  simp only [isGap, Bool.or_eq_true, decide_eq_true_eq] at h
  rcases h with (((rfl | rfl) | rfl) | rfl) | rfl <;> rfl

theorem isGap_of_isNameStart {c : Char} (h : isNameStart c = true) : isGap c = false := by
  cases hgap : isGap c with
  | false => rfl
  | true =>
    have hpart := isNamePart_of_isNameStart h
    rw [isNamePart_of_isGap hgap] at hpart
    cases hpart

/-- White space ends a name. -/
theorem stops_gaps (hafter : Gaps after) (h : Stops isNamePart rest) :
    Stops isNamePart (after ++ rest) := by
  cases after with
  | nil => exact h
  | cons c after => exact stops_cons (isNamePart_of_isGap (hafter c List.mem_cons_self))

/-! ## What is read is derived -/

/-- The mark behind a base, and the white space before it. -/
theorem derives_of_marked (hbefore : Gaps before) (hbase : DerivesBase base type)
    (h : marked type text = (found, rest)) :
    ∃ front, text = front ++ rest ∧ Derives (before ++ (base ++ front)) found := by
  obtain ⟨gaps, hgaps, htext⟩ := exists_gaps text
  rw [marked] at h
  split at h
  · rename_i tail hskip
    obtain ⟨rfl, rfl⟩ := Prod.mk.inj h
    refine ⟨gaps ++ ['!'], ?_, .marked hbefore hbase hgaps⟩
    rw [List.append_assoc, List.singleton_append, ← hskip, htext]
  · obtain ⟨rfl, rfl⟩ := Prod.mk.inj h
    exact ⟨gaps, htext.symm, .plain hbefore hbase hgaps⟩

theorem isName_ofList {c : Char} (h : isNameStart c = true) (rest : List Char) :
    IsName (String.ofList (c :: rest.takeWhile isNamePart)) := by
  rw [IsName, String.toList_ofList, isNameText, h, Bool.true_and, List.all_eq_true]
  exact fun d hd => List.mem_takeWhile_imp hd

theorem derives_of_readType (h : readType fuel text = .ok (type, rest)) :
    ∃ front, text = front ++ rest ∧ Derives front type := by
  induction fuel generalizing text type rest with
  | zero => cases h
  | succ fuel ih =>
    obtain ⟨gaps, hgaps, htext⟩ := exists_gaps text
    rw [readType] at h
    split at h
    case h_1 => cases h
    case h_2 inside hskip =>
      split at h
      · cases h
      · rename_i item tail hitem
        split at h
        · rename_i behind hclose
          obtain ⟨inner, hinside, hinner⟩ := ih hitem
          obtain ⟨after, hafter, htail⟩ := exists_gaps tail
          obtain ⟨front, hbehind, hfront⟩ :=
            derives_of_marked hgaps (.list hinner hafter) (Except.ok.inj h)
          refine ⟨_, ?_, hfront⟩
          rw [← htext, hskip, hinside, ← htail, hclose, hbehind]
          simp only [List.append_assoc, List.cons_append, List.nil_append]
        · cases h
    case h_3 c tail _ hskip =>
      split at h
      · rename_i hstart
        obtain ⟨front, hbehind, hfront⟩ :=
          derives_of_marked hgaps (.named (isName_ofList hstart tail)) (Except.ok.inj h)
        have htail := List.takeWhile_append_dropWhile (p := isNamePart) (l := tail)
        rw [hbehind] at htail
        refine ⟨_, ?_, hfront⟩
        rw [String.toList_ofList, ← htext, hskip]
        simpa only [List.append_assoc, List.cons_append, List.append_cancel_left_eq,
          List.cons.injEq, true_and] using htail.symm
      · cases h

/-! ## What is derived is read -/

theorem isNonNull_of_derivesBase (h : DerivesBase base type) : type.isNonNull = false := by
  cases h <;> rfl

theorem readType_append_gaps (hbefore : Gaps before) (text : List Char) :
    readType fuel (before ++ text) = readType fuel text := by
  cases fuel with
  | zero => rfl
  | succ fuel => rw [readType, readType, skipGap_append hbefore]

theorem marked_append_mark (hafter : Gaps after) :
    marked type (after ++ '!' :: rest) = (.nonNull type, rest) := by
  simp only [marked, skipGap_append hafter, skipGap_cons (show isGap '!' = false from rfl)]

theorem marked_append (hafter : Gaps after) (h : Stops (· == '!') (skipGap rest)) :
    marked type (after ++ rest) = (type, skipGap rest) := by
  rw [marked, skipGap_append hafter]
  split
  · rename_i tail hskip
    exact absurd hskip (h.ne_cons rfl)
  · rfl

/-- A name is read up to where it stops. -/
theorem readType_name {name : String} (hname : IsName name) (hrest : Stops isNamePart rest) :
    readType (fuel + 1) (name.toList ++ rest) = .ok (marked (.named name) rest) := by
  obtain ⟨c, tail, hchars, hstart, htail⟩ := hname.exists_cons
  have hrun : (tail ++ rest).takeWhile isNamePart = tail ∧
      (tail ++ rest).dropWhile isNamePart = rest := by
    rw [List.takeWhile_append_of_pos htail, List.dropWhile_append_of_pos htail]
    cases rest with
    | nil => exact ⟨List.append_nil _, rfl⟩
    | cons d rest =>
      have hd : ¬isNamePart d = true := by simp [hrest d rest rfl]
      exact ⟨by rw [List.takeWhile_cons_of_neg hd, List.append_nil], List.dropWhile_cons_of_neg hd⟩
  have hopen : c ≠ '[' := by
    rintro rfl
    cases hstart
  have hread : String.ofList (c :: tail) = name := by
    rw [← hchars, String.ofList_toList]
  rw [hchars, List.cons_append, readType, skipGap_cons (isGap_of_isNameStart hstart)]
  split
  · contradiction
  · rename_i heq
    exact absurd (List.cons.inj heq).1 hopen
  · rename_i d more _ heq
    obtain ⟨rfl, rfl⟩ := List.cons.inj heq
    rw [if_pos hstart, hrun.1, hrun.2, hread]

/-- A list is read as its item and what closes it. -/
theorem readType_list (hitem : readType fuel (text ++ (after ++ ']' :: rest)) = .ok (item, front))
    (hclose : skipGap front = ']' :: rest) :
    readType (fuel + 1) ('[' :: (text ++ (after ++ ']' :: rest))) =
      .ok (marked (.list item) rest) := by
  rw [readType, skipGap_cons rfl]
  simp only [hitem, hclose]

/-- What is derived under a mark is read by that much fuel. -/
def BasesRead (fuel : Nat) : Prop :=
  ∀ {base type rest}, DerivesBase base type → base.length < fuel → Stops isNamePart rest →
    readType fuel (base ++ rest) = .ok (marked type rest)

/-- Then so are derived texts as a whole; behind an unmarked type white space is read too. -/
theorem BasesRead.append (hread : BasesRead fuel) (h : Derives front type)
    (hfuel : front.length < fuel) (hends : type.Ends rest) :
    readType fuel (front ++ rest) = .ok (type, if type.isNonNull then rest else skipGap rest) := by
  cases h with
  | @plain before base after _ hbefore hbase hafter =>
    have hnot := isNonNull_of_derivesBase hbase
    obtain ⟨hname, hmark⟩ := hends hnot
    have hlength : base.length < fuel := by
      simp only [List.length_append] at hfuel
      omega
    rw [List.append_assoc, readType_append_gaps hbefore, List.append_assoc,
      hread hbase hlength (stops_gaps hafter hname), marked_append hafter hmark, hnot]
    rfl
  | @marked before base after type hbefore hbase hafter =>
    have hlength : base.length < fuel := by
      simp only [List.length_append] at hfuel
      omega
    rw [List.append_assoc, readType_append_gaps hbefore, List.append_assoc, List.append_assoc,
      List.singleton_append, hread hbase hlength (stops_gaps hafter (stops_cons rfl)),
      marked_append_mark hafter]
    rfl

/-- A list takes one bracket off the text and one step of fuel. -/
theorem basesRead (fuel : Nat) : BasesRead fuel := by
  induction fuel with
  | zero => exact fun _ hfuel => absurd hfuel (Nat.not_lt_zero _)
  | succ fuel ih =>
    intro base type rest h hfuel hrest
    cases h with
    | named hname => exact readType_name hname hrest
    | @list text after item hitem hafter =>
      have hlength : text.length < fuel := by
        simp only [List.length_cons, List.length_append] at hfuel
        omega
      have hskip : skipGap (after ++ ']' :: rest) = ']' :: rest := by
        rw [skipGap_append hafter, skipGap_cons rfl]
      -- the bracket that closes the list goes on with no item
      have hends : item.Ends (after ++ ']' :: rest) := by
        refine fun _ => ⟨stops_gaps hafter (stops_cons rfl), ?_⟩
        rw [hskip]
        exact stops_cons rfl
      rw [List.cons_append, List.append_assoc, List.append_assoc, List.singleton_append]
      refine readType_list (ih.append hitem hlength hends) ?_
      split
      · exact hskip
      · rw [skipGap_skipGap, hskip]

/-- At the end of a text nothing can go on with a type. -/
theorem ends_nil (type : TypeRef) : type.Ends [] := fun _ => ⟨stops_nil, stops_nil⟩

theorem readType_whole (h : Derives text type) : readType (text.length + 1) text = .ok (type, []) := by
  have hread := BasesRead.append (basesRead _) h (Nat.lt_succ_self _) type.ends_nil
  rw [List.append_nil] at hread
  rw [hread]
  cases type.isNonNull <;> rfl

/-- A text is derived for one type only. -/
theorem Derives.unique (h : Derives text type) (hfound : Derives text found) : type = found := by
  have hread := readType_whole h
  rw [readType_whole hfound] at hread
  exact (Prod.mk.inj (Except.ok.inj hread)).1.symm

/-! ## Marks, names and characters of derived texts -/

mutual

theorem Derives.wellMarked : ∀ {text : List Char} {type : TypeRef}, Derives text type →
    type.WellMarked
  | _, _, .plain _ hbase _ => hbase.wellMarked
  | _, _, .marked _ hbase _ => ⟨isNonNull_of_derivesBase hbase, hbase.wellMarked⟩

theorem DerivesBase.wellMarked : ∀ {base : List Char} {type : TypeRef}, DerivesBase base type →
    type.WellMarked
  | _, _, .named _ => trivial
  | _, _, .list hitem _ => hitem.wellMarked

end

mutual

theorem Derives.isName : ∀ {text : List Char} {type : TypeRef}, Derives text type →
    IsName type.namedType
  | _, _, .plain _ hbase _ => hbase.isName
  | _, _, .marked _ hbase _ => hbase.isName

theorem DerivesBase.isName : ∀ {base : List Char} {type : TypeRef}, DerivesBase base type →
    IsName type.namedType
  | _, _, .named hname => hname
  | _, _, .list hitem _ => hitem.isName

end

/-- Letters, digits, underscores, brackets, marks and white space. -/
def isTypeChar (c : Char) : Bool := isTypePart c || c == '[' || c == ']' || isGap c

theorem isTypeChar_of_isNamePart {c : Char} (h : isNamePart c = true) : isTypeChar c = true := by
  simp [isTypeChar, isTypePart, h]

theorem Gaps.isTypeChar (h : Gaps text) : ∀ c ∈ text, isTypeChar c = true := by
  intro c hc
  simp [TypeRef.isTypeChar, h c hc]

mutual

theorem Derives.isTypeChar : ∀ {text : List Char} {type : TypeRef}, Derives text type →
    ∀ c ∈ text, isTypeChar c = true
  | _, _, .plain hbefore hbase hafter => by
    simp only [List.forall_mem_append]
    exact ⟨hbefore.isTypeChar, hbase.isTypeChar, hafter.isTypeChar⟩
  | _, _, .marked hbefore hbase hafter => by
    simp only [List.forall_mem_append, List.forall_mem_singleton]
    exact ⟨hbefore.isTypeChar, hbase.isTypeChar, hafter.isTypeChar, rfl⟩

theorem DerivesBase.isTypeChar : ∀ {base : List Char} {type : TypeRef}, DerivesBase base type →
    ∀ c ∈ base, isTypeChar c = true
  | _, _, .named hname => fun c hc => isTypeChar_of_isNamePart (hname.isNamePart c hc)
  | _, _, .list hitem hafter => by
    rw [List.forall_mem_cons, List.forall_mem_append, List.forall_mem_append,
      List.forall_mem_singleton]
    exact ⟨rfl, hitem.isTypeChar, hafter.isTypeChar, rfl⟩

end

theorem toNat_of_isNamePart {c : Char} (h : isNamePart c = true) :
    (48 ≤ c.toNat ∧ c.toNat ≤ 57) ∨ (65 ≤ c.toNat ∧ c.toNat ≤ 90) ∨
      (97 ≤ c.toNat ∧ c.toNat ≤ 122) ∨ c.toNat = 95 := by
  have hpart : (((decide (c.val ≥ 'A'.val ∧ c.val ≤ 'Z'.val) ||
      (decide (c.val ≥ 'a'.val) && decide (c.val ≤ 'z'.val))) ||
      (decide (c.val ≥ '0'.val) && decide (c.val ≤ '9'.val))) || decide (c = '_')) = true := h
  simp only [Bool.or_eq_true, Bool.and_eq_true, decide_eq_true_eq] at hpart
  rcases hpart with ((h | h) | h) | rfl
  · exact .inr (.inl h)
  · exact .inr (.inr (.inl h))
  · exact .inl h
  · exact .inr (.inr (.inr rfl))

theorem isBlank_of_isNamePart {c : Char} (h : isNamePart c = true) : Text.isBlank c = false := by
  have hrange := toNat_of_isNamePart h
  simp only [Text.isBlank, Text.blankRanges, List.any_cons, List.any_nil, Bool.or_false,
    Bool.or_eq_false_iff, Bool.and_eq_false_iff, decide_eq_false_iff_not]
  omega

theorem isBlank_of_isGap {c : Char} (h : isGap c = true) : Text.isBlank c = true := by
  simp only [isGap, Bool.or_eq_true, decide_eq_true_eq] at h
  rcases h with (((rfl | rfl) | rfl) | rfl) | rfl <;> rfl

theorem toNat_lt_of_isTypeChar {c : Char} (h : isTypeChar c = true) : c.toNat < 128 := by
  simp only [TypeRef.isTypeChar, isTypePart, isGap, Bool.or_eq_true, beq_iff_eq,
    decide_eq_true_eq] at h
  rcases h with (((h | rfl) | rfl) | rfl) | (((rfl | rfl) | rfl) | rfl) | rfl
  · have hrange := toNat_of_isNamePart h
    omega
  all_goals decide

/-! ## Reading a whole text -/

theorem parse_eq_ok_iff (input : String) (type : TypeRef) :
    parse input = .ok type ↔ Derives (Text.trim input.toList) type := by
  rw [parse]
  constructor
  · intro h
    split at h
    · cases h
    · rename_i found hread
      obtain ⟨front, htext, hfront⟩ := derives_of_readType hread
      rw [htext, List.append_nil, ← Except.ok.inj h]
      exact hfront
    · cases h
  · intro h
    simp only [readType_whole h]

/-- A text that is not read is named in the error. -/
theorem parse_eq_error {input : String} (h : ∀ type, parse input ≠ .ok type) :
    ∃ fault, parse input = .error ⟨input, fault⟩ := by
  revert h
  rw [parse]
  split
  · exact fun _ => ⟨_, rfl⟩
  · exact fun h => absurd rfl (h _)
  · exact fun _ => ⟨_, rfl⟩

/-- A text in which something else stands behind a whole type. -/
theorem parse_trailing {input : String} (htext : Text.trim input.toList = front ++ rest)
    (hfront : Derives front type) (hends : type.Ends rest) (hrest : rest ≠ []) :
    parse input = .error ⟨input, .trailing⟩ := by
  -- white space alone would have been trimmed
  have hskip : skipGap rest ≠ [] := by
    intro hnil
    obtain ⟨gaps, hgaps, heq⟩ := exists_gaps rest
    rw [hnil, List.append_nil] at heq
    rw [← heq] at htext hrest
    obtain ⟨init, c, rfl⟩ := (List.eq_nil_or_concat' gaps).resolve_left hrest
    have hblank := isBlank_of_isGap (hgaps c (by simp))
    rw [Text.isBlank_last (htext.trans (List.append_assoc _ _ _).symm)] at hblank
    cases hblank
  have hbehind : (if type.isNonNull then rest else skipGap rest) ≠ [] := by
    split
    · exact hrest
    · exact hskip
  obtain ⟨c, behind, hcons⟩ := List.exists_cons_of_ne_nil hbehind
  have hfuel : front.length < (front ++ rest).length + 1 := by
    rw [List.length_append]
    omega
  have hread := BasesRead.append (basesRead _) hfront hfuel hends
  rw [hcons] at hread
  simp only [parse, htext, hread]

/-- The texts that are read are those that the grammar derives, for the type that it derives them
for, and there is one such type. What it does not derive is an error, and so is every text with a
character beyond ASCII or with something behind a whole type. -/
theorem parse_iff_derives (input : String) :
    (∀ type, parse input = .ok type ↔ Derives (Text.trim input.toList) type) ∧
      (∀ type found, Derives (Text.trim input.toList) type →
        Derives (Text.trim input.toList) found → type = found) ∧
      (∀ type, parse input = .ok type → type.WellMarked) ∧
      ((∀ type, ¬Derives (Text.trim input.toList) type) →
        ∃ fault, parse input = .error ⟨input, fault⟩) ∧
      (∀ c ∈ Text.trim input.toList, 128 ≤ c.toNat →
        ∃ fault, parse input = .error ⟨input, fault⟩) ∧
      ∀ front rest type, Text.trim input.toList = front ++ rest → Derives front type →
        type.Ends rest → rest ≠ [] → parse input = .error ⟨input, .trailing⟩ := by
  refine ⟨parse_eq_ok_iff input, fun _ _ => Derives.unique, fun type h => ?_, fun h => ?_,
    fun c hc hlarge => ?_, fun _ _ _ => parse_trailing⟩
  · exact ((parse_eq_ok_iff input type).1 h).wellMarked
  · exact parse_eq_error fun type hok => h type ((parse_eq_ok_iff input type).1 hok)
  · refine parse_eq_error fun type hok => ?_
    have hsmall := toNat_lt_of_isTypeChar (((parse_eq_ok_iff input type).1 hok).isTypeChar c hc)
    omega

/-! ## Types and their texts -/

/-- The text of a type is derived for it, if the type has a name in it and no mark behind a mark. -/
theorem derives_chars (hname : IsName type.namedType) (hmarks : type.WellMarked) :
    Derives type.chars type ∧ (type.isNonNull = false → DerivesBase type.chars type) := by
  have hplain : ∀ {text type}, DerivesBase text type → Derives text type := by
    intro text type h
    have hderives := Derives.plain Gaps.nil h Gaps.nil
    rwa [List.nil_append, List.append_nil] at hderives
  induction type with
  | named name => exact ⟨hplain (.named hname), fun _ => .named hname⟩
  | list item ih =>
    have hbase : DerivesBase (chars (.list item)) (.list item) := by
      have hlist := DerivesBase.list (ih hname hmarks).1 Gaps.nil
      rwa [List.nil_append, ← chars_list, List.append_nil] at hlist
    exact ⟨hplain hbase, fun _ => hbase⟩
  | nonNull base ih =>
    have hmarked := Derives.marked Gaps.nil ((ih hname hmarks.2).2 hmarks.1) Gaps.nil
    rw [List.nil_append, List.nil_append, ← chars_nonNull] at hmarked
    exact ⟨hmarked, fun h => nomatch h⟩

theorem isBlank_of_mem_chars (hname : IsName type.namedType) :
    ∀ c ∈ type.chars, Text.isBlank c = false := by
  induction type with
  | named name => exact fun c hc => isBlank_of_isNamePart (hname.isNamePart c hc)
  | list item ih =>
    rw [← List.append_nil (chars _), chars_list, List.forall_mem_cons, List.forall_mem_append,
      List.forall_mem_singleton]
    exact ⟨rfl, ih hname, rfl⟩
  | nonNull base ih =>
    rw [chars_nonNull, List.forall_mem_append, List.forall_mem_singleton]
    exact ⟨ih hname, rfl⟩

theorem parse_text (hname : IsName type.namedType) (hmarks : type.WellMarked) :
    parse type.text = .ok type := by
  have htrim := Text.trim_eq_self (isBlank_of_mem_chars hname)
  rw [chars] at htrim
  rw [parse_eq_ok_iff, htrim]
  exact (derives_chars hname hmarks).1

/-- The text of a type is read as that type exactly if the type has a name in it and no mark right
behind another, as every type that is read has. So the texts of types stand for all texts that are
read: two are read as one type if that type has one text. -/
theorem parse_text_iff (type : TypeRef) :
    (parse type.text = .ok type ↔ IsName type.namedType ∧ type.WellMarked) ∧
      (∀ input, parse input = .ok type → parse type.text = .ok type) ∧
      ∀ input other found, parse input = .ok type → parse other = .ok found →
        (type.text = found.text ↔ parse input = parse other) := by
  have hof : ∀ {input type}, parse input = .ok type → IsName type.namedType ∧ type.WellMarked := by
    intro input type h
    have hderives := (parse_eq_ok_iff input type).1 h
    exact ⟨hderives.isName, hderives.wellMarked⟩
  have hread : ∀ {input type}, parse input = .ok type → parse type.text = .ok type :=
    fun h => parse_text (hof h).1 (hof h).2
  refine ⟨⟨hof, fun h => parse_text h.1 h.2⟩, fun _ => hread, fun input other found h hother => ?_⟩
  rw [h, hother]
  constructor
  · intro htext
    have hsame := hread h
    rwa [htext, hread hother, eq_comm] at hsame
  · intro heq
    rw [Except.ok.inj heq]

/-- Brackets in a name are read as a list. -/
example : parse (named "[Int]").text = .ok (.list (.named "Int")) := by decide

end GraphQLClient.TypeRef
