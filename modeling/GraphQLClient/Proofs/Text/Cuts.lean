import GraphQLClient.Text.Numeral
import Mathlib.Data.List.Forall2
import Mathlib.Data.List.TakeWhile
import Mathlib.Data.Nat.Digits.Defs
import Mathlib.Tactic.Ring

set_option autoImplicit false

/-!
# Cutting texts

Where a text that was put together is taken apart again: at a mark that its parts do not have, at
line ends, at blanks and after a number of bytes.
-/

namespace GraphQLClient.Text

theorem cutAt?_append {mark : Char} {before : List Char} (h : mark ∉ before) (after : List Char) :
    cutAt? mark (before ++ mark :: after) = some (before, after) := by
  induction before with
  | nil => simp [cutAt?]
  | cons c before ih =>
    rw [List.mem_cons, not_or] at h
    rw [List.cons_append, cutAt?, if_neg (Ne.symm h.1), ih h.2]
    rfl

theorem eq_append_of_cutAt? {mark : Char} {text before after : List Char}
    (h : cutAt? mark text = some (before, after)) : text = before ++ mark :: after := by
  induction text generalizing before with
  | nil => cases h
  | cons c text ih =>
    rw [cutAt?] at h
    split at h
    · rename_i hc
      obtain ⟨rfl, rfl⟩ := Prod.mk.inj (Option.some.inj h)
      rw [hc]
      rfl
    · obtain ⟨⟨front, rest⟩, hcut, hrest⟩ := Option.map_eq_some_iff.1 h
      obtain ⟨rfl, rfl⟩ := Prod.mk.inj hrest
      rw [ih hcut]
      rfl

/-- The cut is at the first of the marks. -/
theorem not_mem_of_cutAt? {mark : Char} {text before after : List Char}
    (h : cutAt? mark text = some (before, after)) : mark ∉ before := by
  induction text generalizing before with
  | nil => cases h
  | cons c text ih =>
    rw [cutAt?] at h
    split at h
    · obtain ⟨rfl, rfl⟩ := Prod.mk.inj (Option.some.inj h)
      exact List.not_mem_nil
    · rename_i hc
      obtain ⟨⟨front, rest⟩, hcut, hrest⟩ := Option.map_eq_some_iff.1 h
      obtain ⟨rfl, rfl⟩ := Prod.mk.inj hrest
      exact List.not_mem_cons_of_ne_of_not_mem (Ne.symm hc) (ih hcut)

theorem cutAtText?_skip {mark : List Char} {c : Char} {text : List Char}
    (h : after? mark (c :: text) = none) :
    cutAtText? mark (c :: text) = (cutAtText? mark text).map fun cut => (c :: cut.1, cut.2) := by
  rw [cutAtText?, h]

theorem after?_append (mark text : List Char) : after? mark (mark ++ text) = some text := by
  induction mark with
  | nil => rfl
  | cons m mark ih => rw [List.cons_append, after?, if_pos rfl, ih]

theorem eq_append_of_after? {mark text rest : List Char} (h : after? mark text = some rest) :
    text = mark ++ rest := by
  induction mark generalizing text with
  | nil => exact Option.some.inj h
  | cons m mark ih =>
    cases text with
    | nil => cases h
    | cons c text =>
      rw [after?] at h
      split at h
      · rename_i hc
        rw [← hc, ih h]
        rfl
      · cases h

theorem cutAtText?_mark {m : Char} (mark after : List Char) :
    cutAtText? (m :: mark) (m :: mark ++ after) = some ([], after) := by
  rw [List.cons_append, cutAtText?, ← List.cons_append, after?_append]

/-! ## Blanks -/

theorem trimStart_append {text : List Char} (hne : text ≠ []) (h : ∀ c ∈ text, isBlank c = false)
    (more : List Char) : trimStart (text ++ more) = text ++ more := by
  obtain ⟨c, text, rfl⟩ := List.exists_cons_of_ne_nil hne
  exact List.dropWhile_cons_of_neg (by simp [h c List.mem_cons_self])

theorem trimEnd_append_blanks (text : List Char) {blanks : List Char}
    (h : ∀ c ∈ blanks, isBlank c = true) : trimEnd (text ++ blanks) = trimEnd text := by
  rw [trimEnd, trimEnd, List.reverse_append,
    List.dropWhile_append_of_pos fun c hc => h c (List.mem_reverse.1 hc)]

/-- What ends with a character that is no blank is kept, and so is all in front of it. -/
theorem trimEnd_append_cons (text : List Char) {c : Char} (h : isBlank c = false)
    (more : List Char) : ∃ kept, trimEnd (text ++ c :: more) = text ++ c :: kept := by
  refine ⟨trimEnd more, ?_⟩
  have hc : (c :: text.reverse).dropWhile isBlank = c :: text.reverse :=
    List.dropWhile_cons_of_neg (by simp [h])
  have hreverse : (text ++ c :: more).reverse = more.reverse ++ c :: text.reverse := by simp
  rw [trimEnd, trimEnd, hreverse, List.dropWhile_append]
  split
  · rename_i hblank
    rw [hc, List.isEmpty_iff.1 hblank]
    simp
  · simp

theorem trimEnd_eq_self {text : List Char} (h : ∀ c ∈ text, isBlank c = false) :
    trimEnd text = text := by
  rcases List.eq_nil_or_concat text with rfl | ⟨front, c, rfl⟩
  · rfl
  · rw [List.concat_eq_append] at h ⊢
    have hc : isBlank c = false := h c (by simp)
    rw [trimEnd, List.reverse_concat, List.dropWhile_cons_of_neg (by simp [hc])]
    simp

theorem trim_append_blanks {text : List Char} (h : ∀ c ∈ text, isBlank c = false)
    {blanks : List Char} (hblanks : ∀ c ∈ blanks, isBlank c = true) : trim (text ++ blanks) = text := by
  by_cases hne : text = []
  · subst hne
    have hstart : trimStart blanks = [] := List.dropWhile_eq_nil_iff.2 hblanks
    rw [List.nil_append, trim, hstart]
    rfl
  · rw [trim, trimStart_append hne h, trimEnd_append_blanks text hblanks, trimEnd_eq_self h]

theorem trim_eq_self {text : List Char} (h : ∀ c ∈ text, isBlank c = false) : trim text = text := by
  have hnone : trim (text ++ []) = text := trim_append_blanks h fun _ hc => nomatch hc
  rwa [List.append_nil] at hnone

/-- A text without blanks and a further character that is none are kept. -/
theorem trim_append_cons {text : List Char} (hne : text ≠ []) (h : ∀ c ∈ text, isBlank c = false)
    {c : Char} (hc : isBlank c = false) (more : List Char) :
    ∃ kept, trim (text ++ c :: more) = text ++ c :: kept := by
  rw [trim, trimStart_append hne h]
  exact trimEnd_append_cons text hc more

/-- A text that neither begins nor ends with a blank stays as it is. -/
theorem trim_eq_self_of_ends {c d : Char} {text front : List Char} (hc : isBlank c = false)
    (hd : isBlank d = false) (h : c :: text = front ++ [d]) : trim (c :: text) = c :: text := by
  have hstart : trimStart (c :: text) = c :: text := List.dropWhile_cons_of_neg (by simp [hc])
  rw [trim, hstart, h, trimEnd, List.reverse_concat, List.dropWhile_cons_of_neg (by simp [hd])]
  simp

/-- Only blanks are lost. -/
theorem mem_trim {text : List Char} {c : Char} (hc : isBlank c = false) (h : c ∈ text) :
    c ∈ trim text := by
  have hdrop : ∀ {rest : List Char}, c ∈ rest → c ∈ rest.dropWhile isBlank := by
    intro rest hmem
    rw [← @List.takeWhile_append_dropWhile _ isBlank rest, List.mem_append] at hmem
    refine hmem.resolve_left fun hblank => ?_
    rw [List.mem_takeWhile_imp hblank] at hc
    cases hc
  rw [trim, trimEnd, List.mem_reverse]
  exact hdrop (List.mem_reverse.2 (hdrop h))

/-- A text without blanks at its ends does not end with one. -/
theorem isBlank_last {text front : List Char} {c : Char} (h : trim text = front ++ [c]) :
    isBlank c = false := by
  have hdrop : (trimStart text).reverse.dropWhile isBlank = c :: front.reverse := by
    rw [trim, trimEnd] at h
    rw [← List.reverse_reverse (List.dropWhile _ _), h, List.reverse_append, List.reverse_singleton,
      List.singleton_append]
  have hhead := List.head?_dropWhile_not isBlank (trimStart text).reverse
  rw [hdrop] at hhead
  exact hhead

theorem wordsFrom_append {word : List Char} (text : List Char) {run : List Char}
    (h : ∀ c ∈ run, isBlank c = false) (hne : run ++ word ≠ []) {blank : Char}
    (hblank : isBlank blank = true) :
    wordsFrom word (run ++ blank :: text) = (word.reverse ++ run) :: wordsFrom [] text := by
  induction run generalizing word with
  | nil =>
    have hword : word.isEmpty = false := by simpa using hne
    simp [wordsFrom, hblank, hword]
  | cons c run ih =>
    have hc : isBlank c = false := h c (by simp)
    rw [List.cons_append, wordsFrom, if_neg (by simp [hc]),
      ih (fun d hd => h d (by simp [hd])) (by simp), List.reverse_cons, List.append_assoc,
      List.singleton_append]

/-- The first word of a text and the words after the blank behind it. -/
theorem words_append {run : List Char} (h : ∀ c ∈ run, isBlank c = false) (hne : run ≠ [])
    {blank : Char} (hblank : isBlank blank = true) (text : List Char) :
    words (run ++ blank :: text) = run :: words text :=
  wordsFrom_append text h (by simpa using hne) hblank

theorem words_self {run : List Char} (h : ∀ c ∈ run, isBlank c = false) (hne : run ≠ []) :
    words run = [run] := by
  have hfrom : ∀ {run word : List Char}, (∀ c ∈ run, isBlank c = false) → run ++ word ≠ [] →
      wordsFrom word run = [word.reverse ++ run] := by
    intro run
    induction run with
    | nil =>
      intro word _ hword
      have hword : word.isEmpty = false := by simpa using hword
      simp [wordsFrom, hword]
    | cons c run ih =>
      intro word h _
      have hc : isBlank c = false := h c (by simp)
      rw [wordsFrom, if_neg (by simp [hc]), ih (fun d hd => h d (by simp [hd])) (by simp),
        List.reverse_cons, List.append_assoc, List.singleton_append]
  exact hfrom h (by simpa using hne)

/-! ## Lines -/

theorem linesFrom_append {line : List Char} {run : List Char} (h : '\n' ∉ run) (text : List Char) :
    linesFrom line (run ++ '\n' :: text) =
      dropReturn (line.reverse ++ run) :: linesFrom [] text := by
  induction run generalizing line with
  | nil => simp [linesFrom]
  | cons c run ih =>
    rw [List.mem_cons, not_or] at h
    rw [List.cons_append, linesFrom, if_neg (Ne.symm h.1), ih h.2, List.reverse_cons,
      List.append_assoc, List.singleton_append]

theorem lines_append {run : List Char} (h : '\n' ∉ run) (text : List Char) :
    lines (run ++ '\r' :: '\n' :: text) = run :: lines text := by
  have hline : '\n' ∉ run ++ ['\r'] := by simpa using h
  have hcut : linesFrom [] (run ++ ['\r'] ++ '\n' :: text) = dropReturn (run ++ ['\r']) :: lines text :=
    linesFrom_append hline text
  rw [List.append_assoc] at hcut
  refine hcut.trans ?_
  simp [dropReturn, lines]

theorem linesFrom_last {line run : List Char} (h : '\n' ∉ run) (hne : line.reverse ++ run ≠ []) :
    linesFrom line run = [line.reverse ++ run] := by
  induction run generalizing line with
  | nil =>
    have hline : line.isEmpty = false := by simpa using hne
    simp [linesFrom, hline]
  | cons c run ih =>
    rw [List.mem_cons, not_or] at h
    rw [linesFrom, if_neg (Ne.symm h.1), ih h.2 (by simp), List.reverse_cons, List.append_assoc,
      List.singleton_append]

theorem lines_last {run : List Char} (h : '\n' ∉ run) (hne : run ≠ []) : lines run = [run] :=
  linesFrom_last h (show List.reverse [] ++ run ≠ [] by simpa using hne)

/-- Lines with a line end between any two of them. -/
def joined (line : List Char) (lines : List (List Char)) : List Char :=
  line ++ lines.flatMap fun next => '\r' :: '\n' :: next

theorem joined_cons (line next : List Char) (rest : List (List Char)) :
    joined line (next :: rest) = line ++ '\r' :: '\n' :: joined next rest := by
  simp [joined]

theorem lines_joined {line : List Char} {rest : List (List Char)}
    (h : ∀ l ∈ line :: rest, '\n' ∉ l ∧ l ≠ []) : lines (joined line rest) = line :: rest := by
  induction rest generalizing line with
  | nil =>
    obtain ⟨hfeed, hne⟩ := h line (by simp)
    simpa [joined] using lines_last hfeed hne
  | cons next rest ih =>
    rw [joined_cons, lines_append (h line (by simp)).1, ih fun l hl => h l (List.mem_cons_of_mem _ hl)]

/-! ## Line ends -/

/-- There is no line end CRLF in the text. -/
def Unbroken (text : List Char) : Prop := cutAtText? ['\r', '\n'] text = none

instance (text : List Char) : Decidable (Unbroken text) :=
  inferInstanceAs (Decidable (_ = none))

theorem unbroken_nil : Unbroken [] := rfl

theorem unbroken_cons {c : Char} {text : List Char} :
    Unbroken (c :: text) ↔ after? ['\r', '\n'] (c :: text) = none ∧ Unbroken text := by
  unfold Unbroken
  cases h : after? ['\r', '\n'] (c :: text) with
  | some rest => simp [cutAtText?, h]
  | none => simp [cutAtText?_skip h]

theorem unbroken_cons_of_ne {c : Char} {text : List Char} (h : c ≠ '\r') :
    Unbroken (c :: text) ↔ Unbroken text := by
  rw [unbroken_cons, after?, if_neg h.symm]
  exact and_iff_right rfl

/-- Nothing in front without a carriage return is part of a line end. -/
theorem unbroken_append {before : List Char} (h : '\r' ∉ before) (text : List Char) :
    Unbroken (before ++ text) ↔ Unbroken text := by
  induction before with
  | nil => rfl
  | cons c before ih =>
    rw [List.mem_cons, not_or] at h
    rw [List.cons_append, unbroken_cons_of_ne (Ne.symm h.1), ih h.2]

theorem after?_append_cons {c d : Char} (h : c ≠ '\n') (before text : List Char) :
    after? ['\r', '\n'] (d :: (before ++ c :: text)) = none ↔
      after? ['\r', '\n'] (d :: before) = none := by
  cases before with
  | nil => simp [after?, h.symm]
  | cons e before => simp [after?]

/-- No line end stands across the place in front of a character other than a line feed. -/
theorem unbroken_append_cons {c : Char} (h : c ≠ '\n') (before text : List Char) :
    Unbroken (before ++ c :: text) ↔ Unbroken before ∧ Unbroken (c :: text) := by
  induction before with
  | nil => exact (and_iff_right unbroken_nil).symm
  | cons d before ih =>
    rw [List.cons_append, unbroken_cons, unbroken_cons, ih, after?_append_cons h, and_assoc]

theorem unbroken_of_not_mem {text : List Char} (h : '\r' ∉ text) : Unbroken text := by
  have hall := unbroken_append h []
  rw [List.append_nil] at hall
  exact hall.2 unbroken_nil

/-- What stands between the line ends CRLF of a text. -/
def parts : List Char → List (List Char)
  | [] => [[]]
  | '\r' :: '\n' :: rest => [] :: parts rest
  | c :: rest => (c :: (parts rest).headD []) :: (parts rest).tail

theorem parts_cons {c : Char} {text : List Char} (h : after? ['\r', '\n'] (c :: text) = none) :
    parts (c :: text) = (c :: (parts text).headD []) :: (parts text).tail := by
  conv_lhs => unfold parts
  split
  · rename_i heq
    cases heq
  · rename_i heq
    obtain ⟨rfl, rfl⟩ := List.cons.inj heq
    cases h
  · rename_i heq
    obtain ⟨rfl, rfl⟩ := List.cons.inj heq
    rfl

/-- The first part begins as the text does, if it is not empty. -/
theorem exists_cons_of_headD_parts {text part : List Char} {c : Char}
    (h : (parts text).headD [] = c :: part) : ∃ rest, text = c :: rest := by
  unfold parts at h
  split at h
  · cases h
  · cases h
  · rename_i d rest _
    obtain ⟨rfl, -⟩ := List.cons.inj h
    exact ⟨rest, rfl⟩

theorem unbroken_of_mem_parts {text : List Char} : ∀ line ∈ parts text, Unbroken line := by
  induction text using parts.induct with
  | case1 => exact List.forall_mem_singleton.2 unbroken_nil
  | case2 rest ih => exact List.forall_mem_cons.2 ⟨unbroken_nil, ih⟩
  | case3 c rest hne ih =>
    have hfirst : Unbroken ((parts rest).headD []) := by
      cases hparts : parts rest with
      | nil => exact unbroken_nil
      | cons first more => exact ih first (hparts ▸ List.mem_cons_self)
    have hcut : after? ['\r', '\n'] (c :: (parts rest).headD []) = none := by
      rw [after?]
      split
      · rename_i hc
        cases hpart : (parts rest).headD [] with
        | nil => rfl
        | cons d part =>
          obtain ⟨more, rfl⟩ := exists_cons_of_headD_parts hpart
          rw [after?, if_neg]
          rintro rfl
          exact hne more hc.symm rfl
      · rfl
    rw [parts.eq_3 c rest hne]
    exact List.forall_mem_cons.2 ⟨unbroken_cons.2 ⟨hcut, hfirst⟩, fun line hline =>
      ih line (List.mem_of_mem_tail hline)⟩

theorem parts_append {line : List Char} (h : Unbroken line) (text : List Char) :
    parts (line ++ '\r' :: '\n' :: text) = line :: parts text := by
  induction line with
  | nil => rfl
  | cons c line ih =>
    obtain ⟨hc, hline⟩ := unbroken_cons.1 h
    have hfirst : after? ['\r', '\n'] (c :: (line ++ '\r' :: '\n' :: text)) = none :=
      (after?_append_cons (by decide) _ _).2 hc
    rw [List.cons_append, parts_cons hfirst, ih hline]
    rfl

theorem parts_self {line : List Char} (h : Unbroken line) : parts line = [line] := by
  induction line with
  | nil => rfl
  | cons c line ih =>
    obtain ⟨hc, hline⟩ := unbroken_cons.1 h
    rw [parts_cons hc, ih hline]
    rfl

theorem parts_joined {line : List Char} {rest : List (List Char)}
    (h : ∀ l ∈ line :: rest, Unbroken l) : parts (joined line rest) = line :: rest := by
  induction rest generalizing line with
  | nil =>
    rw [joined, List.flatMap_nil, List.append_nil]
    exact parts_self (h line List.mem_cons_self)
  | cons next rest ih =>
    rw [joined_cons, parts_append (h line List.mem_cons_self),
      ih fun l hl => h l (List.mem_cons_of_mem _ hl)]

theorem after?_append_eq_none {mark text : List Char} (h : after? mark text = none)
    (more : List Char) : after? (mark ++ more) text = none := by
  induction mark generalizing text with
  | nil => cases h
  | cons m mark ih =>
    cases text with
    | nil => rfl
    | cons c text =>
      rw [List.cons_append]
      unfold after? at h ⊢
      split at h
      · rw [if_pos ‹_›]
        exact ih h
      · rw [if_neg ‹_›]

/-- No empty line begins inside of a line. -/
theorem cutAtText?_line {line : List Char} (h : Unbroken line) (text : List Char) :
    cutAtText? ['\r', '\n', '\r', '\n'] (line ++ '\r' :: text) =
      (cutAtText? ['\r', '\n', '\r', '\n'] ('\r' :: text)).map fun cut =>
        (line ++ cut.1, cut.2) := by
  induction line with
  | nil => simp
  | cons c line ih =>
    obtain ⟨hc, hline⟩ := unbroken_cons.1 h
    have hfirst : after? ['\r', '\n'] (c :: (line ++ '\r' :: text)) = none :=
      (after?_append_cons (by decide) _ _).2 hc
    have hempty : after? ['\r', '\n', '\r', '\n'] (c :: (line ++ '\r' :: text)) = none :=
      after?_append_eq_none hfirst ['\r', '\n']
    rw [List.cons_append, cutAtText?_skip hempty, ih hline, Option.map_map]
    rfl

/-- The first empty line is the one behind the last of the lines. -/
theorem cutAtText?_joined {line : List Char} {rest : List (List Char)}
    (h : ∀ l ∈ line :: rest, Unbroken l ∧ l ≠ []) (body : List Char) :
    cutAtText? ['\r', '\n', '\r', '\n'] (joined line rest ++ '\r' :: '\n' :: '\r' :: '\n' :: body) =
      some (joined line rest, body) := by
  induction rest generalizing line with
  | nil =>
    have hend : cutAtText? ['\r', '\n', '\r', '\n'] ('\r' :: '\n' :: '\r' :: '\n' :: body) =
        some ([], body) := cutAtText?_mark ['\n', '\r', '\n'] body
    rw [joined, List.flatMap_nil, List.append_nil, cutAtText?_line (h line (by simp)).1, hend]
    simp
  | cons next rest ih =>
    obtain ⟨hnext, hne⟩ := h next (by simp)
    obtain ⟨c, cs, rfl⟩ := List.exists_cons_of_ne_nil hne
    have hcut : after? ['\r', '\n'] (joined (c :: cs) rest ++
        '\r' :: '\n' :: '\r' :: '\n' :: body) = none := by
      rw [joined, List.cons_append, List.cons_append]
      cases rest with
      | nil =>
        rw [List.flatMap_nil, List.append_nil]
        exact (after?_append_cons (by decide) _ _).2 (unbroken_cons.1 hnext).1
      | cons second rest =>
        rw [List.flatMap_cons, List.append_assoc, List.cons_append, List.cons_append]
        exact (after?_append_cons (by decide) _ _).2 (unbroken_cons.1 hnext).1
    have hfeed : after? ['\r', '\n', '\r', '\n'] ('\r' :: '\n' :: (joined (c :: cs) rest ++
        '\r' :: '\n' :: '\r' :: '\n' :: body)) = none := by
      simpa [after?] using hcut
    rw [joined_cons, List.append_assoc, List.cons_append, List.cons_append,
      cutAtText?_line (h line (by simp)).1, cutAtText?_skip hfeed,
      cutAtText?_skip (by simp [after?]), ih fun l hl => h l (List.mem_cons_of_mem _ hl)]
    rfl

/-! ## Bytes -/

theorem byteLength_cons (c : Char) (text : List Char) :
    byteLength (c :: text) = c.utf8Size + byteLength text := rfl

theorem splitBytes?_append (text rest : List Char) (count : Nat) :
    splitBytes? (byteLength text + count) (text ++ rest) =
      (splitBytes? count rest).map fun cut => (text ++ cut.1, cut.2) := by
  induction text with
  | nil => simp [byteLength]
  | cons c text ih =>
    have hpos := c.utf8Size_pos
    obtain ⟨n, hn⟩ : ∃ n, byteLength (c :: text) + count = n + 1 :=
      ⟨byteLength (c :: text) + count - 1, by rw [byteLength_cons]; omega⟩
    have hleft : n + 1 - c.utf8Size = byteLength text + count := by
      rw [byteLength_cons] at hn
      omega
    rw [hn, List.cons_append, splitBytes?, if_pos (by rw [byteLength_cons] at hn; omega), hleft, ih,
      Option.map_map]
    rfl

theorem splitBytes?_self (text rest : List Char) :
    splitBytes? (byteLength text) (text ++ rest) = some (text, rest) := by
  have h := splitBytes?_append text rest 0
  cases rest <;> simpa [splitBytes?] using h

/-- No cut falls inside a character. -/
theorem splitBytes?_inside {c : Char} {count : Nat} (hpos : 0 < count) (h : count < c.utf8Size)
    (rest : List Char) : splitBytes? count (c :: rest) = none := by
  obtain ⟨n, rfl⟩ : ∃ n, count = n + 1 := ⟨count - 1, by omega⟩
  rw [splitBytes?, if_neg (by omega)]

/-! ## Numbers -/

/-- Digits of base 16, in either case and maybe with zeros in front, and their number. -/
def Hexadecimal (digits : List Char) (number : Nat) : Prop :=
  digits ≠ [] ∧ ∃ values, List.Forall₂ (fun c value => hexValue? c = some value) digits values ∧
    number = Nat.ofDigits 16 values.reverse

theorem toNat_of_hexValue? {c : Char} {value : Nat} (h : hexValue? c = some value) :
    48 ≤ c.toNat ∧ c.toNat ≤ 57 ∨ 97 ≤ c.toNat ∧ c.toNat ≤ 102 ∨ 65 ≤ c.toNat ∧ c.toNat ≤ 70 := by
  unfold hexValue? at h
  split_ifs at h with hdigit hlower hupper
  · exact .inl hdigit
  · exact .inr (.inl hlower)
  · exact .inr (.inr hupper)

theorem Hexadecimal.value_of_mem {digits : List Char} {number : Nat}
    (h : Hexadecimal digits number) {c : Char} (hc : c ∈ digits) :
    ∃ value, hexValue? c = some value := by
  obtain ⟨-, values, hvalues, -⟩ := h
  obtain ⟨i, hi, rfl⟩ := List.getElem_of_mem hc
  have hi' : i < values.length := hvalues.length_eq ▸ hi
  exact ⟨values[i], (List.forall₂_iff_get.mp hvalues).2 i hi hi'⟩

theorem Hexadecimal.not_blank {digits : List Char} {number : Nat} (h : Hexadecimal digits number) :
    ∀ c ∈ digits, isBlank c = false := by
  intro c hc
  obtain ⟨value, hvalue⟩ := h.value_of_mem hc
  have := toNat_of_hexValue? hvalue
  simp only [isBlank, blankRanges, List.any_cons, List.any_nil]
  simp
  omega

theorem Hexadecimal.not_mem {digits : List Char} {number : Nat} (h : Hexadecimal digits number)
    {c : Char} (hc : hexValue? c = none) : c ∉ digits := fun hmem => by
  obtain ⟨value, hvalue⟩ := h.value_of_mem hmem
  simp [hc] at hvalue

theorem foldl_eq_ofDigits (first : Nat) (rest : List Nat) :
    rest.foldl (fun n v => n * 16 + v) first = Nat.ofDigits 16 (first :: rest).reverse := by
  induction rest generalizing first with
  | nil => simp
  | cons v rest ih =>
    rw [List.foldl_cons, ih]
    simp only [List.reverse_cons, Nat.ofDigits_append, List.length_append, List.length_reverse,
      List.length_singleton, Nat.ofDigits_singleton, pow_succ]
    ring

theorem mapM_eq_some_of_forall₂ {α β : Type} {f : α → Option β} {xs : List α} {ys : List β}
    (h : List.Forall₂ (fun x y => f x = some y) xs ys) : xs.mapM f = some ys := by
  induction h with
  | nil => rfl
  | cons hx _ ih => simp [List.mapM_cons, hx, ih]

theorem skipPlus_eq_self {text : List Char} (h : '+' ∉ text) : skipPlus text = text := by
  cases text with
  | nil => rfl
  | cons c rest =>
    have hc : '+' ≠ c := fun heq => h (heq ▸ List.mem_cons_self)
    simp [skipPlus, after?, hc]

theorem Hexadecimal.read {digits : List Char} {number : Nat} (h : Hexadecimal digits number) :
    hexadecimal64? digits = if number < UInt64.size then some number else none := by
  have hplus : skipPlus digits = digits := skipPlus_eq_self (h.not_mem rfl)
  obtain ⟨hne, values, hvalues, rfl⟩ := h
  cases values with
  | nil => exact absurd (List.forall₂_nil_right_iff.mp hvalues) hne
  | cons first rest =>
    simp only [hexadecimal64?, hplus, mapM_eq_some_of_forall₂ hvalues, foldl_eq_ofDigits]

theorem isDigit_eq (c : Char) : isDigit c = c.isDigit := by
  simp [isDigit, Char.isDigit, Char.le_def]

theorem isDigit_of_mem_toDigits {n : Nat} {c : Char} (h : c ∈ Nat.toDigits 10 n) :
    isDigit c = true :=
  (isDigit_eq c).trans (Nat.isDigit_of_mem_toDigits (by decide) (by decide) h)

theorem not_blank_of_isDigit {c : Char} (h : isDigit c = true) : isBlank c = false := by
  simp only [isDigit, Bool.and_eq_true, decide_eq_true_eq] at h
  obtain ⟨hlow, hhigh⟩ := h
  have hlow : 48 ≤ c.toNat := hlow
  have hhigh : c.toNat ≤ 57 := hhigh
  simp only [isBlank, blankRanges, List.any_cons, List.any_nil]
  simp
  omega

theorem decimal_toDigits (n : Nat) : decimal (Nat.toDigits 10 n) = n := by
  have hn : Nat.ofDigitChars 10 (Nat.toDigits 10 n) 0 = n := Nat.ofDigitChars_ten_toDigits
  simpa only [decimal, digitValue, Nat.ofDigitChars, Nat.mul_comm 10] using hn

theorem decimal16?_toDigits {n : Nat} (h : n < UInt16.size) :
    decimal16? (Nat.toDigits 10 n) = some n := by
  have hplus : skipPlus (Nat.toDigits 10 n) = Nat.toDigits 10 n :=
    skipPlus_eq_self fun hmem => absurd (isDigit_of_mem_toDigits hmem) (by decide)
  have hdigits : (Nat.toDigits 10 n).all isDigit = true :=
    List.all_eq_true.mpr fun _ hc => isDigit_of_mem_toDigits hc
  simp [decimal16?, hplus, hdigits, decimal_toDigits, h]

end GraphQLClient.Text
