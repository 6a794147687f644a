import GraphQLClient.Proofs.Text.Cuts

set_option autoImplicit false

/-!
# Lines with either end

A line ends with a line feed, in some texts with a carriage return in front of it. Lines that have
neither of the two inside come back from a text with both kinds of ends, and so does what stands behind
the first empty line, as long as no empty line of the other kind is found first.
-/

namespace GraphQLClient.Text

inductive LineEnd where
  | crlf
  | lf
deriving DecidableEq, Repr

namespace LineEnd

/-- What belongs to the line end in front of its line feed. -/
def start : LineEnd → List Char
  | crlf => ['\r']
  | lf => []

def text (lineEnd : LineEnd) : List Char := lineEnd.start ++ ['\n']

theorem feed_not_mem_start (lineEnd : LineEnd) : '\n' ∉ lineEnd.start := by
  cases lineEnd <;> decide

theorem start_blank (lineEnd : LineEnd) : ∀ c ∈ lineEnd.start, isBlank c = true := by
  cases lineEnd with
  | crlf => exact List.forall_mem_singleton.2 (by decide)
  | lf => exact fun _ h => absurd h List.not_mem_nil

end LineEnd

theorem cutAt?_eq_none {mark : Char} {text : List Char} (h : mark ∉ text) :
    cutAt? mark text = none := by
  induction text with
  | nil => rfl
  | cons c text ih =>
    rw [List.mem_cons, not_or] at h
    rw [cutAt?, if_neg (Ne.symm h.1), ih h.2]
    rfl

/-! ## Whole marks -/

theorem eq_append_of_cutAtText? {mark text before after : List Char}
    (h : cutAtText? mark text = some (before, after)) : text = before ++ (mark ++ after) := by
  induction text generalizing before with
  | nil =>
    rw [cutAtText?] at h
    split at h
    · rename_i hmark
      obtain ⟨rfl, rfl⟩ := Prod.mk.inj (Option.some.inj h)
      rw [List.isEmpty_iff.1 hmark]
      rfl
    · cases h
  | cons c text ih =>
    cases hafter : after? mark (c :: text) with
    | some rest =>
      rw [cutAtText?, hafter] at h
      obtain ⟨hbefore, hrest⟩ := Prod.mk.inj (Option.some.inj h)
      rw [← hbefore, ← hrest, List.nil_append]
      exact eq_append_of_after? hafter
    | none =>
      rw [cutAtText?_skip hafter] at h
      obtain ⟨⟨front, rest⟩, hcut, hrest⟩ := Option.map_eq_some_iff.1 h
      obtain ⟨rfl, rfl⟩ := Prod.mk.inj hrest
      rw [ih hcut]
      rfl

/-- A text is cut at a mark exactly if the mark is in it. -/
theorem isSome_cutAtText?_iff {m : Char} {mark text : List Char} :
    (cutAtText? (m :: mark) text).isSome ↔ (m :: mark) <:+: text := by
  constructor
  · intro h
    obtain ⟨⟨before, after⟩, hcut⟩ := Option.isSome_iff_exists.1 h
    exact ⟨before, after, by rw [eq_append_of_cutAtText? hcut, List.append_assoc]⟩
  · rintro ⟨before, after, rfl⟩
    rw [List.append_assoc]
    induction before with
    | nil => rw [List.nil_append, cutAtText?_mark, Option.isSome_some]
    | cons c before ih =>
      rw [List.cons_append]
      cases hafter : after? (m :: mark) (c :: (before ++ (m :: mark ++ after))) with
      | some rest => rw [cutAtText?, hafter, Option.isSome_some]
      | none => rw [cutAtText?_skip hafter, Option.isSome_map, ih]

/-- No mark begins where its first character is missing. -/
theorem cutAtText?_append {m : Char} {before : List Char} (h : m ∉ before) (mark text : List Char) :
    cutAtText? (m :: mark) (before ++ text) =
      (cutAtText? (m :: mark) text).map fun cut => (before ++ cut.1, cut.2) := by
  induction before with
  | nil => simp
  | cons c before ih =>
    rw [List.mem_cons, not_or] at h
    have hskip : after? (m :: mark) (c :: (before ++ text)) = none := by rw [after?, if_neg h.1]
    rw [List.cons_append, cutAtText?_skip hskip, ih h.2, Option.map_map]
    rfl

/-! ## Rows of lines -/

/-- Lines with a line end between any two of them. -/
def rows (lineEnd : LineEnd) (line : List Char) (rest : List (List Char)) : List Char :=
  line ++ rest.flatMap (lineEnd.text ++ ·)

theorem rows_crlf (line : List Char) (rest : List (List Char)) :
    rows .crlf line rest = joined line rest := rfl

theorem rows_cons (lineEnd : LineEnd) (line next : List Char) (rest : List (List Char)) :
    rows lineEnd line (next :: rest) = line ++ (lineEnd.text ++ rows lineEnd next rest) := by
  simp [rows]

/-- Lines that all are ended. -/
theorem flatMap_lineEnd (lineEnd : LineEnd) (line : List Char) (rest : List (List Char)) :
    (line :: rest).flatMap (· ++ lineEnd.text) = rows lineEnd line rest ++ lineEnd.text := by
  induction rest generalizing line with
  | nil => simp [rows]
  | cons next rest ih => rw [List.flatMap_cons, ih, rows_cons]; simp

/-- The first line of a text. -/
theorem lines_line {line : List Char} (h : '\r' ∉ line ∧ '\n' ∉ line) (lineEnd : LineEnd) (text : List Char) :
    lines (line ++ (lineEnd.text ++ text)) = line :: lines text := by
  cases lineEnd with
  | crlf => exact lines_append h.2 text
  | lf =>
    have hkept : dropReturn line = line := by
      unfold dropReturn
      split
      · rename_i rest heq
        have hmem : '\r' ∈ line.reverse := heq ▸ List.mem_cons_self
        exact absurd (List.mem_reverse.1 hmem) h.1
      · rfl
    have hcut : linesFrom [] (line ++ '\n' :: text) = dropReturn line :: linesFrom [] text :=
      linesFrom_append h.2 text
    exact hcut.trans (by rw [hkept]; rfl)

theorem lines_rows {lineEnd : LineEnd} {line : List Char} {rest : List (List Char)}
    (h : ∀ l ∈ line :: rest, ('\r' ∉ l ∧ '\n' ∉ l) ∧ l ≠ []) : lines (rows lineEnd line rest) = line :: rest := by
  induction rest generalizing line with
  | nil =>
    obtain ⟨hline, hne⟩ := h line List.mem_cons_self
    rw [rows, List.flatMap_nil, List.append_nil]
    exact lines_last hline.2 hne
  | cons next rest ih =>
    rw [rows_cons, lines_line (h line List.mem_cons_self).1,
      ih fun l hl => h l (List.mem_cons_of_mem _ hl)]

theorem return_not_mem_rows {line : List Char} {rest : List (List Char)}
    (h : ∀ l ∈ line :: rest, ('\r' ∉ l ∧ '\n' ∉ l) ∧ l ≠ []) : '\r' ∉ rows .lf line rest := by
  rw [rows, List.mem_append, List.mem_flatMap]
  rintro (hmem | ⟨next, hnext, hmem⟩)
  · exact (h line List.mem_cons_self).1.1 hmem
  · have hline := (h next (List.mem_cons_of_mem _ hnext)).1.1
    simp [LineEnd.text, LineEnd.start, hline] at hmem

/-- With line feeds alone, too, the first empty line is the one behind the last of the lines. -/
theorem cutAtText?_rows {line : List Char} {rest : List (List Char)}
    (h : ∀ l ∈ line :: rest, ('\r' ∉ l ∧ '\n' ∉ l) ∧ l ≠ []) (body : List Char) :
    cutAtText? ['\n', '\n'] (rows .lf line rest ++ '\n' :: '\n' :: body) =
      some (rows .lf line rest, body) := by
  induction rest generalizing line with
  | nil =>
    have hmark : cutAtText? ['\n', '\n'] ('\n' :: '\n' :: body) = some ([], body) :=
      cutAtText?_mark ['\n'] body
    rw [rows, List.flatMap_nil, List.append_nil, cutAtText?_append (h line List.mem_cons_self).1.2,
      hmark, Option.map_some, List.append_nil]
  | cons next rest ih =>
    obtain ⟨hnext, hne⟩ := h next (by simp)
    obtain ⟨c, cs, rfl⟩ := List.exists_cons_of_ne_nil hne
    have hfeed : '\n' ≠ c := fun heq => hnext.2 (heq ▸ List.mem_cons_self)
    have hskip : ∀ more, after? ['\n', '\n'] ('\n' :: (rows .lf (c :: cs) rest ++ more)) = none := by
      intro more
      rw [rows, List.cons_append, List.cons_append, after?, if_pos rfl, after?, if_neg hfeed]
    have hrest := ih fun l hl => h l (List.mem_cons_of_mem _ hl)
    have htext : rows .lf line ((c :: cs) :: rest) ++ '\n' :: '\n' :: body =
        line ++ '\n' :: (rows .lf (c :: cs) rest ++ '\n' :: '\n' :: body) := by
      rw [rows_cons, List.append_assoc, List.append_assoc]
      rfl
    rw [htext, cutAtText?_append (h line List.mem_cons_self).1.2, cutAtText?_skip (hskip _), hrest,
      rows_cons]
    rfl

end GraphQLClient.Text
