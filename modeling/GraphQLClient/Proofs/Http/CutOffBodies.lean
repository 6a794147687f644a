import GraphQLClient.Proofs.Http.ChunkedBodies
import GraphQLClient.Proofs.Text.LineEnds

set_option autoImplicit false

/-!
# Bodies that are cut off

A chunked body as a text, with either kind of line ends. Each of its characters belongs to the text of a
chunk or to the framing around it. Wherever the text is cut off, exactly those characters in front of the
cut are read that belong to chunks: nothing of the framing, and nothing out of its place.
-/

namespace GraphQLClient

namespace Text

/-! ## Taking bytes off -/

theorem byteLength_append (text more : List Char) :
    byteLength (text ++ more) = byteLength text + byteLength more := by
  induction text with
  | nil => simp [byteLength]
  | cons c text ih => rw [List.cons_append, byteLength_cons, byteLength_cons, ih, Nat.add_assoc]

theorem byteLength_pos {text : List Char} (h : text ≠ []) : 0 < byteLength text := by
  obtain ⟨c, text, rfl⟩ := List.exists_cons_of_ne_nil h
  have := c.utf8Size_pos
  rw [byteLength_cons]
  omega

theorem eq_append_of_splitBytes? {count : Nat} {text : List Char} {cut : List Char × List Char}
    (h : splitBytes? count text = some cut) : text = cut.1 ++ cut.2 ∧ byteLength cut.1 = count := by
  induction text generalizing count cut with
  | nil =>
    cases count with
    | zero =>
      obtain rfl := Option.some.inj h
      exact ⟨rfl, rfl⟩
    | succ count => cases h
  | cons c text ih =>
    cases count with
    | zero =>
      obtain rfl := Option.some.inj h
      exact ⟨rfl, rfl⟩
    | succ count =>
      rw [splitBytes?] at h
      split at h
      · rename_i hsize
        obtain ⟨more, hmore, rfl⟩ := Option.map_eq_some_iff.1 h
        obtain ⟨htext, hcount⟩ := ih hmore
        refine ⟨by rw [htext]; rfl, ?_⟩
        rw [byteLength_cons, hcount]
        omega
      · cases h

/-- Bytes are taken off exactly where the text begins with whole characters of that many bytes. -/
theorem splitBytes?_eq_some_iff {count : Nat} {text : List Char} {cut : List Char × List Char} :
    splitBytes? count text = some cut ↔ text = cut.1 ++ cut.2 ∧ byteLength cut.1 = count := by
  refine ⟨eq_append_of_splitBytes?, ?_⟩
  rintro ⟨rfl, rfl⟩
  exact splitBytes?_self cut.1 cut.2

/-- No more bytes are taken off than there are. -/
theorem splitBytes?_eq_none {count : Nat} {text : List Char} (h : byteLength text < count) :
    splitBytes? count text = none := by
  cases hcut : splitBytes? count text with
  | none => rfl
  | some cut =>
    obtain ⟨rfl, rfl⟩ := eq_append_of_splitBytes? hcut
    rw [byteLength_append] at h
    omega

end Text

namespace Chunked
open Text

/-! ## Bodies as texts -/

/-- A line that gives a size: its digits, and what is behind a semicolon. -/
structure SizeLine (size : Nat) where
  digits : List Char
  extension : Option (List Char)
  sized : Hexadecimal digits size
  unbroken : ∀ text ∈ extension, '\n' ∉ text

/-- A text in a chunk, and the line in front of it. A size is a number of 64 bits. -/
structure TextChunk where
  text : List Char
  line : SizeLine (byteLength text)
  nonempty : text ≠ []
  fits : byteLength text < UInt64.size

/-- Texts in chunks, up to the line of the chunk of size zero and what comes behind it. -/
structure ChunkedText where
  lineEnd : LineEnd
  chunks : List TextChunk
  last : SizeLine 0
  trailer : List Char

def SizeLine.skipped {size : Nat} (line : SizeLine size) : List Char :=
  match line.extension with
  | none => []
  | some text => ';' :: text

def SizeLine.text {size : Nat} (line : SizeLine size) : List Char := line.digits ++ line.skipped

def TextChunk.written (lineEnd : LineEnd) (chunk : TextChunk) : List Char :=
  chunk.line.text ++ lineEnd.text ++ (chunk.text ++ lineEnd.text)

namespace ChunkedText
variable (whole : ChunkedText)

/-- The text that is sent. -/
def text : List Char :=
  whole.chunks.flatMap (·.written whole.lineEnd) ++
    (whole.last.text ++ whole.lineEnd.text ++ whole.trailer)

/-- The text that is meant. -/
def body : List Char := whole.chunks.flatMap TextChunk.text

end ChunkedText

/-! ## What belongs to the body -/

/-- Characters, each with whether it belongs to the text of a chunk. -/
abbrev Marked := List (Char × Bool)

namespace Marked

def framing (text : List Char) : Marked := text.map (·, false)

def content (text : List Char) : Marked := text.map (·, true)

def text (marked : Marked) : List Char := marked.map Prod.fst

def body (marked : Marked) : List Char := (marked.filter Prod.snd).map Prod.fst

theorem text_append (a b : Marked) : text (a ++ b) = text a ++ text b := List.map_append

theorem body_append (a b : Marked) : body (a ++ b) = body a ++ body b := by
  rw [body, List.filter_append, List.map_append]
  rfl

theorem text_framing (line : List Char) : text (framing line) = line := by
  simp [text, framing, Function.comp_def]

theorem text_content (line : List Char) : text (content line) = line := by
  simp [text, content, Function.comp_def]

theorem body_framing (line : List Char) : body (framing line) = [] := by
  simp [body, framing, List.filter_map, Function.comp_def]

theorem body_content (line : List Char) : body (content line) = line := by
  simp [body, content, List.filter_map, Function.comp_def]

theorem take_framing (line : List Char) (n : Nat) : (framing line).take n = framing (line.take n) :=
  List.map_take.symm

theorem take_content (line : List Char) (n : Nat) : (content line).take n = content (line.take n) :=
  List.map_take.symm

end Marked

open Marked

def TextChunk.marked (lineEnd : LineEnd) (chunk : TextChunk) : Marked :=
  framing (chunk.line.text ++ lineEnd.text) ++ (content chunk.text ++ framing lineEnd.text)

/-- The text that is sent, with the marks. -/
def ChunkedText.marked (whole : ChunkedText) : Marked :=
  whole.chunks.flatMap (·.marked whole.lineEnd) ++
    framing (whole.last.text ++ whole.lineEnd.text ++ whole.trailer)

theorem TextChunk.text_marked (lineEnd : LineEnd) (chunk : TextChunk) :
    Marked.text (chunk.marked lineEnd) = chunk.written lineEnd := by
  rw [marked, text_append, text_append, text_framing, text_content, text_framing]
  rfl

theorem TextChunk.body_marked (lineEnd : LineEnd) (chunk : TextChunk) :
    Marked.body (chunk.marked lineEnd) = chunk.text := by
  rw [marked, body_append, body_append, body_framing, body_content, body_framing, List.nil_append,
    List.append_nil]

theorem ChunkedText.text_marked (whole : ChunkedText) : Marked.text whole.marked = whole.text := by
  have hchunks : ∀ chunks : List TextChunk, Marked.text (chunks.flatMap (·.marked whole.lineEnd)) =
      chunks.flatMap (·.written whole.lineEnd) := by
    intro chunks
    induction chunks with
    | nil => rfl
    | cons chunk chunks ih =>
      rw [List.flatMap_cons, List.flatMap_cons, text_append, chunk.text_marked, ih]
  rw [marked, text_append, hchunks, text_framing]
  rfl

theorem ChunkedText.body_marked (whole : ChunkedText) : Marked.body whole.marked = whole.body := by
  have hchunks : ∀ chunks : List TextChunk, Marked.body (chunks.flatMap (·.marked whole.lineEnd)) =
      chunks.flatMap TextChunk.text := by
    intro chunks
    induction chunks with
    | nil => rfl
    | cons chunk chunks ih =>
      rw [List.flatMap_cons, List.flatMap_cons, body_append, chunk.body_marked, ih]
  rw [marked, body_append, hchunks, body_framing, List.append_nil]
  rfl

/-! ## Reading up to a cut -/

theorem SizeLine.passed {size : Nat} (line : SizeLine size) (lineEnd : LineEnd) :
    Passed (line.skipped ++ lineEnd.start) ∧ '\n' ∉ line.skipped ++ lineEnd.start := by
  have hfeed := lineEnd.feed_not_mem_start
  unfold skipped
  cases hext : line.extension with
  | none => exact ⟨.inl lineEnd.start_blank, hfeed⟩
  | some text =>
    have htext : '\n' ∉ text := line.unbroken text hext
    exact ⟨.inr ⟨_, rfl⟩, List.not_mem_append (by simpa using htext) hfeed⟩

theorem SizeLine.feed_not_mem {size : Nat} (line : SizeLine size) : '\n' ∉ line.text :=
  List.not_mem_append (line.sized.not_mem rfl) fun hmem =>
    (line.passed .lf).2 (List.mem_append_left _ hmem)

/-- A line of a size and its end are read as its number; the rest decides. -/
theorem readFrom_sizeLine {size : Nat} (line : SizeLine size) (lineEnd : LineEnd)
    (hfits : size < UInt64.size) (fuel : Nat) (rest : List Char) :
    readFrom (fuel + 1) (line.text ++ lineEnd.text ++ rest) =
      if size = 0 then .ok []
      else
        match splitBytes? size rest with
        | none => .ok rest
        | some (chunk, rest) => (readFrom fuel (skipLineEnd rest)).map (chunk ++ ·) := by
  obtain ⟨hpassed, hfeed⟩ := line.passed lineEnd
  have htext : line.text ++ lineEnd.text ++ rest =
      line.digits ++ (line.skipped ++ lineEnd.start) ++ '\n' :: rest := by
    simp [SizeLine.text, LineEnd.text]
  rw [htext]
  exact (readFrom_line line.sized hpassed hfeed fuel rest).trans (if_pos hfits)

/-- Without a line feed there is no size. -/
theorem readFrom_no_line {text : List Char} (h : '\n' ∉ text) (fuel : Nat) :
    readFrom fuel text = .ok [] := by
  cases fuel with
  | zero => rfl
  | succ fuel => rw [readFrom, cutAt?_eq_none h]

/-- A line that is cut off has no line feed. -/
theorem feed_not_mem_take {line : List Char} (h : '\n' ∉ line) (lineEnd : LineEnd) {n : Nat}
    (hn : n < (line ++ lineEnd.text).length) : '\n' ∉ (line ++ lineEnd.text).take n := by
  have hfeed : '\n' ∉ line ++ lineEnd.start := List.not_mem_append h lineEnd.feed_not_mem_start
  have hsplit : line ++ lineEnd.text = line ++ lineEnd.start ++ ['\n'] :=
    (List.append_assoc line lineEnd.start ['\n']).symm
  rw [hsplit, List.length_append, List.length_singleton] at hn
  rw [hsplit, List.take_append_of_le_length (by omega)]
  exact fun hmem => hfeed (List.mem_of_mem_take hmem)

theorem skipLineEnd_text (lineEnd : LineEnd) (rest : List Char) :
    skipLineEnd (lineEnd.text ++ rest) = rest := by
  cases lineEnd <;> rfl

/-- A line end that is cut off may be passed over or stay; no line follows it. -/
theorem feed_not_mem_skipLineEnd {lineEnd : LineEnd} {n : Nat} (hn : n < lineEnd.text.length) :
    '\n' ∉ skipLineEnd (lineEnd.text.take n) := by
  cases lineEnd with
  | crlf =>
    have : n = 0 ∨ n = 1 := by simp [LineEnd.text, LineEnd.start] at hn; omega
    rcases this with rfl | rfl <;> decide
  | lf =>
    have : n = 0 := by simpa [LineEnd.text, LineEnd.start] using hn
    subst this
    decide

/-- A cut is in the first of two parts, or the first is there as a whole. -/
theorem take_append_cases {α : Type} (a b : List α) (n : Nat) :
    n < a.length ∧ (a ++ b).take n = a.take n ∨ ∃ m, (a ++ b).take n = a ++ b.take m := by
  rcases Nat.lt_or_ge n a.length with hn | hn
  · exact .inl ⟨hn, List.take_append_of_le_length (Nat.le_of_lt hn)⟩
  · obtain ⟨m, rfl⟩ := Nat.exists_eq_add_of_le hn
    exact .inr ⟨m, List.take_length_add_append m⟩

/-- Wherever the text is cut off, just what belongs to the body in front of the cut is read. -/
def ReadsCut (marked : Marked) : Prop :=
  ∀ n fuel, (Marked.text (marked.take n)).length < fuel →
    readFrom fuel (Marked.text (marked.take n)) = .ok (Marked.body (marked.take n))

theorem TextChunk.byteLength_ne_zero (chunk : TextChunk) : byteLength chunk.text ≠ 0 :=
  Nat.ne_of_gt (byteLength_pos chunk.nonempty)

/-- The text of a chunk that is cut off ends the body. -/
theorem readFrom_text_cut (chunk : TextChunk) (lineEnd : LineEnd) {n : Nat}
    (hn : n < chunk.text.length) (fuel : Nat) :
    readFrom (fuel + 1) (chunk.line.text ++ lineEnd.text ++ chunk.text.take n) =
      .ok (chunk.text.take n) := by
  have hleft : chunk.text.drop n ≠ [] := by simpa using hn
  have hshort : byteLength (chunk.text.take n) < byteLength chunk.text := by
    have hsum := byteLength_append (chunk.text.take n) (chunk.text.drop n)
    rw [List.take_append_drop] at hsum
    have hpos := byteLength_pos hleft
    omega
  rw [readFrom_sizeLine chunk.line lineEnd chunk.fits, if_neg chunk.byteLength_ne_zero,
    splitBytes?_eq_none hshort]

/-- The text of a chunk is taken off, and reading goes on behind the line end. -/
theorem readFrom_text (chunk : TextChunk) (lineEnd : LineEnd) (rest : List Char) (fuel : Nat) :
    readFrom (fuel + 1) (chunk.line.text ++ lineEnd.text ++ (chunk.text ++ rest)) =
      (readFrom fuel (skipLineEnd rest)).map (chunk.text ++ ·) := by
  rw [readFrom_sizeLine chunk.line lineEnd chunk.fits, if_neg chunk.byteLength_ne_zero,
    splitBytes?_self]

/-- The cut is in the line in front of a chunk, in its text, in the line end behind it or in what
follows. -/
theorem readsCut_chunk (lineEnd : LineEnd) (chunk : TextChunk) {rest : Marked} (h : ReadsCut rest) :
    ReadsCut (chunk.marked lineEnd ++ rest) := by
  intro n fuel hfuel
  rw [TextChunk.marked, List.append_assoc, List.append_assoc] at hfuel ⊢
  obtain ⟨hn, hcut⟩ | ⟨m, hcut⟩ := take_append_cases (framing (chunk.line.text ++ lineEnd.text))
    (content chunk.text ++ (framing lineEnd.text ++ rest)) n
  · rw [framing, List.length_map] at hn
    rw [hcut, take_framing, text_framing, body_framing]
    exact readFrom_no_line (feed_not_mem_take chunk.line.feed_not_mem lineEnd hn) fuel
  obtain ⟨fuel, rfl⟩ : ∃ k, fuel = k + 1 := ⟨fuel - 1, by omega⟩
  rw [hcut, text_append, text_framing] at hfuel ⊢
  rw [body_append, body_framing, List.nil_append]
  obtain ⟨hm, hcut⟩ | ⟨k, hcut⟩ := take_append_cases (content chunk.text)
    (framing lineEnd.text ++ rest) m
  · rw [content, List.length_map] at hm
    rw [hcut, take_content, text_content, body_content]
    exact readFrom_text_cut chunk lineEnd hm fuel
  rw [hcut, text_append, text_content] at hfuel ⊢
  rw [body_append, body_content, readFrom_text]
  obtain ⟨hk, hcut⟩ | ⟨l, hcut⟩ := take_append_cases (framing lineEnd.text) rest k
  · rw [framing, List.length_map] at hk
    rw [hcut, take_framing, text_framing, body_framing, readFrom_no_line (feed_not_mem_skipLineEnd hk)]
    rfl
  · rw [hcut, text_append, text_framing] at hfuel ⊢
    have hpos : lineEnd.text.length ≠ 0 := by cases lineEnd <;> decide
    simp only [List.length_append] at hfuel
    rw [body_append, body_framing, skipLineEnd_text, h l fuel (by omega)]
    rfl

/-- Behind the size zero nothing is read. -/
theorem readsCut_last (lineEnd : LineEnd) (last : SizeLine 0) (trailer : List Char) :
    ReadsCut (framing (last.text ++ lineEnd.text ++ trailer)) := by
  intro n fuel hfuel
  rw [take_framing, text_framing, body_framing] at *
  obtain ⟨hn, hcut⟩ | ⟨m, hcut⟩ := take_append_cases (last.text ++ lineEnd.text) trailer n
  · rw [hcut]
    exact readFrom_no_line (feed_not_mem_take last.feed_not_mem lineEnd hn) _
  · obtain ⟨fuel, rfl⟩ : ∃ k, fuel = k + 1 := ⟨fuel - 1, by omega⟩
    have hzero : 0 < UInt64.size := by decide
    rw [hcut, readFrom_sizeLine last lineEnd hzero, if_pos rfl]

theorem ChunkedText.readsCut (whole : ChunkedText) : ReadsCut whole.marked := by
  have hchunks : ∀ chunks : List TextChunk, ReadsCut (chunks.flatMap (·.marked whole.lineEnd) ++
      framing (whole.last.text ++ whole.lineEnd.text ++ whole.trailer)) := by
    intro chunks
    induction chunks with
    | nil => exact readsCut_last whole.lineEnd whole.last whole.trailer
    | cons chunk chunks ih =>
      rw [List.flatMap_cons, List.append_assoc]
      exact readsCut_chunk whole.lineEnd chunk ih
  exact hchunks whole.chunks

theorem ChunkedText.read_take (whole : ChunkedText) (n : Nat) :
    read (whole.text.take n) = .ok (Marked.body (whole.marked.take n)) := by
  have htext : whole.text.take n = Marked.text (whole.marked.take n) := by
    rw [← whole.text_marked]
    exact List.map_take.symm
  rw [htext]
  exact whole.readsCut n _ (Nat.lt_succ_self _)

/-- What is in front of a cut is the beginning of the body. -/
theorem ChunkedText.body_take_prefix (whole : ChunkedText) (n : Nat) :
    Marked.body (whole.marked.take n) <+: whole.body := by
  rw [← whole.body_marked]
  exact ((List.take_prefix n whole.marked).filter _).map _

/-- A text in chunks gives the texts of the chunks, one after the other. Cut off after any number of
characters it gives just the characters of chunks in front of the cut, which are a beginning of them. And
whatever the text, a chunk is taken off only where the text begins with whole characters of as many bytes
as its size says. -/
theorem ChunkedText.read_received (whole : ChunkedText) :
    read whole.text = .ok whole.body ∧
    (∀ n, read (whole.text.take n) = .ok (Marked.body (whole.marked.take n)) ∧
      Marked.body (whole.marked.take n) <+: whole.body) ∧
    ∀ size text cut, splitBytes? size text = some cut ↔ text = cut.1 ++ cut.2 ∧ byteLength cut.1 = size := by
  refine ⟨?_, fun n => ⟨whole.read_take n, whole.body_take_prefix n⟩,
    fun _ _ _ => splitBytes?_eq_some_iff⟩
  have hall := whole.read_take whole.marked.length
  rwa [← whole.text_marked, List.take_of_length_le (by simp [Marked.text]), List.take_length,
    whole.body_marked, whole.text_marked] at hall

/-- Two chunks; the second has an extension, and its text looks like a size line. -/
def sizeLikeText : ChunkedText where
  lineEnd := .crlf
  chunks :=
    [⟨"héllo".toList, ⟨['0', '6'], none, ⟨by decide, [0, 6], by decide, rfl⟩, nofun⟩,
        by decide, by decide⟩,
      ⟨"\n1;x\r\nA".toList, ⟨['7'], some "n=1".toList, ⟨by decide, [7], by decide, rfl⟩,
        by decide⟩, by decide, by decide⟩]
  last := ⟨['0'], none, ⟨by decide, [0], by decide, rfl⟩, nofun⟩
  trailer := ['\r', '\n']

/-- Cut off behind a line end inside of the second chunk. -/
theorem sizeLike_received :
    sizeLikeText.text = "06\r\nhéllo\r\n7;n=1\r\n\n1;x\r\nA\r\n0\r\n\r\n".toList ∧
      read sizeLikeText.text = .ok "héllo\n1;x\r\nA".toList ∧
      read (sizeLikeText.text.take 24) = .ok "héllo\n1;x\r\n".toList :=
  ⟨by decide +kernel, sizeLikeText.read_received.1, (sizeLikeText.read_received.2.1 24).1⟩

end Chunked

end GraphQLClient
