import GraphQLClient.Http.Exchange
import GraphQLClient.Proofs.Http.ChunkedBodies

set_option autoImplicit false

/-!
# Answers in chunks

A good answer of a server whose body comes in chunks, as bytes, and what is read from it: the head
is found and understood whatever its reason and its other fields say, so the body alone decides.
-/

namespace GraphQLClient
open Text Utf8

namespace Text

theorem toLower_of_isBlank {c : Char} (h : isBlank c = true) : c.toLower = c := by
  simp only [isBlank, blankRanges, List.any_cons, List.any_nil, Bool.or_false, Bool.or_eq_true,
    Bool.and_eq_true, decide_eq_true_eq] at h
  have hupper : ¬ (65 ≤ c.toNat ∧ c.toNat ≤ 90) := by omega
  exact dif_neg hupper

theorem not_blank_of_any {text : List Char} (h : text.any isBlank = false) :
    ∀ c ∈ text, isBlank c = false := fun c hc => by
  simpa using List.any_eq_false.mp h c hc

/-- A character that the change of case keeps is in both of two texts that it makes equal. -/
theorem mem_of_sameIgnoringCase {a b : List Char} (h : sameIgnoringCase a b = true) {c : Char}
    (hc : c.toLower = c) (hmem : c ∈ a) : c ∈ lowerAscii b := by
  have hab : lowerAscii a = lowerAscii b := by simpa [sameIgnoringCase] using h
  rw [← hab, ← hc]
  exact List.mem_map_of_mem hmem

theorem not_blank_of_sameIgnoringCase {a b : List Char} (h : sameIgnoringCase a b = true)
    (hb : (lowerAscii b).any isBlank = false) : ∀ c ∈ a, isBlank c = false := by
  intro c hc
  by_contra hblank
  rw [Bool.not_eq_false] at hblank
  have hkept := not_blank_of_any hb c (mem_of_sameIgnoringCase h (toLower_of_isBlank hblank) hc)
  exact Bool.false_ne_true (hkept.symm.trans hblank)

/-- A blank in front and none in the text. -/
theorem trim_cons_blank {text : List Char} (h : ∀ c ∈ text, isBlank c = false) {blank : Char}
    (hblank : isBlank blank = true) : trim (blank :: text) = text := by
  rw [trim, trimStart, List.dropWhile_cons_of_pos hblank]
  exact trim_eq_self h

end Text

namespace Http

/-- A field of a head that says that the body comes in chunks. -/
def SaysChunked (field : String × String) : Prop :=
  sameIgnoringCase field.1.toList "transfer-encoding".toList = true ∧
    sameIgnoringCase field.2.toList "chunked".toList = true

instance (field : String × String) : Decidable (SaysChunked field) :=
  inferInstanceAs (Decidable (_ ∧ _))

theorem isChunkedHeader_headerLine {field : String × String} (h : SaysChunked field) :
    isChunkedHeader (headerLine field).toList = true := by
  obtain ⟨hname, hvalue⟩ := h
  have hcolon : ':' ∉ field.1.toList := fun hmem =>
    absurd (mem_of_sameIgnoringCase hname rfl hmem) (by decide)
  have hname' := not_blank_of_sameIgnoringCase hname (by decide)
  have hvalue' := not_blank_of_sameIgnoringCase hvalue (by decide)
  have hline : (headerLine field).toList = field.1.toList ++ ':' :: ' ' :: field.2.toList := by
    simp [headerLine]
  have hspace : isBlank ' ' = true := by decide
  rw [isChunkedHeader, hline, cutAt?_append hcolon]
  simp only [trim_eq_self hname', trim_cons_blank hvalue' hspace, hname, hvalue, Bool.and_self]

/-- Neither of the characters that end lines is in the text. -/
def OneLine (text : List Char) : Prop := '\r' ∉ text ∧ '\n' ∉ text

instance (text : List Char) : Decidable (OneLine text) := inferInstanceAs (Decidable (_ ∧ _))

/-- A good answer whose body comes in chunks. -/
structure ChunkedReply where
  status : Nat
  reason : List Char
  fields : List (String × String)
  chunks : List Chunked.Chunk
  good : 200 ≤ status ∧ status < 300
  reasonLine : OneLine reason
  fieldLines : ∀ field ∈ fields, OneLine (headerLine field).toList
  chunked : ∃ field ∈ fields, SaysChunked field

namespace ChunkedReply
variable (reply : ChunkedReply)

def digits : List Char := (toString reply.status).toList

theorem digits_good : reply.digits ≠ [] ∧ (∀ c ∈ reply.digits, isBlank c = false) ∧
    decimal16? reply.digits = some reply.status := by
  have hdigits : reply.digits = Nat.toDigits 10 reply.status := by
    rw [digits, Nat.toString_eq_repr, Nat.repr_eq_ofList_toDigits, String.toList_ofList]
  have hsize : reply.status < UInt16.size := Nat.lt_trans reply.good.2 (by decide)
  rw [hdigits]
  exact ⟨Nat.toDigits_ne_nil, fun c hc => not_blank_of_isDigit (isDigit_of_mem_toDigits hc),
    decimal16?_toDigits hsize⟩

def version : List Char := "HTTP/1.1".toList

def statusLine : List Char := version ++ ' ' :: (reply.digits ++ ' ' :: reply.reason)

def otherLines : List (List Char) := reply.fields.map fun field => (headerLine field).toList

def head : List Char := joined reply.statusLine reply.otherLines

def bytes : List UInt8 :=
  encode (reply.head ++ ['\r', '\n', '\r', '\n']) ++ Chunked.write reply.chunks

theorem version_plain : version ≠ [] ∧ ∀ c ∈ version, isBlank c = false :=
  ⟨by decide, not_blank_of_any (by decide)⟩

theorem status?_statusLine : status? reply.statusLine = some reply.status := by
  obtain ⟨hne, hplain, hread⟩ := reply.digits_good
  have hspace : isBlank ' ' = true := by decide
  rw [status?, statusLine, words_append version_plain.2 version_plain.1 hspace,
    words_append hplain hne hspace]
  exact hread

theorem oneLine_of_not_blank {text : List Char} (h : ∀ c ∈ text, isBlank c = false) :
    OneLine text := by
  have hreturn : isBlank '\r' = true := by decide
  have hfeed : isBlank '\n' = true := by decide
  exact ⟨fun hc => Bool.false_ne_true ((h _ hc).symm.trans hreturn),
    fun hc => Bool.false_ne_true ((h _ hc).symm.trans hfeed)⟩

theorem oneLine_statusLine : OneLine reply.statusLine := by
  have hversion := oneLine_of_not_blank version_plain.2
  have hdigits := oneLine_of_not_blank reply.digits_good.2.1
  have hreason := reply.reasonLine
  simp only [OneLine, statusLine, List.mem_append, List.mem_cons, not_or] at *
  exact ⟨⟨hversion.1, by decide, hdigits.1, by decide, hreason.1⟩,
    ⟨hversion.2, by decide, hdigits.2, by decide, hreason.2⟩⟩

theorem lines_plain : ∀ line ∈ reply.statusLine :: reply.otherLines, OneLine line ∧ line ≠ [] := by
  intro line hline
  rw [List.mem_cons, otherLines, List.mem_map] at hline
  obtain rfl | ⟨field, hfield, rfl⟩ := hline
  · exact ⟨reply.oneLine_statusLine, by simp [statusLine]⟩
  · exact ⟨reply.fieldLines field hfield, by simp [headerLine]⟩

theorem lines_head : Text.lines reply.head = reply.statusLine :: reply.otherLines :=
  lines_joined fun line hline =>
    ⟨(reply.lines_plain line hline).1.2, (reply.lines_plain line hline).2⟩

theorem cutBody?_head (body : List Char) :
    cutBody? (reply.head ++ ['\r', '\n', '\r', '\n'] ++ body) = some (reply.head, body) := by
  have hlines : ∀ line ∈ reply.statusLine :: reply.otherLines, Unbroken line ∧ line ≠ [] :=
    fun line hline => ⟨unbroken_of_not_mem (reply.lines_plain line hline).1.1,
      (reply.lines_plain line hline).2⟩
  have hcut := cutAtText?_joined hlines body
  have hmark : "\r\n\r\n".toList = ['\r', '\n', '\r', '\n'] := rfl
  have hend : ['\r', '\n', '\r', '\n'] ++ body = '\r' :: '\n' :: '\r' :: '\n' :: body := rfl
  rw [cutBody?, hmark, List.append_assoc, hend, head, hcut]
  rfl

/-- The first line of a text that begins with the head. -/
theorem lines_head_append (body : List Char) :
    ∃ rest, Text.lines (reply.head ++ ['\r', '\n', '\r', '\n'] ++ body) = reply.statusLine :: rest := by
  have hmore : ∃ more, reply.head ++ ['\r', '\n', '\r', '\n'] ++ body =
      reply.statusLine ++ '\r' :: '\n' :: more := by
    rw [head]
    cases reply.otherLines with
    | nil => exact ⟨'\r' :: '\n' :: body, by simp [joined]⟩
    | cons next more =>
      refine ⟨joined next more ++ ['\r', '\n', '\r', '\n'] ++ body, ?_⟩
      simp [joined_cons]
  obtain ⟨more, hmore⟩ := hmore
  rw [hmore]
  exact ⟨_, lines_append reply.oneLine_statusLine.2 more⟩

/-- The body of the answer is read in chunks. -/
theorem responseBody_head (body : List Char) :
    responseBody (reply.head ++ ['\r', '\n', '\r', '\n'] ++ body) = Chunked.read body := by
  obtain ⟨rest, hlines⟩ := reply.lines_head_append body
  obtain ⟨c, line, hline⟩ := List.exists_cons_of_ne_nil (reply.lines_plain _ List.mem_cons_self).2
  have hany : (Text.lines reply.head).any isChunkedHeader = true := by
    obtain ⟨field, hfield, hsays⟩ := reply.chunked
    rw [lines_head, List.any_eq_true]
    exact ⟨_, List.mem_cons_of_mem _ (List.mem_map_of_mem hfield), isChunkedHeader_headerLine hsays⟩
  have hstatus := reply.status?_statusLine
  rw [hline] at hlines hstatus
  simp only [responseBody, hlines, List.head?_cons, hstatus, if_pos reply.good, bodyOf,
    cutBody?_head, if_pos hany]

end ChunkedReply

end Http

/-! ## Posting -/

/-- An answer of which everything arrives is read as a text. -/
theorem HttpTransport.post_received (transport : HttpTransport) {wire : Wire}
    (headers : List (String × String)) (request : String) {endpoint : Endpoint}
    (hurl : Endpoint.ofUrl transport.url = .ok endpoint) (htime : wire.timeoutAt = none)
    (hfail : wire.failure = none) :
    (transport.post wire headers request).1 = Http.responseBody (Utf8.decode wire.reply) := by
  simp [post, hurl, htime, stageError, hfail]

/-- A good answer in chunks gives the body that was sent exactly if every chunk, of a size of at most
64 bits, is a text of its own: if no character stands across the end of a chunk. -/
theorem HttpTransport.post_chunked_eq_ok_iff (transport : HttpTransport) {wire : Wire}
    (headers : List (String × String)) (request : String) {endpoint : Endpoint}
    (hurl : Endpoint.ofUrl transport.url = .ok endpoint) (htime : wire.timeoutAt = none)
    (hfail : wire.failure = none) {reply : Http.ChunkedReply} (hreply : wire.reply = reply.bytes)
    {body : List Char} (hbody : reply.chunks.flatMap Chunked.Chunk.data = Utf8.encode body) :
    (transport.post wire headers request).1 = .ok body ↔
      ∀ chunk ∈ reply.chunks, chunk.data.length < UInt64.size ∧ chunk.Whole := by
  rw [transport.post_received headers request hurl htime hfail, hreply, Http.ChunkedReply.bytes,
    decode, decodeFrom_encode_append, Http.ChunkedReply.responseBody_head]
  exact Chunked.read_eq_ok_iff hbody

def localTransport : HttpTransport := .ofUrl "http://localhost:4000/graphql"

theorem ofUrl_localTransport :
    Endpoint.ofUrl localTransport.url = .ok ⟨"localhost", 4000, "/graphql"⟩ := by rfl

/-- An answer with status 200 and the given chunks. -/
def plainReply (chunks : List Chunked.Chunk) : Http.ChunkedReply where
  status := 200
  reason := "OK".toList
  fields := [("transfer-encoding", "chunked")]
  chunks := chunks
  good := by decide
  reasonLine := by decide
  fieldLines := by decide
  chunked := ⟨_, List.mem_cons_self, by decide⟩

def wholeChunks : List Chunked.Chunk :=
  [⟨['6'], encode "héllo".toList, by decide, by decide, [6], .cons rfl .nil, rfl⟩,
    ⟨['0', '5'], encode "world".toList, by decide, by decide, [0, 5], .cons rfl (.cons rfl .nil), rfl⟩]

theorem whole_chunks_received :
    wholeChunks.flatMap Chunked.Chunk.data = encode "hélloworld".toList ∧
      (localTransport.post ⟨(plainReply wholeChunks).bytes, none, none⟩ [] "").1 =
        .ok "hélloworld".toList := by
  have hbody : wholeChunks.flatMap Chunked.Chunk.data = encode "hélloworld".toList := by
    decide +kernel
  have hreply : (⟨(plainReply wholeChunks).bytes, none, none⟩ : Wire).reply =
      (plainReply wholeChunks).bytes := rfl
  refine ⟨hbody, (localTransport.post_chunked_eq_ok_iff [] "" ofUrl_localTransport rfl rfl hreply
    hbody).mpr ?_⟩
  intro chunk hchunk
  have hmem : chunk ∈ wholeChunks := hchunk
  rw [wholeChunks, List.mem_pair] at hmem
  obtain rfl | rfl := hmem
  · exact ⟨by decide +kernel, _, rfl⟩
  · exact ⟨by decide +kernel, _, rfl⟩

/-- The two bytes of one character, each in a chunk of its own. -/
def halvedChunks : List Chunked.Chunk :=
  [⟨['1'], [0xC3], by decide, by decide, [1], .cons rfl .nil, rfl⟩,
    ⟨['1'], [0xA9], by decide, by decide, [1], .cons rfl .nil, rfl⟩]

/-- The sizes and line ends between the chunks are taken for the body. -/
theorem halved_character_lost :
    halvedChunks.flatMap Chunked.Chunk.data = encode ['é'] ∧
      (localTransport.post ⟨(plainReply halvedChunks).bytes, none, none⟩ [] "").1 =
        .ok "\uFFFD\r\n1\r\n\uFFFD\r\n0\r\n\r\n".toList ∧
      "\uFFFD\r\n1\r\n\uFFFD\r\n0\r\n\r\n".toList ≠ ['é'] := by
  refine ⟨by decide +kernel, ?_, by decide +kernel⟩
  rw [localTransport.post_received [] "" ofUrl_localTransport rfl rfl]
  rfl

end GraphQLClient
