import GraphQLClient.Proofs.Http.CutOffBodies
import GraphQLClient.Proofs.Http.Replies

set_option autoImplicit false

/-!
# Answers in one piece

A good answer whose body follows the first empty line as it is. The head is looked for at an empty line
between CRLFs, anywhere in head and body together, and only then at one between line feeds. So a head
whose lines end with CRLF leaves any body whole, while one whose lines end with a line feed does so
exactly if the body has no empty line between CRLFs.
-/

namespace GraphQLClient
open Text

/-! ## Chunks are no longer than their text -/

theorem Chunked.length_readFrom {fuel : Nat} {text body : List Char}
    (h : readFrom fuel text = .ok body) : body.length ≤ text.length := by
  induction fuel generalizing text body with
  | zero =>
    obtain rfl := Except.ok.inj h
    exact Nat.zero_le _
  | succ fuel ih =>
    unfold readFrom at h
    split at h
    · obtain rfl := Except.ok.inj h
      exact Nat.zero_le _
    · rename_i line rest hcut
      rw [eq_append_of_cutAt? hcut, List.length_append, List.length_cons]
      dsimp only at h
      split at h
      · cases h
      · obtain rfl := Except.ok.inj h
        exact Nat.zero_le _
      · split at h
        · obtain rfl := Except.ok.inj h
          omega
        · rename_i chunk more hsplit
          have hskip : (skipLineEnd more).length ≤ more.length := by
            unfold skipLineEnd
            split
            · exact Nat.le_add_right _ 2
            · exact Nat.le_add_right _ 1
            · exact Nat.le_refl _
          have hrest := congrArg List.length (eq_append_of_splitBytes? hsplit).1
          cases hread : readFrom fuel (skipLineEnd more) with
          | error failure =>
            rw [hread] at h
            cases h
          | ok tail =>
            rw [hread] at h
            obtain rfl := Except.ok.inj h
            have htail := ih hread
            simp only [List.length_append] at hrest ⊢
            omega

namespace Http

/-! ## Lines that announce chunks -/

/-- A line that says that the body comes in chunks. -/
def Announces (line : List Char) : Prop :=
  ∃ name value, line = name ++ ':' :: value ∧ ':' ∉ name ∧
    sameIgnoringCase (trim name) "transfer-encoding".toList = true ∧
    sameIgnoringCase (trim value) "chunked".toList = true

theorem isChunkedHeader_iff {line : List Char} : isChunkedHeader line = true ↔ Announces line := by
  constructor
  · intro h
    unfold isChunkedHeader at h
    split at h
    · rename_i name value hcut
      obtain ⟨hname, hvalue⟩ := Bool.and_eq_true_iff.1 h
      exact ⟨name, value, eq_append_of_cutAt? hcut, not_mem_of_cutAt? hcut, hname, hvalue⟩
    · cases h
  · rintro ⟨name, value, rfl, hcolon, hname, hvalue⟩
    rw [isChunkedHeader, cutAt?_append hcolon]
    exact Bool.and_eq_true_iff.2 ⟨hname, hvalue⟩

instance (line : List Char) : Decidable (Announces line) :=
  decidable_of_iff _ isChunkedHeader_iff

theorem toLower_of_isDigit {c : Char} (h : isDigit c = true) : c.toLower = c := by
  simp only [isDigit, Bool.and_eq_true, decide_eq_true_eq] at h
  have hhigh : c.toNat ≤ 57 := h.2
  have hupper : ¬ (65 ≤ c.toNat ∧ c.toNat ≤ 90) := by omega
  exact dif_neg hupper

/-- No digit is in a line that announces chunks: neither of its words has one. -/
theorem Announces.digit_not_mem {line : List Char} (h : Announces line) {c : Char}
    (hdigit : isDigit c = true) : c ∉ line := by
  obtain ⟨name, value, rfl, -, hname, hvalue⟩ := h
  have hplain := not_blank_of_isDigit hdigit
  have hlower := toLower_of_isDigit hdigit
  have hname' : (lowerAscii "transfer-encoding".toList).any isDigit = false := by decide
  have hvalue' : (lowerAscii "chunked".toList).any isDigit = false := by decide
  simp only [List.mem_cons, not_or, List.mem_append]
  refine ⟨fun hmem => ?_, fun hcolon => ?_, fun hmem => ?_⟩
  · have hword := mem_of_sameIgnoringCase hname hlower (mem_trim hplain hmem)
    exact List.any_eq_false.1 hname' c hword hdigit
  · rw [hcolon] at hdigit
    exact absurd hdigit (by decide)
  · have hword := mem_of_sameIgnoringCase hvalue hlower (mem_trim hplain hmem)
    exact List.any_eq_false.1 hvalue' c hword hdigit

/-! ## Answers -/

/-- A good answer whose body is sent as it is. The reason on the first line may be missing. -/
structure PlainReply where
  lineEnd : LineEnd
  version : List Char
  status : Nat
  reason : Option (List Char)
  fields : List (List Char)
  body : List Char
  versionWord : version ≠ [] ∧ ∀ c ∈ version, isBlank c = false
  good : 200 ≤ status ∧ status < 300
  reasonLine : ∀ text ∈ reason, OneLine text
  fieldLines : ∀ line ∈ fields, line ≠ [] ∧ OneLine line ∧ ¬ Announces line

namespace PlainReply
variable (reply : PlainReply)

def digits : List Char := Nat.toDigits 10 reply.status

/-- What follows the status on its line. -/
def afterStatus : List Char :=
  match reply.reason with
  | none => []
  | some text => ' ' :: text

def statusLine : List Char := reply.version ++ ' ' :: (reply.digits ++ reply.afterStatus)

/-- Status line and fields, each ended alike, an empty line and the body. -/
def text : List Char :=
  (reply.statusLine :: reply.fields).flatMap (· ++ reply.lineEnd.text) ++ reply.lineEnd.text ++
    reply.body

def head : List Char := rows reply.lineEnd reply.statusLine reply.fields

theorem text_eq : reply.text = reply.head ++ (reply.lineEnd.text ++ (reply.lineEnd.text ++ reply.body)) := by
  rw [text, flatMap_lineEnd, head, List.append_assoc, List.append_assoc]

theorem digits_plain : reply.digits ≠ [] ∧ ∀ c ∈ reply.digits, isDigit c = true :=
  ⟨Nat.toDigits_ne_nil, fun _ hc => isDigit_of_mem_toDigits hc⟩

theorem status?_statusLine : status? reply.statusLine = some reply.status := by
  have hplain : ∀ c ∈ reply.digits, isBlank c = false :=
    fun c hc => not_blank_of_isDigit (reply.digits_plain.2 c hc)
  have hspace : isBlank ' ' = true := by decide
  have hsize : reply.status < UInt16.size := Nat.lt_trans reply.good.2 (by decide)
  have hwords : ∃ more, words (reply.digits ++ reply.afterStatus) = reply.digits :: more := by
    unfold afterStatus
    cases reply.reason with
    | none =>
      rw [List.append_nil]
      exact ⟨[], words_self hplain reply.digits_plain.1⟩
    | some text => exact ⟨words text, words_append hplain reply.digits_plain.1 hspace text⟩
  obtain ⟨more, hwords⟩ := hwords
  rw [status?, statusLine, words_append reply.versionWord.2 reply.versionWord.1 hspace, hwords]
  exact decimal16?_toDigits hsize

theorem oneLine_statusLine : OneLine reply.statusLine := by
  have hversion := ChunkedReply.oneLine_of_not_blank reply.versionWord.2
  have hdigits := ChunkedReply.oneLine_of_not_blank fun c hc =>
    not_blank_of_isDigit (reply.digits_plain.2 c hc)
  have hafter : OneLine reply.afterStatus := by
    unfold afterStatus
    cases hreason : reply.reason with
    | none => exact ⟨List.not_mem_nil, List.not_mem_nil⟩
    | some text =>
      have htext := reply.reasonLine text hreason
      exact ⟨by simpa using htext.1, by simpa using htext.2⟩
  simp only [OneLine, statusLine, List.mem_append, List.mem_cons, not_or] at *
  exact ⟨⟨hversion.1, by decide, hdigits.1, hafter.1⟩, ⟨hversion.2, by decide, hdigits.2, hafter.2⟩⟩

theorem lines_plain : ∀ line ∈ reply.statusLine :: reply.fields, OneLine line ∧ line ≠ [] := by
  intro line hline
  obtain rfl | hline := List.mem_cons.1 hline
  · exact ⟨reply.oneLine_statusLine, by simp [statusLine]⟩
  · exact ⟨(reply.fieldLines line hline).2.1, (reply.fieldLines line hline).1⟩

/-- No line of the head announces chunks. The status line has a digit. -/
theorem not_chunked : (Text.lines reply.head).any isChunkedHeader = false := by
  rw [head, lines_rows reply.lines_plain, List.any_eq_false]
  intro line hline hchunked
  have hannounces := isChunkedHeader_iff.1 hchunked
  obtain rfl | hline := List.mem_cons.1 hline
  · obtain ⟨d, more, hdigits⟩ := List.exists_cons_of_ne_nil reply.digits_plain.1
    have hd : d ∈ reply.digits := hdigits ▸ List.mem_cons_self
    exact hannounces.digit_not_mem (reply.digits_plain.2 d hd) (by simp [statusLine, hd])
  · exact (reply.fieldLines line hline).2.2 hannounces

/-- What is in front of the status does not matter; the rest of the answer decides. -/
theorem responseBody_text : responseBody reply.text = bodyOf reply.text := by
  obtain ⟨more, hlines⟩ : ∃ more, Text.lines reply.text = reply.statusLine :: more := by
    rw [text, List.flatMap_cons, List.append_assoc, List.append_assoc, List.append_assoc]
    exact ⟨_, lines_line reply.oneLine_statusLine reply.lineEnd _⟩
  obtain ⟨c, line, hline⟩ := List.exists_cons_of_ne_nil
    (reply.lines_plain _ List.mem_cons_self).2
  have hstatus := reply.status?_statusLine
  rw [hline] at hlines hstatus
  simp only [responseBody, hlines, List.head?_cons, hstatus, if_pos reply.good]

/-! ## Where the body begins -/

/-- An empty line between CRLFs. -/
def emptyLine : List Char := ['\r', '\n', '\r', '\n']

/-- Nothing but the body is left where the head is cut off. -/
theorem bodyOf_head (h : cutBody? reply.text = some (reply.head, reply.body)) :
    bodyOf reply.text = .ok reply.body := by
  simp only [bodyOf, h, reply.not_chunked, Bool.false_eq_true, if_false]

theorem cutBody?_crlf (h : reply.lineEnd = .crlf) :
    cutBody? reply.text = some (reply.head, reply.body) := by
  have hlines : ∀ line ∈ reply.statusLine :: reply.fields, Unbroken line ∧ line ≠ [] :=
    fun line hline => ⟨unbroken_of_not_mem (reply.lines_plain line hline).1.1,
      (reply.lines_plain line hline).2⟩
  have hcut := cutAtText?_joined hlines reply.body
  rw [cutBody?, text_eq, head, h, rows_crlf]
  exact congrArg (Option.or · _) hcut

/-- A head whose lines end with line feeds is cut off unless an empty line between CRLFs comes first. -/
theorem cutBody?_lf (h : reply.lineEnd = .lf) : cutBody? reply.text =
    ((cutAtText? emptyLine reply.body).map fun cut =>
      (reply.head ++ '\n' :: '\n' :: cut.1, cut.2)).or (some (reply.head, reply.body)) := by
  have hhead : '\r' ∉ reply.head ++ ['\n', '\n'] := by
    rw [head, h]
    exact List.not_mem_append (return_not_mem_rows reply.lines_plain) (by decide)
  have htext : reply.text = reply.head ++ ['\n', '\n'] ++ reply.body := by
    rw [text_eq, h, List.append_assoc]
    rfl
  have hcrlf := cutAtText?_append hhead ['\n', '\r', '\n'] reply.body
  have hlf : cutAtText? ['\n', '\n'] reply.text = some (reply.head, reply.body) := by
    rw [text_eq, head, h]
    exact cutAtText?_rows reply.lines_plain reply.body
  have hmarks : "\r\n\r\n".toList = '\r' :: ['\n', '\r', '\n'] ∧ "\n\n".toList = ['\n', '\n'] :=
    ⟨rfl, rfl⟩
  rw [cutBody?, hmarks.1, hmarks.2, hlf, htext, hcrlf, emptyLine]
  simp only [List.append_assoc]
  rfl

/-- What is behind an empty line of the body is not the body. -/
theorem bodyOf_ne_body {head before after : List Char} (h : cutBody? reply.text = some (head, after))
    (hbody : reply.body = before ++ (emptyLine ++ after)) : bodyOf reply.text ≠ .ok reply.body := by
  have hshort : after.length < reply.body.length := by
    rw [hbody]
    simp only [List.length_append, emptyLine, List.length_cons]
    omega
  intro hread
  rw [bodyOf, h] at hread
  dsimp only at hread
  split at hread
  · have := Chunked.length_readFrom hread
    omega
  · have := congrArg List.length (Except.ok.inj hread)
    omega

/-- An answer gives its body, whatever line breaks and empty lines are in it, exactly if the lines of the
head end with CRLF or the body has no empty line between CRLFs. -/
theorem responseBody_eq_ok_iff (reply : PlainReply) :
    responseBody reply.text = .ok reply.body ↔
      reply.lineEnd = .crlf ∨ ¬ emptyLine <:+: reply.body := by
  rw [reply.responseBody_text]
  cases hend : reply.lineEnd with
  | crlf => exact iff_of_true (reply.bodyOf_head (reply.cutBody?_crlf hend)) (.inl rfl)
  | lf =>
    have hcut := reply.cutBody?_lf hend
    cases hempty : cutAtText? emptyLine reply.body with
    | none =>
      have hnone : ¬ emptyLine <:+: reply.body := fun hmem => by
        have hsome := isSome_cutAtText?_iff.2 hmem
        rw [← emptyLine, hempty] at hsome
        cases hsome
      rw [hempty] at hcut
      exact iff_of_true (reply.bodyOf_head hcut) (.inr hnone)
    | some cut =>
      have hbody := eq_append_of_cutAtText? hempty
      rw [hempty] at hcut
      refine iff_of_false (reply.bodyOf_ne_body hcut hbody) ?_
      rintro (hcrlf | hnone)
      · cases hcrlf
      · exact hnone ⟨cut.1, cut.2, by rw [hbody, List.append_assoc]⟩

end PlainReply

/-- A status line without a reason, one field, and a body with empty lines of both kinds. -/
def gappedReply : PlainReply where
  lineEnd := .crlf
  version := "HTTP/1.1".toList
  status := 204
  reason := none
  fields := ["Transfer-Encoding: identity".toList]
  body := "hats\n\ncaps\r\n\r\nbonnets".toList
  versionWord := ⟨by decide, not_blank_of_any (by decide)⟩
  good := by decide
  reasonLine := nofun
  fieldLines := by decide

theorem gapped_body_read : gappedReply.lineEnd = .crlf ∧
    responseBody gappedReply.text = .ok "hats\n\ncaps\r\n\r\nbonnets".toList :=
  ⟨rfl, gappedReply.responseBody_eq_ok_iff.2 (.inl rfl)⟩

/-- The lines of the head end with line feeds, and the body has an empty line between CRLFs. -/
def tornReply : PlainReply where
  lineEnd := .lf
  version := "HTTP/1.1".toList
  status := 201
  reason := some "Created".toList
  fields := []
  body := "\x7b\"data\":\r\n\r\n\x7b\"shop\":\x7b\"name\":\"Hats\"\x7d\x7d\x7d".toList
  versionWord := ⟨by decide, not_blank_of_any (by decide)⟩
  good := by decide
  reasonLine := by
    rintro _ ⟨⟩
    decide
  fieldLines := by decide

/-- The beginning of the body is taken for a part of the head. -/
theorem torn_body_lost :
    responseBody tornReply.text =
        .ok "\x7b\"shop\":\x7b\"name\":\"Hats\"\x7d\x7d\x7d".toList ∧
      "\x7b\"shop\":\x7b\"name\":\"Hats\"\x7d\x7d\x7d".toList ≠ tornReply.body := by
  refine ⟨?_, by decide⟩
  rfl

end Http

end GraphQLClient
