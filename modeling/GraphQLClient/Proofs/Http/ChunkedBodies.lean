import GraphQLClient.Http.Chunked
import GraphQLClient.Proofs.Text.Cuts
import GraphQLClient.Proofs.Text.Utf8
import Mathlib.Data.List.TakeWhile

set_option autoImplicit false

/-!
# Chunked bodies on the wire

A body is read as a text first and cut into its chunks afterwards, with sizes that count bytes of
the wire. So a body comes back from its chunks exactly if none of them ends inside a character. A
chunk that does is read with one U+FFFD for the bytes of the character it has. That is three bytes
for one or two, so the size of the chunk falls inside it and all that follows, sizes and line ends
included, is taken for its text; or it is three bytes for three, and U+FFFD stands in the body.
-/

namespace GraphQLClient.Chunked
open Text Utf8

/-- A chunk as it is sent: the digits of its size, and its bytes. -/
structure Chunk where
  size : List Char
  data : List UInt8
  nonempty : data ≠ []
  sized : Hexadecimal size data.length

def lineEnd : List UInt8 := [13, 10]

def Chunk.bytes (chunk : Chunk) : List UInt8 := encode chunk.size ++ lineEnd ++ chunk.data ++ lineEnd

/-- The bytes of a body in chunks, with the chunk of size zero that ends it. -/
def write (chunks : List Chunk) : List UInt8 :=
  chunks.flatMap Chunk.bytes ++ (encode ['0'] ++ lineEnd ++ lineEnd)

theorem Chunk.length_ne_zero (chunk : Chunk) : chunk.data.length ≠ 0 :=
  fun hzero => chunk.nonempty (List.length_eq_zero_iff.mp hzero)

/-- The chunk is a text of its own. -/
def Chunk.Whole (chunk : Chunk) : Prop := ∃ text, chunk.data = encode text

theorem write_cons (chunk : Chunk) (chunks : List Chunk) :
    write (chunk :: chunks) = encode chunk.size ++ lineEnd ++ chunk.data ++ lineEnd ++ write chunks := by
  simp only [write, List.flatMap_cons, Chunk.bytes, List.append_assoc]

/-! ## A body cut anywhere -/

/-- A cut through the bytes of a text is between two characters or inside of one. -/
theorem cut_encode {text : List Char} {before after : List UInt8}
    (h : before ++ after = encode text) :
    (∃ start rest, text = start ++ rest ∧ before = encode start ∧ after = encode rest) ∨
    ∃ start c rest lead trail, text = start ++ c :: rest ∧ String.utf8EncodeChar c = lead ++ trail ∧
      lead ≠ [] ∧ trail ≠ [] ∧ before = encode start ++ lead ∧ after = trail ++ encode rest := by
  induction text generalizing before with
  | nil =>
    obtain ⟨rfl, rfl⟩ := List.append_eq_nil_iff.mp h
    exact .inl ⟨[], [], rfl, rfl, rfl⟩
  | cons c text ih =>
    rw [encode_cons] at h
    obtain ⟨trail, hc, hafter⟩ | ⟨more, hbefore, hmore⟩ := List.append_eq_append_iff.mp h
    · -- the cut is before the end of the first character
      subst hafter
      by_cases hlead : before = []
      · subst hlead
        exact .inl ⟨[], c :: text, rfl, rfl, by rw [encode_cons, hc, List.nil_append]⟩
      · by_cases htrail : trail = []
        · subst htrail
          rw [List.append_nil] at hc
          exact .inl ⟨[c], text, rfl, by rw [← hc]; exact (List.append_nil _).symm, rfl⟩
        · exact .inr ⟨[], c, text, before, trail, rfl, hc, hlead, htrail, rfl, rfl⟩
    · subst hbefore
      obtain ⟨start, rest, rfl, rfl, rfl⟩ | ⟨start, d, rest, lead, trail, rfl, hd, hlead, htrail,
        rfl, rfl⟩ := ih hmore.symm
      · exact .inl ⟨c :: start, rest, rfl, rfl, rfl⟩
      · exact .inr ⟨c :: start, d, rest, lead, trail, rfl, hd, hlead, htrail,
          by rw [encode_cons, List.append_assoc], rfl⟩

/-- What ends inside a character is no text of its own. -/
theorem not_whole_of_lead {chunk : Chunk} {start : List Char} {c : Char} {lead trail : List UInt8}
    (h : String.utf8EncodeChar c = lead ++ trail) (hlead : lead ≠ []) (htrail : trail ≠ [])
    (hdata : chunk.data = encode start ++ lead) : ¬ chunk.Whole := by
  rintro ⟨text, htext⟩
  obtain ⟨p, -, hrun⟩ := run_lead h hlead htrail
  have hpending := congrArg Prod.snd (run_encode text)
  rw [← htext, hdata, run_append, run_encode, hrun] at hpending
  exact nomatch hpending

/-! ## Reading one chunk -/

theorem decodeFrom_size {digits : List Char} (rest : List UInt8) :
    decodeFrom none (encode digits ++ lineEnd ++ rest) =
      digits ++ '\r' :: '\n' :: decodeFrom none rest := by
  rw [List.append_assoc, decodeFrom_encode_append]
  rfl

/-- What may stand behind the digits of a size: blanks, or a semicolon and anything. -/
def Passed (more : List Char) : Prop :=
  (∀ c ∈ more, isBlank c = true) ∨ ∃ extension, more = ';' :: extension

/-- The size is found in front of what is passed over. -/
theorem sizeText_append {digits : List Char} {number : Nat} (h : Hexadecimal digits number)
    {more : List Char} (hmore : Passed more) : sizeText (digits ++ more) = digits := by
  have hself : digits.takeWhile (· ≠ ';') = digits := by
    refine List.takeWhile_eq_self_iff.mpr fun c hc => ?_
    have : c ≠ ';' := fun heq => h.not_mem (c := ';') rfl (heq ▸ hc)
    simpa using this
  obtain hblank | ⟨extension, rfl⟩ := hmore
  · rw [sizeText, trim_append_blanks h.not_blank hblank, hself]
  · have hmark : isBlank ';' = false := rfl
    obtain ⟨kept, hkept⟩ := trim_append_cons h.1 h.not_blank hmark extension
    rw [sizeText, hkept, List.takeWhile_append, hself, if_pos rfl,
      List.takeWhile_cons_of_neg (by simp), List.append_nil]

/-- A size line is read as its number; the rest decides. -/
theorem readFrom_line {digits : List Char} {number : Nat} (h : Hexadecimal digits number)
    {more : List Char} (hmore : Passed more) (hfeed : '\n' ∉ more) (fuel : Nat) (rest : List Char) :
    readFrom (fuel + 1) (digits ++ more ++ '\n' :: rest) =
      if number < UInt64.size then
        if number = 0 then .ok []
        else
          match splitBytes? number rest with
          | none => .ok rest
          | some (chunk, rest) => (readFrom fuel (skipLineEnd rest)).map (chunk ++ ·)
      else .error (.invalidResponse ("Invalid chunk size: " ++ String.ofList digits)) := by
  have hcut : cutAt? '\n' (digits ++ more ++ '\n' :: rest) = some (digits ++ more, rest) :=
    cutAt?_append (List.not_mem_append (h.not_mem rfl) hfeed) rest
  simp only [readFrom, hcut, sizeText_append h hmore, trim_eq_self h.not_blank, h.read]
  by_cases hnumber : number < UInt64.size
  · simp only [if_pos hnumber]
    cases number <;> rfl
  · simp only [if_neg hnumber]

theorem readFrom_size {digits : List Char} {number : Nat} (h : Hexadecimal digits number)
    (fuel : Nat) (rest : List Char) :
    readFrom (fuel + 1) (digits ++ '\r' :: '\n' :: rest) =
      if number < UInt64.size then
        if number = 0 then .ok []
        else
          match splitBytes? number rest with
          | none => .ok rest
          | some (chunk, rest) => (readFrom fuel (skipLineEnd rest)).map (chunk ++ ·)
      else .error (.invalidResponse ("Invalid chunk size: " ++ String.ofList digits)) := by
  have hreturn : Passed ['\r'] := .inl (List.forall_mem_singleton.2 (by decide))
  have hfeed : '\n' ∉ ['\r'] := by decide
  rw [← readFrom_line h hreturn hfeed, List.append_assoc]
  rfl

theorem length_encode (text : List Char) : (encode text).length = byteLength text := by
  induction text with
  | nil => rfl
  | cons c text ih =>
    rw [encode_cons, List.length_append, String.length_utf8EncodeChar, ih, byteLength_cons]

variable {chunk : Chunk} {chunks : List Chunk}

theorem zero_hexadecimal : Hexadecimal ['0'] 0 :=
  ⟨List.cons_ne_nil _ _, [0], .cons rfl .nil, rfl⟩

theorem readFrom_end (fuel : Nat) : readFrom (fuel + 1) (decodeFrom none (write [])) = .ok [] := by
  have hend : decodeFrom none (write []) = ['0'] ++ '\r' :: '\n' :: ['\r', '\n'] := by
    rw [write, List.flatMap_nil, List.nil_append, decodeFrom_size]
    rfl
  rw [hend, readFrom_size zero_hexadecimal, if_pos (by decide), if_pos rfl]

/-- A chunk that is a text is taken off. -/
theorem readFrom_whole {text : List Char} (h : chunk.data = encode text)
    (hsize : chunk.data.length < UInt64.size) (fuel : Nat) :
    readFrom (fuel + 1) (decodeFrom none (write (chunk :: chunks))) =
      (readFrom fuel (decodeFrom none (write chunks))).map (text ++ ·) := by
  have htext : decodeFrom none (write (chunk :: chunks)) =
      chunk.size ++ '\r' :: '\n' :: (text ++ '\r' :: '\n' :: decodeFrom none (write chunks)) := by
    rw [write_cons, List.append_assoc, List.append_assoc, decodeFrom_size, h,
      decodeFrom_encode_append]
    rfl
  rw [htext, readFrom_size chunk.sized, if_pos hsize, if_neg chunk.length_ne_zero, h, length_encode,
    splitBytes?_self]
  rfl

/-- A chunk that ends inside a character, as a text. -/
theorem decodeFrom_cut {start : List Char} {c : Char} {lead trail : List UInt8}
    (h : String.utf8EncodeChar c = lead ++ trail) (hlead : lead ≠ []) (htrail : trail ≠ [])
    (hdata : chunk.data = encode start ++ lead) :
    decodeFrom none (write (chunk :: chunks)) =
      chunk.size ++ '\r' :: '\n' :: (start ++ replacement ::
        '\r' :: '\n' :: decodeFrom none (write chunks)) := by
  rw [write_cons, List.append_assoc, List.append_assoc, decodeFrom_size, hdata,
    List.append_assoc, decodeFrom_encode_append]
  exact congrArg (fun rest => chunk.size ++ '\r' :: '\n' :: (start ++ rest))
    (decodeFrom_lead h hlead htrail (show (13 : UInt8).toNat < 0x80 by decide) _)

/-- With one or two bytes of a character at the end of a chunk all that follows is taken for its
text. -/
theorem readFrom_cut_short {start : List Char} {c : Char} {lead trail : List UInt8}
    (h : String.utf8EncodeChar c = lead ++ trail) (hlead : lead ≠ []) (htrail : trail ≠ [])
    (hdata : chunk.data = encode start ++ lead) (hshort : lead.length < 3)
    (hsize : chunk.data.length < UInt64.size) (fuel : Nat) :
    readFrom (fuel + 1) (decodeFrom none (write (chunk :: chunks))) =
      .ok (start ++ replacement :: '\r' :: '\n' :: decodeFrom none (write chunks)) := by
  have hpos : 0 < lead.length := List.length_pos_of_ne_nil hlead
  have hlength : chunk.data.length = byteLength start + lead.length := by
    rw [hdata, List.length_append, length_encode]
  have hinside : splitBytes? lead.length (replacement ::
      '\r' :: '\n' :: decodeFrom none (write chunks)) = none :=
    splitBytes?_inside (c := replacement) hpos (show lead.length < 3 from hshort) _
  rw [decodeFrom_cut h hlead htrail hdata, readFrom_size chunk.sized, if_pos hsize,
    if_neg chunk.length_ne_zero, hlength, splitBytes?_append, hinside]
  rfl

/-- With three bytes of a character at the end of a chunk a replacement stands in its place. -/
theorem readFrom_cut_long {start : List Char} {c : Char} {lead trail : List UInt8}
    (h : String.utf8EncodeChar c = lead ++ trail) (hlead : lead ≠ []) (htrail : trail ≠ [])
    (hdata : chunk.data = encode start ++ lead) (hlong : lead.length = 3)
    (hsize : chunk.data.length < UInt64.size) (fuel : Nat) :
    readFrom (fuel + 1) (decodeFrom none (write (chunk :: chunks))) =
      (readFrom fuel (decodeFrom none (write chunks))).map (start ++ [replacement] ++ ·) := by
  have hlength : chunk.data.length = byteLength start + 3 := by
    rw [hdata, List.length_append, length_encode, hlong]
  have hself : splitBytes? 3 ([replacement] ++
      '\r' :: '\n' :: decodeFrom none (write chunks)) =
        some ([replacement], '\r' :: '\n' :: decodeFrom none (write chunks)) :=
    splitBytes?_self [replacement] _
  rw [List.singleton_append] at hself
  rw [decodeFrom_cut h hlead htrail hdata, readFrom_size chunk.sized, if_pos hsize,
    if_neg chunk.length_ne_zero, hlength, splitBytes?_append, hself]
  rfl

/-! ## Reading all chunks -/

/-- The wire has a first byte for every character of the chunks, and more for what frames them. -/
theorem heads_write (chunks : List Chunk) :
    heads (chunks.flatMap Chunk.data) + chunks.length ≤ heads (write chunks) := by
  induction chunks with
  | nil => exact Nat.zero_le _
  | cons chunk chunks ih =>
    have hend : heads lineEnd = 2 := rfl
    simp only [write_cons, heads_append, List.flatMap_cons, List.length_cons, hend]
    omega

/-- A chunk that ends inside a character spoils the body. -/
theorem readFrom_cut_ne {chunks : List Chunk} {start rest : List Char} {c : Char}
    {lead trail : List UInt8} (h : String.utf8EncodeChar c = lead ++ trail) (hlead : lead ≠ [])
    (htrail : trail ≠ []) (hdata : chunk.data = encode start ++ lead)
    (hrest : chunks.flatMap Chunk.data = trail ++ encode rest)
    (hsize : chunk.data.length < UInt64.size) (fuel : Nat) :
    readFrom (fuel + 1) (decodeFrom none (write (chunk :: chunks))) ≠ .ok (start ++ c :: rest) := by
  intro hread
  have htail : 0 < trail.length := List.length_pos_of_ne_nil htrail
  have hlength : lead.length + trail.length = c.utf8Size := by
    rw [← String.length_utf8EncodeChar, h, List.length_append]
  by_cases hshort : lead.length < 3
  · -- the framing that is taken for text makes the body longer
    rw [readFrom_cut_short h hlead htrail hdata hshort hsize] at hread
    have hbody := congrArg List.length (List.append_cancel_left (Except.ok.inj hread))
    have hread := heads_le_length_decodeFrom (write chunks)
    have hwire := heads_write chunks
    rw [hrest, heads_append, heads_encode] at hwire
    simp only [List.length_cons] at hbody
    omega
  · have hfour := c.utf8Size_le_four
    rw [readFrom_cut_long h hlead htrail hdata (by omega) hsize] at hread
    cases htext : readFrom fuel (decodeFrom none (write chunks)) with
    | error failure =>
      rw [htext] at hread
      exact nomatch hread
    | ok text =>
      rw [htext, Except.map, List.append_assoc] at hread
      have hc := List.append_cancel_left (Except.ok.inj hread)
      have hthree : c.utf8Size = 3 := by
        rw [← (List.cons.inj hc).1]
        rfl
      omega

theorem readFrom_size_error {chunk : Chunk} (h : ¬ chunk.data.length < UInt64.size)
    (chunks : List Chunk) (fuel : Nat) :
    ∃ failure, readFrom (fuel + 1) (decodeFrom none (write (chunk :: chunks))) = .error failure := by
  rw [write_cons, List.append_assoc, List.append_assoc, decodeFrom_size,
    readFrom_size chunk.sized, if_neg h]
  exact ⟨_, rfl⟩

theorem readFrom_eq_ok_iff {chunks : List Chunk} {body : List Char}
    (h : chunks.flatMap Chunk.data = encode body) {fuel : Nat} (hfuel : chunks.length < fuel) :
    readFrom fuel (decodeFrom none (write chunks)) = .ok body ↔
      ∀ chunk ∈ chunks, chunk.data.length < UInt64.size ∧ chunk.Whole := by
  induction chunks generalizing body fuel with
  | nil =>
    obtain ⟨fuel, rfl⟩ : ∃ n, fuel = n + 1 := ⟨fuel - 1, by omega⟩
    have hbody : body = [] := by
      rw [← decode_encode body, ← h]
      rfl
    simp [readFrom_end, hbody]
  | cons chunk chunks ih =>
    obtain ⟨fuel, rfl⟩ : ∃ n, fuel = n + 1 := ⟨fuel - 1, by omega⟩
    rw [List.flatMap_cons] at h
    rw [List.forall_mem_cons]
    by_cases hsize : chunk.data.length < UInt64.size
    · obtain ⟨start, rest, rfl, hdata, hrest⟩ | ⟨start, c, rest, lead, trail, rfl, hc, hlead, htrail,
        hdata, hrest⟩ := cut_encode h
      · have hwhole : chunk.Whole := ⟨start, hdata⟩
        rw [readFrom_whole hdata hsize, ← ih hrest (by simpa using hfuel)]
        cases readFrom fuel (decodeFrom none (write chunks)) with
        | error failure => simp [Except.map]
        | ok text => simp [Except.map, hsize, hwhole]
      · exact iff_of_false (readFrom_cut_ne hc hlead htrail hdata hrest hsize fuel)
          fun hall => not_whole_of_lead hc hlead htrail hdata hall.1.2
    · obtain ⟨failure, herror⟩ := readFrom_size_error hsize chunks fuel
      rw [herror]
      exact iff_of_false (nomatch ·) fun hall => hsize hall.1.1

/-- A body comes back from its chunks exactly if each of them is a text of its own. -/
theorem read_eq_ok_iff {chunks : List Chunk} {body : List Char}
    (h : chunks.flatMap Chunk.data = encode body) :
    read (decodeFrom none (write chunks)) = .ok body ↔
      ∀ chunk ∈ chunks, chunk.data.length < UInt64.size ∧ chunk.Whole := by
  refine readFrom_eq_ok_iff h ?_
  have hwire := heads_write chunks
  have hread := heads_le_length_decodeFrom (write chunks)
  omega

end GraphQLClient.Chunked
