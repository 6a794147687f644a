import GraphQLClient.Client.Client
import GraphQLClient.Proofs.Http.Replies
import GraphQLClient.Proofs.Text.LineEnds

set_option autoImplicit false

/-!
# Requests as they are read

What the other side makes of the text of a request: the lines of its head, up to the first empty line,
and a body of the length that the head gives. Nothing in the text of a request is checked or escaped, so
this is the request that was meant exactly if no line end CRLF stands in what was put together and no
header gives the body another length.
-/

namespace GraphQLClient
open Text

namespace Http

/-- The line is the field of this name, whatever the case of its letters. -/
def isField (name : String) (line : List Char) : Bool :=
  match cutAt? ':' line with
  | some (found, _) => sameIgnoringCase (trim found) name.toList
  | none => false

/-- The number that a field gives in decimal digits. -/
def fieldNumber? (line : List Char) : Option Nat :=
  (cutAt? ':' line).bind fun (_, value) =>
    let digits := trim value
    if !digits.isEmpty && digits.all isDigit then some (decimal digits) else none

/-- The size of the body, if all fields that give one give the same and none gives a coding for the
transfer. -/
def bodySize? (fields : List (List Char)) : Option Nat :=
  if fields.any (isField "transfer-encoding") then none
  else
    match (fields.filter (isField "content-length")).map fieldNumber? with
    | [] => some 0
    | first :: rest => if rest.all (· == first) then first else none

/-- A request as it is read: the lines of the head, and what follows the head. -/
structure ReadRequest where
  lines : List (List Char)
  body : List Char
deriving DecidableEq

/-- Takes a text apart at the first empty line. -/
def readRequest? (text : List Char) : Option ReadRequest :=
  (cutAtText? ['\r', '\n', '\r', '\n'] text).map fun (head, body) => ⟨parts head, body⟩

/-- What follows the head is the body, as long as the head says. -/
def ReadRequest.Whole (request : ReadRequest) : Prop :=
  bodySize? request.lines.tail = some (byteLength request.body)

instance (request : ReadRequest) : Decidable request.Whole := inferInstanceAs (Decidable (_ = _))

theorem unbroken_of_readRequest? {text : List Char} {request : ReadRequest}
    (h : readRequest? text = some request) : ∀ line ∈ request.lines, Unbroken line := by
  obtain ⟨⟨head, body⟩, -, rfl⟩ := Option.map_eq_some_iff.1 h
  exact unbroken_of_mem_parts

/-- Lines and what follows them are read back exactly if no line end stands in a line. -/
theorem readRequest?_joined_iff {line : List Char} {rest : List (List Char)}
    (hne : ∀ l ∈ line :: rest, l ≠ []) (body : List Char) :
    readRequest? (joined line rest ++ '\r' :: '\n' :: '\r' :: '\n' :: body) =
        some ⟨line :: rest, body⟩ ↔ ∀ l ∈ line :: rest, Unbroken l := by
  constructor
  · exact fun h => unbroken_of_readRequest? h
  · intro h
    rw [readRequest?, cutAtText?_joined fun l hl => ⟨h l hl, hne l hl⟩]
    exact congrArg (fun lines => some (ReadRequest.mk lines body)) (parts_joined h)

/-! ## The text of a request -/

theorem flatMap_lineEnd (line : List Char) (rest : List (List Char)) :
    (line :: rest).flatMap (· ++ ['\r', '\n']) = joined line rest ++ ['\r', '\n'] :=
  Text.flatMap_lineEnd .crlf line rest

variable {endpoint : Endpoint} {headers : List (String × String)} {body : String}

def requestLine (endpoint : Endpoint) : String := "POST " ++ endpoint.path ++ " HTTP/1.1"

/-- The fields that every request has. -/
def fixedFields (endpoint : Endpoint) (body : String) : List (String × String) :=
  [("Host", endpoint.host), ("Content-Type", "application/json"), ("Accept", "application/json"),
    ("Content-Length", toString body.utf8ByteSize), ("Connection", "close")]

def fieldLine (field : String × String) : List Char := (headerLine field).toList

theorem fixedLines_eq :
    fixedLines endpoint body = requestLine endpoint :: (fixedFields endpoint body).map headerLine := by
  have hline : ∀ (name start value : String), name ++ ": " = start →
      start ++ value = headerLine (name, value) := by
    rintro name start value rfl
    rfl
  rw [fixedLines, hline "Host" "Host: " _ rfl, hline "Content-Length" "Content-Length: " _ rfl]
  rfl

theorem requestText_toList : (requestText endpoint headers body).toList =
    joined (requestLine endpoint).toList ((fixedFields endpoint body ++ headers).map fieldLine) ++
      '\r' :: '\n' :: '\r' :: '\n' :: body.toList := by
  have hlines : (((fixedLines endpoint body ++ headers.map headerLine).map
      (· ++ lineEnd)).flatMap String.toList) =
      ((requestLine endpoint).toList :: (fixedFields endpoint body ++ headers).map fieldLine).flatMap
        (· ++ ['\r', '\n']) := by
    have hmap : (requestLine endpoint).toList :: (fixedFields endpoint body ++ headers).map fieldLine =
        (fixedLines endpoint body ++ headers.map headerLine).map String.toList := by
      rw [fixedLines_eq, List.cons_append, ← List.map_append, List.map_cons, List.map_map]
      rfl
    rw [hmap, List.flatMap_map, List.flatMap_map]
    congr 1
    funext line
    rw [String.toList_append]
    rfl
  rw [requestText, String.toList_append, String.toList_append, String.toList_join, hlines,
    flatMap_lineEnd]
  simp [lineEnd]

theorem byteLength_toList (text : String) : byteLength text.toList = text.utf8ByteSize := by
  obtain ⟨chars, rfl⟩ : ∃ chars, text = String.ofList chars := ⟨_, String.ofList_toList.symm⟩
  rw [String.toList_ofList]
  induction chars with
  | nil => rfl
  | cons c rest ih =>
    have hcons : String.ofList (c :: rest) = String.singleton c ++ String.ofList rest := by simp
    rw [byteLength_cons, ih, hcons, String.utf8ByteSize_append, String.utf8ByteSize_singleton]

/-- The header does not change what the head says of the size of the body. -/
def KeepsSize (size : Nat) (header : String × String) : Prop :=
  isField "transfer-encoding" (fieldLine header) = false ∧
    (isField "content-length" (fieldLine header) = true →
      fieldNumber? (fieldLine header) = some size)

instance (size : Nat) (header : String × String) : Decidable (KeepsSize size header) :=
  inferInstanceAs (Decidable (_ ∧ _))

theorem fieldLine_eq (field : String × String) :
    fieldLine field = field.1.toList ++ ':' :: ' ' :: field.2.toList := by
  simp [fieldLine, headerLine]

/-- The name of a field is found if it has no colons and blanks. -/
theorem isField_fieldLine {field : String × String} (hcolon : ':' ∉ field.1.toList)
    (hblank : ∀ c ∈ field.1.toList, isBlank c = false) (name : String) :
    isField name (fieldLine field) = sameIgnoringCase field.1.toList name.toList := by
  rw [isField, fieldLine_eq, cutAt?_append hcolon]
  simp only [trim_eq_self hblank]

theorem toList_toString (size : Nat) : (toString size).toList = Nat.toDigits 10 size := by
  rw [Nat.toString_eq_repr, Nat.repr_eq_ofList_toDigits, String.toList_ofList]

theorem fieldNumber?_fieldLine {name : String} (hcolon : ':' ∉ name.toList) (size : Nat) :
    fieldNumber? (fieldLine (name, toString size)) = some size := by
  have hdigits : ∀ c ∈ Nat.toDigits 10 size, isBlank c = false := fun c hc =>
    not_blank_of_isDigit (isDigit_of_mem_toDigits hc)
  have hall : (Nat.toDigits 10 size).all isDigit = true :=
    List.all_eq_true.mpr fun _ hc => isDigit_of_mem_toDigits hc
  have hspace : isBlank ' ' = true := by decide
  rw [fieldNumber?, fieldLine_eq, cutAt?_append hcolon, toList_toString, Option.bind_some]
  simp only [trim_cons_blank hdigits hspace, hall, decimal_toDigits]
  simp

theorem isField_fixed (name : String) : ∀ field ∈ fixedFields endpoint body,
    isField name (fieldLine field) = sameIgnoringCase field.1.toList name.toList := by
  have hplain : (((fixedFields endpoint body).map Prod.fst).all fun key =>
      !key.toList.contains ':' && key.toList.all (!isBlank ·)) = true := by
    change (["Host", "Content-Type", "Accept", "Content-Length", "Connection"].all _) = true
    decide
  intro field hfield
  have hkey := List.all_eq_true.mp hplain field.1 (List.mem_map_of_mem hfield)
  obtain ⟨hcolon, hblank⟩ : ':' ∉ field.1.toList ∧ ∀ c ∈ field.1.toList, isBlank c = false := by
    simpa using hkey
  exact isField_fieldLine hcolon hblank name

/-- Of the fields that every request has, one gives the size of the body. -/
theorem filter_fixed :
    (fixedFields endpoint body).filter (fun field => isField "transfer-encoding" (fieldLine field)) =
      [] ∧
    (fixedFields endpoint body).filter (fun field => isField "content-length" (fieldLine field)) =
      [("Content-Length", toString body.utf8ByteSize)] := by
  have hnamed : ∀ name, (fixedFields endpoint body).filter
      (fun field => isField name (fieldLine field)) =
        (fixedFields endpoint body).filter
          fun field => sameIgnoringCase field.1.toList name.toList := fun name =>
    List.filter_congr fun field hfield => isField_fixed name field hfield
  rw [hnamed, hnamed]
  constructor <;> simp [fixedFields, sameIgnoringCase, lowerAscii]

/-- The size that the head gives is that of the body as long as no further header says otherwise. -/
theorem bodySize?_eq_some_iff {size : Nat} :
    bodySize? ((fixedFields endpoint body ++ headers).map fieldLine) = some size ↔
      size = body.utf8ByteSize ∧ ∀ header ∈ headers, KeepsSize body.utf8ByteSize header := by
  obtain ⟨hcoded, hsized⟩ := @filter_fixed endpoint body
  have hcoding : ((fixedFields endpoint body ++ headers).map fieldLine).any
      (isField "transfer-encoding") =
        headers.any fun header => isField "transfer-encoding" (fieldLine header) := by
    have hfixed : (fixedFields endpoint body).any
        (fun field => isField "transfer-encoding" (fieldLine field)) = false := by
      simpa [List.filter_eq_nil_iff] using hcoded
    rw [List.any_map, List.any_append]
    exact (congrArg (· || _) hfixed).trans (Bool.false_or _)
  have hsizes : (((fixedFields endpoint body ++ headers).map fieldLine).filter
      (isField "content-length")).map fieldNumber? =
      some body.utf8ByteSize :: ((headers.filter fun header =>
        isField "content-length" (fieldLine header)).map fun header =>
          fieldNumber? (fieldLine header)) := by
    have hnumber := @fieldNumber?_fieldLine "Content-Length" (by decide) body.utf8ByteSize
    rw [List.filter_map, List.filter_append, List.map_map, List.map_append]
    change (((fixedFields endpoint body).filter fun field =>
      isField "content-length" (fieldLine field)).map fun field => fieldNumber? (fieldLine field)) ++ _ = _
    rw [hsized, List.map_singleton, hnumber]
    rfl
  have hkeeps : (∀ header ∈ headers, KeepsSize body.utf8ByteSize header) ↔
      (headers.any fun header => isField "transfer-encoding" (fieldLine header)) = false ∧
      ((headers.filter fun header => isField "content-length" (fieldLine header)).map fun header =>
        fieldNumber? (fieldLine header)).all (· == some body.utf8ByteSize) = true := by
    simp only [KeepsSize, List.any_eq_false, List.all_eq_true, List.forall_mem_map, List.mem_filter,
      Bool.not_eq_true, beq_iff_eq, and_imp]
    exact forall₂_and
  rw [hkeeps]
  unfold bodySize?
  rw [hcoding, hsizes]
  cases headers.any fun header => isField "transfer-encoding" (fieldLine header) with
  | true => simp
  | false =>
    rw [if_neg Bool.false_ne_true]
    split
    · rename_i heq
      cases heq
    · rename_i first rest heq
      obtain ⟨rfl, rfl⟩ := List.cons.inj heq
      split
      · simp [*, eq_comm]
      · simp [*]

/-- No line end stands in what is put together exactly if none stands in the lines. -/
theorem unbroken_lines_iff :
    (∀ line ∈ (requestLine endpoint).toList :: (fixedFields endpoint body ++ headers).map fieldLine,
      Unbroken line) ↔
    (Unbroken endpoint.host.toList ∧ Unbroken endpoint.path.toList) ∧
      ∀ header ∈ headers, Unbroken header.1.toList ∧ Unbroken header.2.toList := by
  have hfield : ∀ field : String × String, Unbroken (fieldLine field) ↔
      Unbroken field.1.toList ∧ Unbroken field.2.toList := by
    intro field
    rw [fieldLine_eq, unbroken_append_cons (by decide), unbroken_cons_of_ne (by decide),
      unbroken_cons_of_ne (by decide)]
  have hrequest : Unbroken (requestLine endpoint).toList ↔ Unbroken endpoint.path.toList := by
    have hline : (requestLine endpoint).toList =
        "POST ".toList ++ (endpoint.path.toList ++ ' ' :: "HTTP/1.1".toList) := by
      rw [requestLine, String.toList_append, String.toList_append, List.append_assoc]
      rfl
    have hend : Unbroken (' ' :: "HTTP/1.1".toList) := by decide
    rw [hline, unbroken_append (by decide), unbroken_append_cons (by decide), and_iff_left hend]
  have hfixed : (∀ field ∈ fixedFields endpoint body, Unbroken field.1.toList ∧
      Unbroken field.2.toList) ↔ Unbroken endpoint.host.toList := by
    have hplain : ∀ text ∈ ["Host", "Content-Type", "application/json", "Accept", "Content-Length",
        "Connection", "close"], Unbroken text.toList := by decide
    simp only [List.forall_mem_cons] at hplain
    have hsize : Unbroken (toString body.utf8ByteSize).toList := by
      refine unbroken_of_not_mem fun hmem => ?_
      rw [toList_toString] at hmem
      exact absurd (isDigit_of_mem_toDigits hmem) (by decide)
    simp only [fixedFields, List.forall_mem_cons, hplain, hsize, true_and, and_true]
    exact and_iff_left (List.forall_mem_nil _)
  rw [List.forall_mem_cons, hrequest, List.forall_mem_map]
  simp only [hfield, List.forall_mem_append, hfixed, and_left_comm, and_assoc]

end Http

namespace Endpoint

variable {url : String} {endpoint : Endpoint}

/-- What the text of a URL is put together from. -/
theorem cutPath_eq (text : List Char) : ∃ path, text = (cutPath text).1 ++ path ∧
    (path = [] ∧ (cutPath text).2 = ['/'] ∨ (cutPath text).2 = path ∧ ∃ rest, path = '/' :: rest) := by
  refine ⟨text.dropWhile (· ≠ '/'), List.takeWhile_append_dropWhile.symm, ?_⟩
  cases hpath : text.dropWhile (· ≠ '/') with
  | nil => exact .inl ⟨rfl, by simp only [cutPath, hpath]; rfl⟩
  | cons c rest =>
    have hne : text.dropWhile (· ≠ '/') ≠ [] := hpath ▸ List.cons_ne_nil c rest
    have hhead := List.head_dropWhile_not (fun d => decide (d ≠ '/')) hne
    simp only [hpath, List.head_cons] at hhead
    have hc : c = '/' := by simpa using hhead
    exact .inr ⟨by simp only [cutPath, hpath]; rfl, rest, congrArg (· :: rest) hc⟩

theorem cutPort?_eq_some {text host port : List Char} (h : cutPort? text = some (host, port)) :
    text = host ++ ':' :: port := by
  obtain ⟨⟨before, after⟩, hcut, hport⟩ := Option.map_eq_some_iff.1 h
  obtain ⟨rfl, rfl⟩ := Prod.mk.inj hport
  rw [← List.reverse_inj, eq_append_of_cutAt? hcut]
  simp

/-- What the text of a URL is put together from. -/
theorem ofUrl_eq_ok (h : ofUrl url = .ok endpoint) : ∃ scheme port path,
    trim url.toList = scheme ++ (endpoint.host.toList ++ (port ++ path)) ∧
    (scheme = [] ∨ scheme = "http://".toList) ∧
    (port = [] ∨ ∃ digits number, port = ':' :: digits ∧ decimal16? digits = some number) ∧
    (path = [] ∧ endpoint.path.toList = ['/'] ∨
      endpoint.path.toList = path ∧ ∃ rest, path = '/' :: rest) := by
  unfold ofUrl at h
  generalize trim url.toList = text at h ⊢
  simp only [] at h
  obtain ⟨scheme, hscheme, htext⟩ : ∃ scheme, (scheme = [] ∨ scheme = "http://".toList) ∧
      text = scheme ++ (after? "http://".toList text).getD text := by
    cases hafter : after? "http://".toList text with
    | none => exact ⟨[], .inl rfl, rfl⟩
    | some rest => exact ⟨_, .inr rfl, eq_append_of_after? hafter⟩
  generalize (after? "http://".toList text).getD text = address at h htext
  obtain ⟨path, hcut, hpath⟩ := cutPath_eq address
  split at h
  · cases h
  · split at h
    · cases h
    · split at h
      · obtain rfl := Except.ok.inj h
        simp only [String.toList_ofList]
        exact ⟨scheme, [], path, htext.trans (congrArg (scheme ++ ·) hcut), hscheme, .inl rfl, hpath⟩
      · rename_i host port hport
        split at h
        · rename_i number hnumber
          obtain rfl := Except.ok.inj h
          simp only [String.toList_ofList]
          refine ⟨scheme, ':' :: port, path, ?_, hscheme, .inr ⟨port, number, rfl, hnumber⟩, hpath⟩
          have hport : (cutPath address).1 = host ++ ':' :: port := cutPort?_eq_some hport
          rw [htext, ← List.append_assoc host, ← hport, ← hcut]
        · cases h

theorem not_mem_of_decimal16? {digits : List Char} {number : Nat}
    (h : decimal16? digits = some number) : '\r' ∉ digits := by
  intro hmem
  have hall : (skipPlus digits).all isDigit = true := by
    unfold decimal16? at h
    simp only [] at h
    split at h
    · rename_i hc
      simp only [Bool.and_eq_true] at hc
      exact hc.1.2
    · cases h
  have hskip : '\r' ∈ skipPlus digits := by
    unfold skipPlus
    cases hplus : after? ['+'] digits with
    | none => exact hmem
    | some rest =>
      rw [eq_append_of_after? hplus] at hmem
      simpa using hmem
  exact absurd (List.all_eq_true.1 hall _ hskip) (by decide)

/-- No line end stands in the host and the path exactly if none stands in the URL. -/
theorem unbroken_url_iff (h : ofUrl url = .ok endpoint) :
    Unbroken (trim url.toList) ↔ Unbroken endpoint.host.toList ∧ Unbroken endpoint.path.toList := by
  obtain ⟨scheme, port, path, htext, hscheme, hport, hpath⟩ := ofUrl_eq_ok h
  have hstart : '\r' ∉ scheme := by
    obtain rfl | rfl := hscheme <;> decide
  have hend : Unbroken path ↔ Unbroken endpoint.path.toList := by
    obtain ⟨rfl, hslash⟩ | ⟨rfl, -⟩ := hpath
    · rw [hslash]
      decide
    · rfl
  rw [htext, unbroken_append hstart, ← hend]
  obtain rfl | ⟨digits, number, rfl, hnumber⟩ := hport
  · rw [List.nil_append]
    obtain ⟨rfl, -⟩ | ⟨-, rest, rfl⟩ := hpath
    · rw [List.append_nil]
      exact (and_iff_left unbroken_nil).symm
    · exact unbroken_append_cons (by decide) _ _
  · rw [List.cons_append, unbroken_append_cons (by decide), unbroken_cons_of_ne (by decide),
      unbroken_append (not_mem_of_decimal16? hnumber)]

end Endpoint

/-- The headers that a request of the client goes out with. Those of the single request win over those
of the client, and these over those of the transport. -/
def HttpTransport.merged (transport : HttpTransport) (client added : List (String × String)) :
    List (String × String) :=
  merge transport.headers (Keyed.sortByName (Keyed.insertAll client added))

theorem HttpTransport.find?_merged {transport : HttpTransport} {client added : List (String × String)}
    (ht : (Keyed.names transport.headers).Nodup) (hc : (Keyed.names client).Nodup)
    (ha : (Keyed.names added).Nodup) :
    (Keyed.names (transport.merged client added)).Nodup ∧
      ∀ name, Keyed.find? name (transport.merged client added) =
        ((Keyed.find? name added).or (Keyed.find? name client)).or
          (Keyed.find? name transport.headers) := by
  have hinner := Keyed.nodup_insertAll added hc
  have hsorted := Keyed.perm_sortByName (Keyed.insertAll client added)
  have hsorted' : (Keyed.names (Keyed.sortByName (Keyed.insertAll client added))).Nodup :=
    (hsorted.map Prod.fst).nodup_iff.2 hinner
  have houter := Keyed.nodup_insertAll (Keyed.sortByName (Keyed.insertAll client added)) ht
  have hmerged := Keyed.perm_sortByName
    (Keyed.insertAll transport.headers (Keyed.sortByName (Keyed.insertAll client added)))
  refine ⟨(hmerged.map Prod.fst).nodup_iff.2 houter, fun name => ?_⟩
  calc Keyed.find? name (transport.merged client added)
    _ = Keyed.find? name (Keyed.insertAll transport.headers
          (Keyed.sortByName (Keyed.insertAll client added))) :=
        Keyed.find?_of_perm hmerged houter name
    _ = (Keyed.find? name (Keyed.sortByName (Keyed.insertAll client added))).or
          (Keyed.find? name transport.headers) := Keyed.find?_insertAll hsorted' name _
    _ = (Keyed.find? name (Keyed.insertAll client added)).or
          (Keyed.find? name transport.headers) := by
        rw [Keyed.find?_of_perm hsorted hinner name]
    _ = _ := by rw [Keyed.find?_insertAll ha]

/-- All that a transport writes is the text of one request. -/
theorem HttpTransport.request_post {transport : HttpTransport} {endpoint : Endpoint}
    (hurl : Endpoint.ofUrl transport.url = .ok endpoint) {wire : Wire}
    {headers : List (String × String)} {body text : String}
    (h : (transport.post wire headers body).2.request = some text) :
    text = Http.requestText endpoint headers body := by
  unfold post at h
  rw [hurl] at h
  simp only [] at h
  split at h
  · cases h
  · split at h
    · cases h
    · split at h
      · cases h
      · split at h
        · exact (Option.some.inj h).symm
        · split at h
          · exact (Option.some.inj h).symm
          · split at h <;> exact (Option.some.inj h).symm

/-- A request holds one entry for every name among the headers of the transport, of the client and of
the request itself, and is all that is written. Whatever the order in which the headers are written,
the text is read as the line that asks, the fields that every request has, one line for each of these
entries and the body exactly if no line end stands in the URL and in the headers. The head then gives
the size of the body, and nothing else, exactly if no header gives another size or a coding. -/
theorem HttpTransport.readRequest?_iff {transport : HttpTransport} {endpoint : Endpoint}
    {client added : List (String × String)} (body : String)
    (hurl : Endpoint.ofUrl transport.url = .ok endpoint)
    (ht : (Keyed.names transport.headers).Nodup) (hc : (Keyed.names client).Nodup)
    (ha : (Keyed.names added).Nodup) :
    ((Keyed.names (transport.merged client added)).Nodup ∧
      ∀ name, Keyed.find? name (transport.merged client added) =
        ((Keyed.find? name added).or (Keyed.find? name client)).or
          (Keyed.find? name transport.headers)) ∧
    (∀ wire text, (transport.post wire (transport.merged client added) body).2.request = some text →
      text = Http.requestText endpoint (transport.merged client added) body) ∧
    ∀ headers : List (String × String), headers.Perm (transport.merged client added) →
      let request : Http.ReadRequest :=
        ⟨(Http.fixedLines endpoint body ++ headers.map Http.headerLine).map String.toList,
          body.toList⟩
      (Http.readRequest? (Http.requestText endpoint headers body).toList = some request ↔
        Unbroken (trim transport.url.toList) ∧ ∀ header ∈ transport.merged client added,
          Unbroken header.1.toList ∧ Unbroken header.2.toList) ∧
      (request.Whole ↔ ∀ header ∈ transport.merged client added,
        Http.KeepsSize body.utf8ByteSize header) := by
  refine ⟨find?_merged ht hc ha, fun _ _ => request_post hurl, fun headers hperm => ?_⟩
  have hlines : (Http.fixedLines endpoint body ++ headers.map Http.headerLine).map String.toList =
      (Http.requestLine endpoint).toList ::
        (Http.fixedFields endpoint body ++ headers).map Http.fieldLine := by
    rw [Http.fixedLines_eq, List.cons_append, ← List.map_append, List.map_cons, List.map_map]
    rfl
  have hne : ∀ line ∈ (Http.requestLine endpoint).toList ::
      (Http.fixedFields endpoint body ++ headers).map Http.fieldLine, line ≠ [] := by
    rw [List.forall_mem_cons, List.forall_mem_map]
    refine ⟨by simp [Http.requestLine], fun field _ => ?_⟩
    rw [Http.fieldLine_eq]
    simp
  simp only [hlines]
  constructor
  · rw [Http.requestText_toList, Http.readRequest?_joined_iff hne, Http.unbroken_lines_iff,
      Endpoint.unbroken_url_iff hurl]
    simp only [hperm.mem_iff]
  · rw [Http.ReadRequest.Whole, List.tail_cons, Http.byteLength_toList, Http.bodySize?_eq_some_iff]
    simp only [true_and, hperm.mem_iff]

/-- A header of the transport, and one of the client that the request replaces. -/
def sealedTransport : HttpTransport := { localTransport with headers := [("X-Shop", "hats")] }

def sealedHeaders : List (String × String) :=
  sealedTransport.merged [("Authorization", "none")] [("Authorization", "Bearer é")]

theorem sealedHeaders_eq :
    sealedHeaders = [("Authorization", "Bearer é"), ("X-Shop", "hats")] := by
  simp [sealedHeaders, HttpTransport.merged, HttpTransport.merge, sealedTransport, Keyed.sortByName,
    Keyed.insertAll, Keyed.insert, List.mergeSort]

theorem sealed_request_read :
    ∃ request : Http.ReadRequest,
      Http.readRequest? (Http.requestText ⟨"localhost", 4000, "/graphql"⟩ sealedHeaders "[é]").toList =
        some request ∧
      request.lines = ["POST /graphql HTTP/1.1".toList, "Host: localhost".toList,
        "Content-Type: application/json".toList, "Accept: application/json".toList,
        "Content-Length: 4".toList, "Connection: close".toList, "Authorization: Bearer é".toList,
        "X-Shop: hats".toList] ∧
      request.body = "[é]".toList ∧ request.Whole := by
  have hurl : Endpoint.ofUrl sealedTransport.url = .ok ⟨"localhost", 4000, "/graphql"⟩ :=
    ofUrl_localTransport
  obtain ⟨hread, hwhole⟩ := (@HttpTransport.readRequest?_iff sealedTransport _
    [("Authorization", "none")] [("Authorization", "Bearer é")] "[é]" hurl (by decide) (by decide)
      (by decide)).2.2 sealedHeaders (.refl _)
  change _ ↔ _ ∧ ∀ header ∈ sealedHeaders, _ at hread
  change _ ↔ ∀ header ∈ sealedHeaders, _ at hwhole
  rw [sealedHeaders_eq] at hread hwhole
  rw [sealedHeaders_eq]
  exact ⟨_, hread.2 ⟨by decide, by decide⟩, rfl, rfl, hwhole.2 (by decide)⟩

/-- An empty line in the value of a header ends the head there: the body that is read begins with the
rest of the value. A second size for the body leaves none that the head gives. -/
theorem header_splits_request :
    Endpoint.ofUrl localTransport.url = .ok ⟨"localhost", 4000, "/graphql"⟩ ∧
    (Http.readRequest? (Http.requestText ⟨"localhost", 4000, "/graphql"⟩
      (localTransport.merged [] [("X-Note", "a\r\n\r\nb")]) "[]").toList).map
        Http.ReadRequest.body = some "b\r\n\r\n[]".toList ∧
    (Http.readRequest? (Http.requestText ⟨"localhost", 4000, "/graphql"⟩
      (localTransport.merged [] [("Content-Length", "0")]) "[]").toList).map
        (fun request => Http.bodySize? request.lines.tail) = some none := by
  have hsingle : ∀ header, localTransport.merged [] [header] = [header] := by
    intro header
    simp [HttpTransport.merged, HttpTransport.merge, localTransport, HttpTransport.ofUrl,
      Keyed.sortByName, Keyed.insertAll, Keyed.insert]
  rw [hsingle, hsingle]
  exact ⟨ofUrl_localTransport, by decide +kernel, by decide +kernel⟩

end GraphQLClient
