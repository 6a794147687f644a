import GraphQLClient.Proofs.Http.Requests

set_option autoImplicit false

/-!
# Addresses of servers

What a URL is read as: the host, the port and the path stand behind the scheme, the path from the first
slash on, and the port behind the last colon in front of it. What was read is read again from the URL
that is put together from it. A URL names a host unless nothing is left in front of its port and path;
one that names none is refused where it gives no port either, but not where it gives one.
-/

namespace GraphQLClient

open Text

namespace Text

theorem lt_of_decimal16? {digits : List Char} {number : Nat}
    (h : decimal16? digits = some number) : number < UInt16.size := by
  unfold decimal16? at h
  dsimp only at h
  split at h
  · rename_i hdigits
    obtain rfl := Option.some.inj h
    simp only [Bool.and_eq_true, decide_eq_true_eq] at hdigits
    exact hdigits.2
  · cases h

end Text

namespace Endpoint

/-! ## The parts of a URL -/

/-- What stands behind the scheme. -/
def afterScheme (url : String) : List Char :=
  (after? "http://".toList (trim url.toList)).getD (trim url.toList)

/-- What stands in front of the path: the host, and maybe a port. -/
def authority (url : String) : List Char := (afterScheme url).takeWhile (· ≠ '/')

/-- The URL asks for a secure connection. -/
def Secure (url : String) : Prop := "https://".toList <+: trim url.toList

/-- The URL names no host: it has no authority, or one that is a port alone. -/
def Hostless (url : String) : Prop :=
  authority url = [] ∨ ∃ port, authority url = ':' :: port ∧ ':' ∉ port

/-- The URL that is put together from all parts of an endpoint. -/
def url (endpoint : Endpoint) : String :=
  "http://" ++ endpoint.host ++ ":" ++ toString endpoint.port ++ endpoint.path

theorem isSome_after?_iff {mark text : List Char} : (after? mark text).isSome ↔ mark <+: text := by
  constructor
  · intro h
    obtain ⟨rest, hrest⟩ := Option.isSome_iff_exists.1 h
    exact ⟨rest, (eq_append_of_after? hrest).symm⟩
  · rintro ⟨rest, rfl⟩
    rw [after?_append, Option.isSome_some]

/-- The last colon divides host and port. -/
theorem cutPort?_eq_some_iff {text host port : List Char} :
    cutPort? text = some (host, port) ↔ text = host ++ ':' :: port ∧ ':' ∉ port := by
  constructor
  · intro h
    refine ⟨cutPort?_eq_some h, ?_⟩
    obtain ⟨⟨before, after⟩, hcut, hport⟩ := Option.map_eq_some_iff.1 h
    obtain ⟨rfl, rfl⟩ := Prod.mk.inj hport
    exact fun hmem => not_mem_of_cutAt? hcut (List.mem_reverse.1 hmem)
  · rintro ⟨rfl, hport⟩
    have hcut : cutAt? ':' (port.reverse ++ ':' :: host.reverse) = some (port.reverse, host.reverse) :=
      cutAt?_append (fun hmem => hport (List.mem_reverse.1 hmem)) host.reverse
    have hreverse : (host ++ ':' :: port).reverse = port.reverse ++ ':' :: host.reverse := by simp
    rw [cutPort?, hreverse, hcut]
    simp

theorem not_mem_of_cutPort? {text : List Char} (h : cutPort? text = none) : ':' ∉ text := by
  intro hmem
  obtain ⟨port, host, htext, hport⟩ := List.eq_append_cons_of_mem (List.mem_reverse.2 hmem)
  rw [cutPort?, htext, cutAt?_append hport] at h
  cases h

/-! ## Reading a URL -/

variable {url : String} {endpoint : Endpoint}

theorem ofUrl_of_secure (h : Secure url) : ofUrl url = .error httpsRefusal := by
  simp only [ofUrl, isSome_after?_iff.2 h, if_true]

/-- What is read of a URL without a secure scheme. -/
theorem ofUrl_eq (h : ¬ Secure url) : ofUrl url =
    if authority url = [] then
      .error (.new .invalidUrl ("Missing host in `" ++ String.ofList (trim url.toList) ++ "`"))
    else
      match cutPort? (authority url) with
      | none => .ok ⟨String.ofList (authority url), 80, String.ofList (cutPath (afterScheme url)).2⟩
      | some (host, port) =>
        match decimal16? port with
        | some number => .ok ⟨String.ofList host, number, String.ofList (cutPath (afterScheme url)).2⟩
        | none => .error (.new .invalidUrl ("Invalid port: " ++ String.ofList port)) := by
  have hsecure : ¬ (after? "https://".toList (trim url.toList)).isSome = true :=
    fun hsome => h (isSome_after?_iff.1 hsome)
  simp only [ofUrl, if_neg hsecure]
  by_cases hempty : authority url = []
  · have hcut : (cutPath ((after? "http://".toList (trim url.toList)).getD (trim url.toList))).1.isEmpty
        = true := List.isEmpty_iff.2 hempty
    rw [if_pos hempty, if_pos hcut]
  · have hcut : ¬ (cutPath ((after? "http://".toList (trim url.toList)).getD
        (trim url.toList))).1.isEmpty = true := fun hnil => hempty (List.isEmpty_iff.1 hnil)
    rw [if_neg hempty, if_neg hcut]
    rfl

/-- A good URL has an authority that is the host, or the host and a port that is a number. -/
theorem authority_of_ofUrl (h : ofUrl url = .ok endpoint) :
    ¬ Secure url ∧ authority url ≠ [] ∧
      endpoint.path.toList = (cutPath (afterScheme url)).2 ∧
      (':' ∉ authority url ∧ endpoint.host.toList = authority url ∧ endpoint.port = 80 ∨
        ∃ digits, authority url = endpoint.host.toList ++ ':' :: digits ∧ ':' ∉ digits ∧
          decimal16? digits = some endpoint.port) := by
  have hsecure : ¬ Secure url := fun hsecure => by
    rw [ofUrl_of_secure hsecure] at h
    cases h
  rw [ofUrl_eq hsecure] at h
  split at h
  · cases h
  · rename_i hne
    refine ⟨hsecure, hne, ?_⟩
    split at h
    · rename_i hport
      obtain rfl := Except.ok.inj h
      simp only [String.toList_ofList, true_and]
      exact .inl ⟨not_mem_of_cutPort? hport, trivial⟩
    · rename_i host port hport
      obtain ⟨hauthority, hcolon⟩ := cutPort?_eq_some_iff.1 hport
      split at h
      · rename_i number hnumber
        obtain rfl := Except.ok.inj h
        simp only [String.toList_ofList, true_and]
        exact .inr ⟨port, hauthority, hcolon, hnumber⟩
      · cases h

theorem slash_not_mem_authority (url : String) : '/' ∉ authority url := fun hmem => by
  simpa using List.mem_takeWhile_imp hmem

theorem port_lt (h : ofUrl url = .ok endpoint) : endpoint.port < UInt16.size := by
  obtain ⟨-, -, -, ⟨-, -, hport⟩ | ⟨digits, -, -, hport⟩⟩ := authority_of_ofUrl h
  · rw [hport]
    decide
  · exact lt_of_decimal16? hport

theorem slash_not_mem_host (h : ofUrl url = .ok endpoint) : '/' ∉ endpoint.host.toList := by
  obtain ⟨-, -, -, ⟨-, hhost, -⟩ | ⟨digits, hauthority, -⟩⟩ := authority_of_ofUrl h
  · rw [hhost]
    exact slash_not_mem_authority url
  · intro hmem
    exact slash_not_mem_authority url (hauthority ▸ List.mem_append_left _ hmem)

/-- A path begins with a slash, and does not end with a blank: the URL is read without blanks at its
ends. -/
theorem path_ends (h : ofUrl url = .ok endpoint) :
    (∃ rest, endpoint.path.toList = '/' :: rest) ∧
      ∃ front c, endpoint.path.toList = front ++ [c] ∧ isBlank c = false := by
  obtain ⟨scheme, port, path, htext, -, -, hpath⟩ := ofUrl_eq_ok h
  obtain ⟨-, hslash⟩ | ⟨heq, rest, hrest⟩ := hpath
  · exact ⟨⟨[], hslash⟩, [], '/', hslash, rfl⟩
  · rw [heq]
    refine ⟨⟨rest, hrest⟩, ?_⟩
    have hne : path ≠ [] := hrest ▸ List.cons_ne_nil _ _
    have hlast : trim url.toList =
        scheme ++ (endpoint.host.toList ++ (port ++ path.dropLast)) ++ [path.getLast hne] := by
      rw [htext]
      simp [List.dropLast_concat_getLast hne]
    exact ⟨path.dropLast, path.getLast hne, (List.dropLast_concat_getLast hne).symm,
      isBlank_last hlast⟩

/-- The first slash begins the path. -/
theorem cutPath_append {text : List Char} (h : '/' ∉ text) (rest : List Char) :
    cutPath (text ++ '/' :: rest) = (text, '/' :: rest) := by
  have hplain : ∀ c ∈ text, decide (c ≠ '/') = true := fun c hc => by
    have hslash : c ≠ '/' := fun heq => h (heq ▸ hc)
    simpa using hslash
  have htake : (text ++ '/' :: rest).takeWhile (· ≠ '/') = text := by
    rw [List.takeWhile_append_of_pos hplain, List.takeWhile_cons_of_neg (by simp), List.append_nil]
  have hdrop : (text ++ '/' :: rest).dropWhile (· ≠ '/') = '/' :: rest := by
    rw [List.dropWhile_append_of_pos hplain, List.dropWhile_cons_of_neg (by simp)]
  rw [cutPath, htake, hdrop]
  rfl

theorem toList_url (endpoint : Endpoint) : endpoint.url.toList = "http://".toList ++
    (endpoint.host.toList ++ ':' :: Nat.toDigits 10 endpoint.port ++ endpoint.path.toList) := by
  simp [Endpoint.url]

/-- A host without a slash, a port of 16 bits and a path are read from their URL. -/
theorem ofUrl_url {rest front : List Char} {c : Char} (hhost : '/' ∉ endpoint.host.toList)
    (hport : endpoint.port < UInt16.size) (hpath : endpoint.path.toList = '/' :: rest)
    (hend : endpoint.path.toList = front ++ [c]) (hc : isBlank c = false) :
    ofUrl endpoint.url = .ok endpoint := by
  let digits := Nat.toDigits 10 endpoint.port
  have htext : endpoint.url.toList =
      "http://".toList ++ (endpoint.host.toList ++ ':' :: digits ++ endpoint.path.toList) := toList_url _
  have hdigits : ∀ d ∈ digits, isDigit d = true := fun d hd => isDigit_of_mem_toDigits hd
  have htrim : trim endpoint.url.toList = endpoint.url.toList := by
    have hfirst : isBlank 'h' = false := by decide
    have hlast : endpoint.url.toList =
        "http://".toList ++ (endpoint.host.toList ++ ':' :: digits) ++ front ++ [c] := by
      rw [htext, hend]
      simp
    rw [htext] at hlast ⊢
    exact trim_eq_self_of_ends hfirst hc hlast
  have hsecure : ¬ Secure endpoint.url := by
    rw [Secure, htrim, htext]
    rintro ⟨more, hmore⟩
    cases hmore
  have hslash : '/' ∉ endpoint.host.toList ++ ':' :: digits := by
    refine List.not_mem_append hhost (List.not_mem_cons_of_ne_of_not_mem (by decide) fun hmem => ?_)
    exact absurd (hdigits _ hmem) (by decide)
  have hcut : cutPath (afterScheme endpoint.url) =
      (endpoint.host.toList ++ ':' :: digits, endpoint.path.toList) := by
    rw [afterScheme, htrim, htext, after?_append, Option.getD_some, hpath, cutPath_append hslash]
  have hauthority : authority endpoint.url = endpoint.host.toList ++ ':' :: digits := by
    rw [show authority endpoint.url = (cutPath (afterScheme endpoint.url)).1 from rfl, hcut]
  have hcolon : cutPort? (endpoint.host.toList ++ ':' :: digits) = some (endpoint.host.toList, digits) :=
    cutPort?_eq_some_iff.2 ⟨rfl, fun hmem => absurd (hdigits _ hmem) (by decide)⟩
  have hnumber : decimal16? digits = some endpoint.port := decimal16?_toDigits hport
  rw [ofUrl_eq hsecure, hauthority, if_neg (by simp), hcolon, hcut]
  simp only [hnumber, String.ofList_toList]

/-! ## URLs without a host -/

/-- No host is read exactly from a URL that names none. -/
theorem host_eq_empty_iff (h : ofUrl url = .ok endpoint) : endpoint.host = "" ↔ Hostless url := by
  obtain ⟨-, hne, -, hauthority⟩ := authority_of_ofUrl h
  rw [← String.toList_eq_nil_iff]
  constructor
  · intro hhost
    obtain ⟨-, heq, -⟩ | ⟨digits, heq, hdigits, -⟩ := hauthority
    · exact absurd (heq.symm.trans hhost) hne
    · rw [hhost, List.nil_append] at heq
      exact .inr ⟨digits, heq, hdigits⟩
  · rintro (hempty | ⟨port, heq, hport⟩)
    · exact absurd hempty hne
    · obtain ⟨hcolon, -, -⟩ | ⟨digits, heq', -, -⟩ := hauthority
      · exact absurd (heq ▸ List.mem_cons_self) hcolon
      · rw [heq] at heq'
        cases hhost : endpoint.host.toList with
        | nil => rfl
        | cons c host =>
          rw [hhost] at heq'
          obtain ⟨-, rfl⟩ := List.cons.inj heq'
          simp at hport

/-- A URL that names no host is refused as a bad one, unless it is refused for its scheme, or has an
authority that is the number of a port. -/
theorem hostless_refused_iff (h : Hostless url) :
    (∃ failure, ofUrl url = .error failure ∧ failure.code = .invalidUrl) ↔
      ¬ Secure url ∧ ∀ port number, authority url = ':' :: port → decimal16? port ≠ some number := by
  by_cases hsecure : Secure url
  · refine iff_of_false ?_ fun hall => hall.1 hsecure
    rintro ⟨failure, hfailure, hcode⟩
    rw [ofUrl_of_secure hsecure] at hfailure
    obtain rfl := Except.error.inj hfailure
    cases hcode
  · rw [ofUrl_eq hsecure]
    obtain hempty | ⟨port, heq, hport⟩ := h
    · rw [if_pos hempty, hempty]
      exact iff_of_true ⟨_, rfl, rfl⟩ ⟨hsecure, fun _ _ heq => nomatch heq⟩
    · have hcut : cutPort? (authority url) = some ([], port) :=
        cutPort?_eq_some_iff.2 ⟨heq, hport⟩
      rw [if_neg (by rw [heq]; exact List.cons_ne_nil _ _), hcut, heq]
      cases hnumber : decimal16? port with
      | none =>
        refine iff_of_true ⟨.new .invalidUrl ("Invalid port: " ++ String.ofList port),
          by simp only [hnumber], rfl⟩ ⟨hsecure, fun other number heq' => ?_⟩
        obtain ⟨-, rfl⟩ := List.cons.inj heq'
        rw [hnumber]
        exact nofun
      | some number =>
        refine iff_of_false ?_ fun hall => hall.2 port number rfl hnumber
        rintro ⟨failure, hfailure, -⟩
        simp only [hnumber] at hfailure
        cases hfailure

/-- What a good URL is read as: a host without a slash, which is empty exactly if the URL names none, a
path that begins with one, and an endpoint that is read again from its own URL. A URL that names no host
is refused as a bad one exactly if it does not ask for a secure connection and gives no port. -/
theorem ofUrl_usable (url : String) :
    (∀ endpoint, ofUrl url = .ok endpoint →
      (endpoint.host = "" ↔ Hostless url) ∧ '/' ∉ endpoint.host.toList ∧
      (∃ rest, endpoint.path.toList = '/' :: rest) ∧ ofUrl endpoint.url = .ok endpoint) ∧
    (Hostless url → ((∃ failure, ofUrl url = .error failure ∧ failure.code = .invalidUrl) ↔
      ¬ Secure url ∧ ∀ port number, authority url = ':' :: port → decimal16? port ≠ some number)) := by
  refine ⟨fun endpoint h => ?_, hostless_refused_iff⟩
  obtain ⟨⟨rest, hrest⟩, front, c, hend, hc⟩ := path_ends h
  have hhost := slash_not_mem_host h
  exact ⟨host_eq_empty_iff h, hhost, ⟨rest, hrest⟩, ofUrl_url hhost (port_lt h) hrest hend hc⟩

end Endpoint

/-- Blanks around it, no scheme, a port with a plus sign, colons in the host and no path. -/
def sparseUrl : String := " ::1:+8080 "

theorem sparseUrl_read : Endpoint.ofUrl sparseUrl = .ok ⟨"::1", 8080, "/"⟩ := by rfl

theorem sparseUrl_usable :
    Endpoint.ofUrl sparseUrl = .ok ⟨"::1", 8080, "/"⟩ ∧
      ("::1" = "" ↔ Endpoint.Hostless sparseUrl) ∧
      Endpoint.ofUrl "http://::1:8080/" = .ok ⟨"::1", 8080, "/"⟩ ∧
      Endpoint.Hostless "http:///shop" ∧
      ((∃ failure, Endpoint.ofUrl "http:///shop" = .error failure ∧ failure.code = .invalidUrl) ↔
        ¬ Endpoint.Secure "http:///shop" ∧ ∀ port number,
          Endpoint.authority "http:///shop" = ':' :: port → decimal16? port ≠ some number) := by
  obtain ⟨hhost, -, -, hagain⟩ := (Endpoint.ofUrl_usable sparseUrl).1 _ sparseUrl_read
  have hempty : Endpoint.Hostless "http:///shop" := .inl (by rfl)
  exact ⟨sparseUrl_read, hhost, hagain, hempty, (Endpoint.ofUrl_usable "http:///shop").2 hempty⟩

/-- A URL with a port and no host is taken, and an address without a host comes of it. -/
theorem port_alone_taken : Endpoint.Hostless "http://:4000/graphql" ∧
    Endpoint.ofUrl "http://:4000/graphql" = .ok ⟨"", 4000, "/graphql"⟩ :=
  ⟨.inr ⟨"4000".toList, by rfl, by decide⟩, by rfl⟩

end GraphQLClient
