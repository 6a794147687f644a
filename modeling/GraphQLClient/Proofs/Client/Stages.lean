import GraphQLClient.Http.Exchange
import GraphQLClient.Proofs.Building.Naming
import GraphQLClient.Proofs.Client.LastPage

set_option autoImplicit false

/-!
# Stages of failures

The stage that a failure names tells how far a request came. Over HTTP, whatever the other side does,
a call that fails at the client's stage has not even connected, and one that fails at the server's
stage has written its request once and has read a response to it.
-/

namespace GraphQLClient

theorem Chunked.code_of_readFrom {fuel : Nat} {text : List Char} {failure : Failure}
    (h : readFrom fuel text = .error failure) : failure.code = .invalidResponse := by
  fun_induction readFrom fuel text with
  | case1 => cases h
  | case2 => cases h
  | case3 fuel text line rest hcut size hsize =>
    cases h
    rfl
  | case4 => cases h
  | case5 => cases h
  | case6 fuel text line rest hcut size count hpositive hsize chunk more hsplit ih =>
    cases hr : readFrom fuel (skipLineEnd more) with
    | error found =>
      rw [hr] at h ih
      cases h
      exact ih rfl
    | ok chunks =>
      rw [hr] at h
      cases h

namespace Http

variable {text body : List Char} {failure : Failure}

theorem stage_of_bodyOf (h : bodyOf text = .error failure) : failure.code.stage = .transport := by
  unfold bodyOf at h
  split at h
  · cases h
    rfl
  · split at h
    · rw [Chunked.code_of_readFrom h]
      rfl
    · cases h

theorem stage_of_responseBody (h : responseBody text = .error failure) :
    failure.code.stage = .transport := by
  unfold responseBody at h
  split at h
  · cases h
    rfl
  · cases h
    rfl
  · split at h
    · cases h
      rfl
    · split at h
      · exact stage_of_bodyOf h
      · cases h
        rfl

/-- The text is that of a good answer with this body. -/
def Answers (text body : List Char) : Prop :=
  ∃ line status, (Text.lines text).head? = some line ∧ status? line = some status ∧
    200 ≤ status ∧ status < 300 ∧ bodyOf text = .ok body

theorem answers_of_responseBody (h : responseBody text = .ok body) : Answers text body := by
  unfold responseBody at h
  split at h
  · cases h
  · cases h
  · rename_i line hne hline
    split at h
    · cases h
    · rename_i status hstatus
      split at h
      · rename_i hgood
        exact ⟨line, status, hline, hstatus, hgood.1, hgood.2, h⟩
      · cases h

end Http

theorem Endpoint.stage_of_ofUrl {url : String} {failure : Failure} (h : ofUrl url = .error failure) :
    failure.code.stage = .client := by
  unfold ofUrl at h
  dsimp only at h
  split at h
  · cases h
    rfl
  · split at h
    · cases h
      rfl
    · split at h
      · cases h
      · split at h
        · cases h
        · cases h
          rfl

/-- No operation is chosen without a name if there is not just one, or by a name that none has. -/
theorem Document.operation_eq_error_iff {document : Document} {name : Option String} :
    (∃ e, document.operation name = .error e) ↔
      name = none ∧ document.operations.length ≠ 1 ∨
      ∃ text, name = some text ∧ ∀ operation ∈ document.operations, operation.name ≠ some text := by
  cases name with
  | some text => simp [operation_some_eq_error_iff]
  | none =>
    have hlength : document.operations = [] ∨ 2 ≤ document.operations.length ↔
        document.operations.length ≠ 1 := by
      rw [← List.length_eq_zero_iff]
      omega
    simp [operation_none_eq_error_iff, exists_or, hlength]

/-- A request over HTTP: how the other side of the connection behaved, and what reached it. -/
structure Contact where
  wire : Wire
  exchange : Exchange

/-- How the other side behaves towards the next request, after all that there was before. -/
abbrev Peer := List Contact → RequestParams → List (String × String) → Wire

namespace HttpTransport

/-- The transport over connections to a peer, with all contacts so far for its state. -/
def facing (http : HttpTransport) (peer : Peer) : Transport (List Contact) :=
  fun params headers => .mk fun contacts =>
    let wire := peer contacts params headers
    let (result, exchange) := http.fetch wire params headers
    (result, contacts ++ [⟨wire, exchange⟩])

/-- The whole request was written, and a good answer with a response for its body was read. -/
structure Completed (http : HttpTransport) (params : RequestParams)
    (headers : List (String × String)) (contact : Contact) : Prop where
  written : ∃ endpoint, Endpoint.ofUrl http.url = .ok endpoint ∧
    contact.exchange = ⟨some endpoint.address, [http.timeout, http.timeout, http.timeout],
      some (Http.requestText endpoint (merge http.headers headers) params.text)⟩
  undisturbed : contact.wire.timeoutAt = none ∧ contact.wire.failure = none
  answered : ∃ body response, Http.Answers (Utf8.decode contact.wire.reply) body ∧
    Response.ofText? (String.ofList body) = some response

variable {http : HttpTransport} {wire : Wire} {params : RequestParams}
  {headers : List (String × String)} {failure : Failure}

theorem failure_eq_none (h : ∀ stage, stageError wire stage = none) : wire.failure = none := by
  cases hf : wire.failure with
  | none => rfl
  | some failing =>
    have hstage := h failing.1
    simp [stageError, hf] at hstage

theorem timeoutAt_eq_none (h : ∀ stage, wire.timeoutAt ≠ some stage) : wire.timeoutAt = none :=
  Option.eq_none_iff_forall_ne_some.2 h

/-- Posting ends before there is a connection, on the way, or with a good answer to the whole
request. -/
theorem post_cases (http : HttpTransport) (wire : Wire) (headers : List (String × String))
    (body : String) :
    match http.post wire headers body with
    | (.error failure, exchange) =>
      failure.code.stage = .client ∧ exchange = .none ∨ failure.code.stage = .transport
    | (.ok received, exchange) =>
      (∃ endpoint, Endpoint.ofUrl http.url = .ok endpoint ∧
        exchange = ⟨some endpoint.address, [http.timeout, http.timeout, http.timeout],
          some (Http.requestText endpoint headers body)⟩) ∧
      (wire.timeoutAt = none ∧ wire.failure = none) ∧
      Http.Answers (Utf8.decode wire.reply) received := by
  fun_cases post http wire headers body with
  | case1 failure hurl => exact .inl ⟨Endpoint.stage_of_ofUrl hurl, rfl⟩
  | case8 endpoint hurl time hc connected hce hw written hwe exchange hr hre =>
    cases hb : Http.responseBody (Utf8.decode wire.reply) with
    | error failure => exact .inr (Http.stage_of_responseBody hb)
    | ok received =>
      refine ⟨⟨endpoint, hurl, rfl⟩, ⟨?_, ?_⟩, Http.answers_of_responseBody hb⟩
      · exact timeoutAt_eq_none fun stage => by cases stage <;> assumption
      · exact failure_eq_none fun stage => by cases stage <;> assumption
  -- The time is over at one of the stages, or the other side breaks it off.
  | _ => exact .inr rfl

/-- Fetching does as posting does, and a body that is no response is trouble on the way. -/
theorem fetch_cases (http : HttpTransport) (wire : Wire) (params : RequestParams)
    (headers : List (String × String)) :
    match http.fetch wire params headers with
    | (.error failure, exchange) =>
      failure.code.stage = .client ∧ exchange = .none ∨ failure.code.stage = .transport
    | (.ok _, exchange) => http.Completed params headers ⟨wire, exchange⟩ := by
  have hpost := post_cases http wire (merge http.headers headers) params.text
  unfold fetch
  rcases hp : http.post wire (merge http.headers headers) params.text with
    ⟨failure | body, exchange⟩ <;> rw [hp] at hpost
  · exact hpost
  · obtain ⟨hwritten, hundisturbed, hanswered⟩ := hpost
    dsimp only [Except.bind]
    unfold readBody
    cases hr : Response.ofText? (String.ofList body) with
    | none => exact .inr rfl
    | some response => exact ⟨hwritten, hundisturbed, body, response, hanswered, hr⟩

end HttpTransport

namespace Sending

variable {α β : Type} {http : HttpTransport} {peer : Peer} {params : RequestParams}
  {headers : List (String × String)}

/-- One request is sent, and the stage of a failure tells how far it came. -/
def Asks (http : HttpTransport) (params : RequestParams) (headers : List (String × String))
    (sending : Sending (List Contact) α) : Prop :=
  ∀ before, ∃ contact, (sending.run.run before).2 = before ++ [contact] ∧
    match (sending.run.run before).1 with
    | .ok _ => http.Completed params headers contact
    | .error failure =>
      (failure.code.stage = .client → contact.exchange = .none) ∧
        (failure.code.stage = .server → http.Completed params headers contact)

/-- Nothing is sent, and a failure is not one of the client's stage. -/
def Settles (sending : Sending (List Contact) α) : Prop :=
  ∀ before, (sending.run.run before).2 = before ∧
    ∀ failure, (sending.run.run before).1 = .error failure → failure.code.stage ≠ .client

theorem settles_pure (value : α) : Settles (pure value) := fun _ => ⟨rfl, nofun⟩

theorem settles_throw {failure : Failure} (h : failure.code.stage ≠ .client) :
    Settles (throw failure : Sending (List Contact) α) := by
  refine fun _ => ⟨rfl, fun found hf => ?_⟩
  obtain rfl := Except.error.inj hf
  exact h

theorem run_facing {before : List Contact} {result : Except Failure Response} {exchange : Exchange}
    (h : http.fetch (peer before params headers) params headers = (result, exchange)) :
    (http.facing peer params headers).run.run before =
      (result, before ++ [⟨peer before params headers, exchange⟩]) := by
  change (let (result, exchange) := http.fetch (peer before params headers) params headers;
    (result, before ++ [Contact.mk (peer before params headers) exchange])) = _
  rw [h]

theorem asks_facing : Asks http params headers (http.facing peer params headers) := by
  intro before
  have hfetch := http.fetch_cases (peer before params headers) params headers
  rcases hf : http.fetch (peer before params headers) params headers with
    ⟨failure | response, exchange⟩ <;> rw [hf] at hfetch <;> rw [run_facing hf]
  · refine ⟨_, rfl, ?_⟩
    obtain ⟨hstage, hnone⟩ | hstage := hfetch <;> simp [*]
  · exact ⟨_, rfl, hfetch⟩

/-- What settles after an answer leaves it at the one request. -/
theorem Asks.bind {sending : Sending (List Contact) α} {then' : α → Sending (List Contact) β}
    (h : Asks http params headers sending) (hthen : ∀ value, Settles (then' value)) :
    Asks http params headers (sending >>= then') := by
  intro before
  obtain ⟨contact, hafter, hresult⟩ := h before
  rcases hr : sending.run.run before with ⟨failure | value, after⟩ <;> rw [hr] at hafter hresult
  · rw [Client.run_bind_error hr]
    exact ⟨contact, hafter, hresult⟩
  · rw [Client.run_bind hr]
    obtain ⟨hstay, hstage⟩ := hthen value after
    refine ⟨contact, hstay.trans hafter, ?_⟩
    cases hv : ((then' value).run.run after).1 with
    | ok found => exact hresult
    | error failure => exact ⟨fun hc => absurd hc (hstage failure hv), fun _ => hresult⟩

/-- A failure at the client's stage comes before there is any connection. One at the server's stage
comes after one request, for something that may be asked, that was completed. -/
def Truthful (http : HttpTransport) (asked : RequestParams → List (String × String) → Prop)
    (sending : Sending (List Contact) α) (before : List Contact) : Prop :=
  ∀ failure after, sending.run.run before = (.error failure, after) →
    ∃ contacts, after = before ++ contacts ∧
      (failure.code.stage = .client → ∀ contact ∈ contacts, contact.exchange = .none) ∧
      (failure.code.stage = .server → ∃ params headers contact, asked params headers ∧
        contacts = [contact] ∧ http.Completed params headers contact)

variable {asked : RequestParams → List (String × String) → Prop}

theorem Asks.truthful {sending : Sending (List Contact) α} (h : Asks http params headers sending)
    (ha : asked params headers) (before : List Contact) : Truthful http asked sending before := by
  intro failure after hrun
  obtain ⟨contact, hafter, hresult⟩ := h before
  rw [hrun] at hafter hresult
  refine ⟨[contact], hafter, fun hc => ?_, fun hs => ?_⟩
  · exact List.forall_mem_singleton.2 (hresult.1 hc)
  · exact ⟨params, headers, contact, ha, rfl, hresult.2 hs⟩

theorem truthful_throw {failure : Failure} (h : failure.code.stage = .client)
    (before : List Contact) :
    Truthful http asked (throw failure : Sending (List Contact) α) before := by
  rintro _ _ ⟨⟩
  refine ⟨[], (List.append_nil _).symm, fun _ _ hm => absurd hm List.not_mem_nil, fun hs => ?_⟩
  rw [h] at hs
  cases hs

end Sending

theorem Failure.stage_ofModelError (e : ModelError) : (ofModelError e).code.stage = .client := by
  cases e <;> rfl

theorem Reply.stage_of_checkedModel {reply : Reply} {failure : Failure}
    (h : reply.checkedModel = .error failure) : failure.code.stage = .server := by
  unfold checkedModel at h
  split at h
  · cases h
    rfl
  · split at h
    · cases h
    · cases h
      rfl

namespace Client

open Sending

variable {client : Client} {http : HttpTransport} {peer : Peer} {operation : Operation}
  {values : List (String × Json)}

/-- The request for an operation alone, with the client's headers. -/
def IsRequest (client : Client) (operation : Operation) (values : List (String × Json))
    (params : RequestParams) (headers : List (String × String)) : Prop :=
  params = .make (operation.text client.context) values operation.name [] ∧
    headers = Keyed.sortByName client.headers

/-- The request for the chosen operation of a document. -/
def IsDocumentRequest (client : Client) (document : Document) (options : SendOptions)
    (params : RequestParams) (headers : List (String × String)) : Prop :=
  ∃ operation, document.operation options.operationName = .ok operation ∧
    params = .make (document.text client.context) options.values operation.name options.extra ∧
    headers = Keyed.sortByName (Keyed.insertAll client.headers options.headers)

/-- The request for a follow-up query, if there is one. -/
def IsFollowUpRequest (client : Client) (asked : Except ModelError FollowUp)
    (params : RequestParams) (headers : List (String × String)) : Prop :=
  ∃ next, asked = .ok next ∧ client.IsRequest next.operation next.values params headers

theorem asks_execute (params : RequestParams) (headers : List (String × String)) :
    Asks http params (Keyed.sortByName (Keyed.insertAll client.headers headers))
      (client.execute (http.facing peer) operation params values headers) :=
  asks_facing.bind fun _ => settles_pure _

theorem asks_sendFollowUp (next : FollowUp) :
    Asks http (client.request next) (Keyed.sortByName client.headers)
      (client.sendFollowUp (http.facing peer) next) := by
  refine Asks.bind (asks_execute _ _) fun reply => ?_
  cases hc : reply.checkedModel with
  | ok model => exact settles_pure model
  | error failure =>
    refine settles_throw ?_
    rw [Reply.stage_of_checkedModel hc]
    exact nofun

theorem truthful_send (operation : Operation) (values : List (String × Json))
    (before : List Contact) :
    Truthful http (client.IsRequest operation values)
      (client.send (http.facing peer) operation values) before :=
  (asks_execute _ _).truthful ⟨rfl, rfl⟩ before

theorem truthful_sendDocument (document : Document) (options : SendOptions)
    (before : List Contact) :
    Truthful http (client.IsDocumentRequest document options)
      (client.sendDocument (http.facing peer) document options) before := by
  unfold sendDocument
  cases hchosen : document.operation options.operationName with
  | error e => exact truthful_throw rfl before
  | ok operation => exact (asks_execute _ _).truthful ⟨operation, hchosen, rfl, rfl⟩ before

theorem truthful_fetchNextPage (connection : Connection) (before : List Contact) :
    Truthful http (client.IsFollowUpRequest connection.nextPage)
      (client.fetchNextPage (http.facing peer) connection) before := by
  unfold fetchNextPage
  cases hnext : connection.nextPage with
  | error e => exact truthful_throw (Failure.stage_ofModelError e) before
  | ok next =>
    refine (Asks.bind (asks_sendFollowUp next) fun root => ?_).truthful ⟨next, rfl, rfl, rfl⟩ before
    split
    · exact settles_pure _
    · exact settles_throw nofun

theorem truthful_refetch (model : Model) (before : List Contact) :
    Truthful http (client.IsFollowUpRequest model.refetch)
      (client.refetch (http.facing peer) model) before := by
  unfold refetch
  cases hagain : model.refetch with
  | error e => exact truthful_throw (Failure.stage_ofModelError e) before
  | ok again =>
    refine (Asks.bind (asks_sendFollowUp again) fun root => ?_).truthful ⟨again, rfl, rfl, rfl⟩ before
    split
    · exact settles_pure _
    all_goals exact settles_throw nofun

section

variable {σ : Type} {transport : Transport σ}

theorem cases_of_run_bind_eq_error {α β : Type} {sending : Sending σ α} {then' : α → Sending σ β}
    {failure : Failure} {before after : σ}
    (h : (sending >>= then').run.run before = (.error failure, after)) :
    sending.run.run before = (.error failure, after) ∨
      ∃ first between, sending.run.run before = (.ok first, between) ∧
        (then' first).run.run between = (.error failure, after) := by
  rcases hrun : sending.run.run before with ⟨found | first, between⟩
  · rw [run_bind_error hrun] at h
    cases h
    exact .inl rfl
  · rw [run_bind hrun] at h
    exact .inr ⟨first, between, rfl, h⟩

theorem run_pure_ne_error {α : Type} {value : α} {failure : Failure} {before after : σ} :
    (pure value : Sending σ α).run.run before ≠ (.error failure, after) := fun h => by
  cases (Prod.mk.inj h).1

theorem not_ends_of_fetchFurther_eq_error {limit : Nat} {current : Connection} {failure : Failure}
    {before after : σ}
    (h : (client.fetchFurther transport limit current).run.run before = (.error failure, after)) :
    ¬ Ends current := by
  intro hends
  rw [fetchFurther_of_ends hends] at h
  cases (Prod.mk.inj h).1

/-- Pages are fetched until one cannot be fetched. -/
theorem visits_of_fetchFurther_eq_error {limit : Nat} {current : Connection} {failure : Failure}
    {before after : σ}
    (h : (client.fetchFurther transport limit current).run.run before = (.error failure, after)) :
    ∃ pages between, pages.length < limit ∧ client.Visits transport current before pages between ∧
      ¬ Ends (pages.getLastD current) ∧
      (client.fetchNextPage transport (pages.getLastD current)).run.run between =
        (.error failure, after) := by
  induction limit generalizing current before with
  | zero =>
    rw [fetchFurther_of_not_ends (not_ends_of_fetchFurther_eq_error h)] at h
    exact absurd h run_pure_ne_error
  | succ limit ih =>
    have hends := not_ends_of_fetchFurther_eq_error h
    rw [fetchFurther_of_not_ends hends] at h
    obtain hfailed | ⟨page, between, hpage, hmore⟩ := cases_of_run_bind_eq_error h
    · exact ⟨[], before, Nat.succ_pos limit, .stop, hends, hfailed⟩
    obtain hmore | ⟨_, _, -, hpure⟩ := cases_of_run_bind_eq_error hmore
    · obtain ⟨pages, last, hlength, hvisits, hlast, hfailed⟩ := ih hmore
      obtain ⟨next, found, turn⟩ := fetchNextPage_eq_ok_iff.1 hpage
      obtain ⟨further, held⟩ := not_ends_iff.1 hends
      refine ⟨page :: pages, last, Nat.succ_lt_succ hlength, .turn further held turn hvisits, ?_, ?_⟩
      all_goals rwa [List.getLastD_cons]
    · exact absurd hpure run_pure_ne_error

theorem visits_of_fetchAllPages_eq_error {limit : Nat} {connection : Connection} {failure : Failure}
    {before after : σ}
    (h : (client.fetchAllPages transport limit connection).run.run before =
      (.error failure, after)) :
    ∃ pages between, pages.length < limit ∧
      client.Visits transport connection before pages between ∧
      ¬ Ends (pages.getLastD connection) ∧
      (client.fetchNextPage transport (pages.getLastD connection)).run.run between =
        (.error failure, after) := by
  obtain hfurther | ⟨_, _, -, hpure⟩ := cases_of_run_bind_eq_error h
  · exact visits_of_fetchFurther_eq_error hfurther
  · exact absurd hpure run_pure_ne_error

end

theorem sendDocument_of_no_choice {document : Document} {options : SendOptions}
    (h : options.operationName = none ∧ document.operations.length ≠ 1 ∨
      ∃ name, options.operationName = some name ∧
        ∀ operation ∈ document.operations, operation.name ≠ some name)
    (before : List Contact) : ∃ failure, failure.code = .noOperation ∧
      (client.sendDocument (http.facing peer) document options).run.run before =
        (.error failure, before) := by
  obtain ⟨e, he⟩ := Document.operation_eq_error_iff.2 h
  refine ⟨.ofChoiceError e, rfl, ?_⟩
  rw [sendDocument, he]
  rfl

/-- A call over HTTP that fails at the client's stage has written nothing, and one that fails at the
server's stage has written its whole request once and has read a good answer with a response for its
body. When all pages are fetched, that is so for the page that could not be fetched. A document that
selects no operation, more than one or an unknown one causes no request. -/
theorem stages_truthful (client : Client) (http : HttpTransport) (peer : Peer)
    (before : List Contact) :
    (∀ operation values, Truthful http (client.IsRequest operation values)
      (client.send (http.facing peer) operation values) before) ∧
    (∀ document options, Truthful http (client.IsDocumentRequest document options)
      (client.sendDocument (http.facing peer) document options) before) ∧
    (∀ connection, Truthful http (client.IsFollowUpRequest connection.nextPage)
      (client.fetchNextPage (http.facing peer) connection) before) ∧
    (∀ model, Truthful http (client.IsFollowUpRequest model.refetch)
      (client.refetch (http.facing peer) model) before) ∧
    (∀ limit connection failure after,
      (client.fetchAllPages (http.facing peer) limit connection).run.run before =
        (.error failure, after) →
      ∃ pages current between, client.Visits (http.facing peer) connection before pages between ∧
        current = pages.getLastD connection ∧ ¬ Ends current ∧
        (client.fetchNextPage (http.facing peer) current).run.run between =
          (.error failure, after) ∧
        Truthful http (client.IsFollowUpRequest current.nextPage)
          (client.fetchNextPage (http.facing peer) current) between) ∧
    (∀ (document : Document) (options : SendOptions),
      (options.operationName = none ∧ document.operations.length ≠ 1 ∨
        ∃ name, options.operationName = some name ∧
          ∀ operation ∈ document.operations, operation.name ≠ some name) →
      ∃ failure, failure.code = .noOperation ∧
        (client.sendDocument (http.facing peer) document options).run.run before =
          (.error failure, before)) := by
  refine ⟨fun operation values => truthful_send operation values before,
    fun document options => truthful_sendDocument document options before,
    fun connection => truthful_fetchNextPage connection before,
    fun model => truthful_refetch model before, ?_,
    fun document options h => sendDocument_of_no_choice h before⟩
  intro limit connection failure after h
  obtain ⟨pages, between, -, hvisits, hends, hfailed⟩ := visits_of_fetchAllPages_eq_error h
  exact ⟨pages, _, between, hvisits, rfl, hends, hfailed, truthful_fetchNextPage _ between⟩

end Client

/-- The other side takes every request and answers with an error. -/
def busyPeer : Peer := fun _ _ _ =>
  ⟨"HTTP/1.1 200 OK\r\n\r\n\x7b\"errors\":[\x7b\"message\":\"Busy\"\x7d]\x7d".toUTF8.toList, none, none⟩

def listingHttp : HttpTransport := .ofUrl "http://localhost/graphql"

/-- The page is refused by the server: it was asked for once, and there was a response. -/
theorem busy_page : ∃ failure params headers contact,
    (listingClient.fetchNextPage (listingHttp.facing busyPeer) listingFirst).run.run [] =
      (.error failure, [contact]) ∧
    failure.code.stage = .server ∧ listingHttp.Completed params headers contact := by
  have hfails : (match ((listingClient.fetchNextPage (listingHttp.facing busyPeer)
      listingFirst).run.run []).1 with
    | .ok _ => false
    | .error failure => failure.code.stage == .server) = true := by decide +kernel
  rcases hrun : (listingClient.fetchNextPage (listingHttp.facing busyPeer) listingFirst).run.run [] with
    ⟨failure | page, after⟩ <;> rw [hrun] at hfails
  · have hstage : failure.code.stage = .server := eq_of_beq hfails
    obtain ⟨contacts, rfl, -, hserver⟩ :=
      (Client.stages_truthful listingClient listingHttp busyPeer []).2.2.1 listingFirst failure after hrun
    obtain ⟨params, headers, contact, -, rfl, hcompleted⟩ := hserver hstage
    exact ⟨failure, params, headers, contact, rfl, hstage, hcompleted⟩
  · cases hfails

end GraphQLClient
