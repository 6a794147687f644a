import GraphQLClient.Proofs.Client.LastPage
import GraphQLClient.Proofs.Language.OperationText
import GraphQLClient.Proofs.Paging.Roots

set_option autoImplicit false

/-!
# What is sent for more

A transport can be made to record what it is given. Whatever is fetched over it, objects that are
fetched again and pages that are fetched one after the other send queries only, as long as the first
page came from a query or has an anchor to start from: every further page then came from a query too.
-/

namespace GraphQLClient

/-- The transport, with a record of the requests that it was given. -/
def Transport.recorded {σ : Type} (transport : Transport σ) : Transport (σ × List RequestParams) :=
  fun params headers => .mk fun state =>
    let (result, after) := (transport params headers).run.run state.1
    (result, after, state.2 ++ [params])

/-- Both computations end alike, and the second one records the requests it sends, which are as `P`
says. -/
def Sending.Records {σ α : Type} (P : RequestParams → Prop) (sending : Sending σ α)
    (recorded : Sending (σ × List RequestParams) α) : Prop :=
  ∀ state before, ∃ sent, (∀ params ∈ sent, P params) ∧
    recorded.run.run (state, before) =
      ((sending.run.run state).1, (sending.run.run state).2, before ++ sent)

namespace Sending.Records

variable {σ α β : Type} {P : RequestParams → Prop}

theorem pure (value : α) : Records P (Pure.pure value : Sending σ α) (Pure.pure value) :=
  fun state before => ⟨[], by simp, by rw [List.append_nil]; rfl⟩

theorem throw (failure : Failure) :
    Records P (MonadExcept.throw failure : Sending σ α) (MonadExcept.throw failure) :=
  fun state before => ⟨[], by simp, by rw [List.append_nil]; rfl⟩

theorem transport (transport : Transport σ) {params : RequestParams}
    (headers : List (String × String)) (h : P params) :
    Records P (transport params headers) (transport.recorded params headers) :=
  fun state before => ⟨[params], by simpa using h, rfl⟩

/-- What goes on with a value has to record only for the values that there can be. -/
theorem bind {sending : Sending σ α} {recorded : Sending (σ × List RequestParams) α}
    {then' : α → Sending σ β} {thenRecorded : α → Sending (σ × List RequestParams) β}
    (h : Records P sending recorded)
    (hthen : ∀ value before after, sending.run.run before = (.ok value, after) →
      Records P (then' value) (thenRecorded value)) :
    Records P (sending >>= then') (recorded >>= thenRecorded) := by
  intro state before
  obtain ⟨sent, hsent, hrun⟩ := h state before
  rcases hfirst : sending.run.run state with ⟨failure | value, between⟩
  · rw [hfirst] at hrun
    refine ⟨sent, hsent, ?_⟩
    rw [Client.run_bind_error hrun, Client.run_bind_error hfirst]
  · rw [hfirst] at hrun
    obtain ⟨more, hmore, hrest⟩ := hthen value state between hfirst between (before ++ sent)
    refine ⟨sent ++ more, fun params hp => (List.mem_append.1 hp).elim (hsent _) (hmore _), ?_⟩
    rw [Client.run_bind hrun, Client.run_bind hfirst, hrest, List.append_assoc]

end Sending.Records

theorem Operation.text_eq_keyword_append (operation : Operation) (context : Option Directive) :
    ∃ rest, (operation.text context).toList = operation.kind.keyword.toList ++ rest := by
  rw [text_toList_append, definitionText, headText]
  simp only [String.toList_append, List.append_assoc]
  exact ⟨_, rfl⟩

/-- An operation is told from those of the other kind by its text. -/
theorem Operation.text_ne_of_kind {a b : Operation} (h : a.kind ≠ b.kind)
    (context context' : Option Directive) : a.text context ≠ b.text context' := by
  intro htext
  obtain ⟨rest, ha⟩ := a.text_eq_keyword_append context
  obtain ⟨rest', hb⟩ := b.text_eq_keyword_append context'
  rw [htext, hb] at ha
  exact h (kind_eq ha).symm

namespace Client

variable {σ : Type} {client : Client} {transport : Transport σ}

/-- The request is that for a query on the query root, and for no mutation. -/
structure SendsQuery (client : Client) (params : RequestParams) : Prop where
  query : ∃ next : FollowUp, params = client.request next ∧ next.operation.IsQuery client.bundle
  mutation : ∀ (operation : Operation) (context : Option Directive), operation.kind = .mutation →
    params.query ≠ operation.text context

theorem sendsQuery_request {next : FollowUp} (h : next.operation.IsQuery client.bundle) :
    client.SendsQuery (client.request next) where
  query := ⟨next, rfl, h⟩
  mutation operation context hm := by
    refine Operation.text_ne_of_kind ?_ client.context context
    rw [h.1, hm]
    exact OperationKind.noConfusion

theorem records_sendFollowUp {next : FollowUp} (h : next.operation.IsQuery client.bundle) :
    Sending.Records client.SendsQuery (client.sendFollowUp transport next)
      (client.sendFollowUp transport.recorded next) := by
  refine .bind (.bind (.transport transport _ (sendsQuery_request h)) fun _ _ _ _ => .pure _) ?_
  intro reply before after _
  split
  · exact .pure _
  · exact .throw _

/-- An object is fetched again by a query. -/
theorem records_refetch {model : Model} (h : model.source.bundle = client.bundle) :
    Sending.Records client.SendsQuery (client.refetch transport model)
      (client.refetch transport.recorded model) := by
  unfold refetch
  cases hagain : model.refetch with
  | error e => exact .throw _
  | ok again =>
    refine .bind (records_sendFollowUp (h ▸ Model.isQuery_refetch hagain)) fun root _ _ _ => ?_
    split
    · exact .pure _
    · exact .throw _
    · exact .throw _
    · exact .throw _

/-- The next page of the connection is asked for by a query. -/
def Continues (client : Client) (connection : Connection) : Prop :=
  ∀ mark, connection.mark = some mark → mark.source.bundle = client.bundle ∧ ¬ mark.Resends

theorem isQuery_of_continues {current : Connection} {next : FollowUp}
    (h : client.Continues current) (hn : current.nextPage = .ok next) :
    next.operation.IsQuery client.bundle := by
  unfold Connection.nextPage at hn
  split at hn
  · rename_i mark hmark
    obtain ⟨hbundle, hnot⟩ := h mark hmark
    exact hbundle ▸ (PageMark.rootedAt_nextPage hn).2 hnot
  · cases hn

/-- A page that came from a query is continued by a query. -/
theorem Turn.continues {current page : Connection} {next : FollowUp} {found : List (String × Json)}
    {before after : σ} (turn : client.Turn transport current before next found page after)
    (h : client.Continues current) : client.Continues page := by
  intro mark hmark
  obtain ⟨response, entries, -, -, -, -, hpage⟩ := turn.answered
  obtain ⟨decoded, hdrill, hconnection⟩ := Option.bind_eq_some_iff.1 hpage
  have hdecoded : decoded.mark? = some mark := by
    cases decoded with
    | connection nodes info found =>
      obtain rfl := Option.some.inj hconnection
      exact hmark
    | _ => cases hconnection
  obtain ⟨key, keys, hkeys⟩ : ∃ key keys, next.path = key :: keys := by
    cases hp : next.path with
    | nil =>
      rw [hp] at hdrill
      cases hdrill
    | cons key keys => exact ⟨key, keys, rfl⟩
  rw [hkeys, Decoder.drill_eq_at?] at hdrill
  obtain ⟨hsource, -⟩ := Decoder.usableAnchor?_isSome_iff (by rw [hdrill]; exact hdecoded)
  refine ⟨congrArg Source.bundle hsource, PageMark.not_resends_iff.2 (.inl ?_)⟩
  rw [hsource]
  exact (isQuery_of_continues h turn.asked).1

/-- The step of a run: a page is fetched by a query. -/
theorem records_fetchNextPage {current : Connection} (h : client.Continues current) :
    Sending.Records client.SendsQuery (client.fetchNextPage transport current)
      (client.fetchNextPage transport.recorded current) := by
  unfold fetchNextPage
  cases hnext : current.nextPage with
  | error e => exact .throw _
  | ok next =>
    refine .bind (records_sendFollowUp (isQuery_of_continues h hnext)) fun root _ _ _ => ?_
    split
    · exact .pure _
    · exact .throw _

theorem records_fetchFurther {limit : Nat} {current : Connection} (h : client.Continues current) :
    Sending.Records client.SendsQuery (client.fetchFurther transport limit current)
      (client.fetchFurther transport.recorded limit current) := by
  induction limit generalizing current with
  | zero =>
    unfold fetchFurther
    split
    · exact .pure _
    · exact .pure _
  | succ limit ih =>
    unfold fetchFurther
    split
    · refine .bind (records_fetchNextPage h) fun page before after hpage => ?_
      obtain ⟨next, found, turn⟩ := fetchNextPage_eq_ok_iff.1 hpage
      exact .bind (ih (turn.continues h)) fun _ _ _ _ => .pure _
    · exact .pure _

theorem records_fetchAllPages {limit : Nat} {connection : Connection}
    (h : client.Continues connection) :
    Sending.Records client.SendsQuery (client.fetchAllPages transport limit connection)
      (client.fetchAllPages transport.recorded limit connection) :=
  .bind (records_fetchFurther h) fun _ _ _ _ => .pure _

theorem continues_of_at? {operation : Operation} {values : List (String × Json)} {data : Json}
    {address : List Move} {decoded : Decoded} {connection : Connection}
    (h : (Decoded.object ((client.decoder operation values).decode data)).at? address = some decoded)
    (hc : decoded.connection? = some connection)
    (hm : operation.kind = .mutation → ∀ mark, decoded.mark? = some mark →
      mark.anchor.isSome = true ∧ client.bundle.nodeField?.isSome = true) :
    client.Continues connection := by
  intro mark hmark
  have hdecoded : decoded.mark? = some mark := by
    cases decoded with
    | connection nodes info found =>
      obtain rfl := Option.some.inj hc
      exact hmark
    | _ => cases hc
  obtain ⟨hsource, hanchored⟩ := Decoder.usableAnchor?_isSome_iff (by rw [h]; exact hdecoded)
  have hoperation : mark.source.operation = operation := congrArg Source.operation hsource
  refine ⟨congrArg Source.bundle hsource, PageMark.not_resends_iff.2 ?_⟩
  rw [hoperation]
  cases hkind : operation.kind with
  | query => exact .inl rfl
  | mutation => exact .inr (hanchored.2 (hm hkind mark hdecoded))

/-- Take what is decoded anywhere in the response to an operation. An object is fetched again by a query
on the query root. The next page is asked for by one exactly if the operation is a query or an object
around the page can be fetched by its id, and by a mutation otherwise. If it is asked for by a query, no
run that fetches pages from there on sends anything but queries. -/
theorem followUps_query {operation : Operation} {values : List (String × Json)} {data : Json}
    {address : List Move} {decoded : Decoded}
    (h : (Decoded.object ((client.decoder operation values).decode data)).at? address =
      some decoded) :
    (∀ model, decoded = .object model →
      (∀ again, model.refetch = .ok again → again.operation.IsQuery client.bundle) ∧
      Sending.Records client.SendsQuery (client.refetch transport model)
        (client.refetch transport.recorded model)) ∧
    (∀ next, decoded.nextPage? = some (.ok next) → ∃ mark, decoded.mark? = some mark ∧
      (next.operation.IsQuery client.bundle ↔ operation.kind = .query ∨
        (mark.anchor.isSome = true ∧ client.bundle.nodeField?.isSome = true)) ∧
      (¬ next.operation.IsQuery client.bundle →
        operation.kind = .mutation ∧ next.operation.RootedAt client.bundle .mutation)) ∧
    (∀ connection, decoded.connection? = some connection →
      (operation.kind = .mutation → ∀ mark, decoded.mark? = some mark →
        mark.anchor.isSome = true ∧ client.bundle.nodeField?.isSome = true) →
      Sending.Records client.SendsQuery (client.fetchNextPage transport connection)
        (client.fetchNextPage transport.recorded connection) ∧
      ∀ limit, Sending.Records client.SendsQuery (client.fetchAllPages transport limit connection)
        (client.fetchAllPages transport.recorded limit connection)) := by
  refine ⟨?_, ?_, ?_⟩
  · rintro model rfl
    have hbundle : model.source.bundle = client.bundle :=
      congrArg Source.bundle (Decoder.source_of_at? h)
    exact ⟨fun again hagain => hbundle ▸ Model.isQuery_refetch hagain, records_refetch hbundle⟩
  · intro next hnext
    obtain ⟨mark, hmark, hasked⟩ := Decoded.nextPage?_eq_ok hnext
    obtain ⟨hsource, hanchored⟩ := Decoder.usableAnchor?_isSome_iff (by rw [h]; exact hmark)
    have hbundle : mark.source.bundle = client.bundle := congrArg Source.bundle hsource
    have hoperation : mark.source.operation = operation := congrArg Source.operation hsource
    have hquery := PageMark.isQuery_nextPage_iff hasked
    rw [hbundle] at hquery
    refine ⟨mark, hmark, ?_, fun hnot => ?_⟩
    · rw [hquery, PageMark.not_resends_iff, hoperation, hanchored]
      rfl
    · have hresends : mark.Resends := of_not_not fun hr => hnot (hquery.2 hr)
      exact ⟨hoperation ▸ hresends.1, hbundle ▸ (PageMark.rootedAt_nextPage hasked).1 hresends⟩
  · intro connection hconnection hm
    have hcontinues := continues_of_at? h hconnection hm
    exact ⟨records_fetchNextPage hcontinues, fun limit => records_fetchAllPages hcontinues⟩

end Client

/-- A mutation gives lines both of a cart, which can be fetched by its id, and of its own payload. -/
def cartBundle : Bundle :=
  let field (name typeName : String) := FieldDescriptor.mk name (.named typeName) []
  let paged (name typeName : String) :=
    FieldDescriptor.mk name (.named typeName) [("after", .named "String")]
  let object (name : String) (node : Bool) (fields : List FieldDescriptor) :=
    TypeDescriptor.mk name .object fields [] node []
  let query := object "Query" false [⟨"node", .named "Node", [("id", .nonNull (.named "ID"))]⟩]
  let mutation := object "Mutation" false [field "addLine" "AddLinePayload"]
  ⟨query, some mutation,
    ["ID", "String", "Boolean"].map (TypeDescriptor.ofKind · .scalar) ++
    [query, mutation, ⟨"Node", .interface, [field "id" "ID"], ["Cart"], true, []⟩,
     object "AddLinePayload" false [field "cart" "Cart", paged "added" "Lines"],
     object "Cart" true [field "id" "ID", paged "lines" "Lines"],
     object "Lines" false [field "edges" "LineEdge", field "pageInfo" "PageInfo"],
     object "LineEdge" false [field "cursor" "String", field "node" "Line"],
     object "Line" false [field "title" "String"],
     object "PageInfo" false [field "hasNextPage" "Boolean", field "hasPreviousPage" "Boolean"]]⟩

def cartDraft : OperationDraft :=
  .ofProgram .mutation
    [.object "addLine" .none
      [.object "cart" .none [.connection "lines" .none [.field "title" .none]],
       .connection "added" .none [.field "title" .none]]]

abbrev cartClient : Client := ⟨cartBundle, [], none, none⟩

abbrev cartDecoder : Decoder := cartClient.decoder (cartDraft.built cartBundle) []

def cartPage (more : Bool) : Json :=
  .obj [("edges", .arr [.obj [("cursor", .str "c1"), ("node", .obj [("title", .str "Bowler")])]]),
    ("pageInfo", .obj [("hasNextPage", .bool more), ("hasPreviousPage", .bool (!more))])]

def cartData (more : Bool) : Json :=
  .obj [("addLine", .obj [("cart", .obj [("id", .str "k1"), ("lines", cartPage more)]),
      ("added", cartPage more)]),
    ("node", .obj [("__typename", .str "Cart"), ("id", .str "k1"), ("lines", cartPage more)])]

def cartTransport : Transport Unit := fun _ _ => return .ofData (cartData false)

/-- The lines of the cart are decoded with an anchor. -/
def cartAnchored : Bool :=
  match (Decoded.object (cartDecoder.decode (cartData true))).at?
    [.key "addLine", .key "cart", .key "lines"] with
  | some (.connection nodes info (some mark)) =>
    mark.anchor.isSome && (Connection.nextPage ⟨nodes, info, some mark⟩).toOption.isSome
  | _ => false

theorem cart_lines_queried : ∃ connection next,
    ((Decoded.object (cartDecoder.decode (cartData true))).at?
      [.key "addLine", .key "cart", .key "lines"]).bind Decoded.connection? = some connection ∧
    connection.nextPage = .ok next ∧ next.operation.IsQuery cartBundle ∧
    Sending.Records cartClient.SendsQuery (cartClient.fetchAllPages cartTransport 1 connection)
      (cartClient.fetchAllPages cartTransport.recorded 1 connection) := by
  have h : cartAnchored = true := by decide +kernel
  unfold cartAnchored at h
  split at h
  · rename_i nodes info mark hat
    rw [Bool.and_eq_true] at h
    obtain ⟨hanchor, hnext⟩ := h
    obtain ⟨next, hnext⟩ := Option.isSome_iff_exists.1 hnext
    have hok : Connection.nextPage ⟨nodes, info, some mark⟩ = .ok next := eq_ok_of_toOption hnext
    have hmark : ∀ found, some mark = some found → found.anchor.isSome = true ∧
        cartBundle.nodeField?.isSome = true := by
      intro found hfound
      obtain rfl := Option.some.inj hfound
      exact ⟨hanchor, rfl⟩
    obtain ⟨-, hpage, hruns⟩ :=
      @Client.followUps_query Unit cartClient cartTransport _ _ _ _ _ hat
    obtain ⟨found, hfound, hquery, -⟩ := hpage next (congrArg some hok)
    refine ⟨_, next, by rw [hat]; rfl, hok, hquery.2 (.inr (hmark found hfound)), ?_⟩
    exact (hruns _ rfl fun _ => hmark).2 1
  · cases h

/-- The lines in the payload, outside of anything that can be fetched by its id. -/
def addedLines : Connection :=
  (((Decoded.object (cartDecoder.decode (cartData true))).at?
    [.key "addLine", .key "added"]).bind Decoded.connection?).get (by decide +kernel)

def addedNext : FollowUp := addedLines.nextPage.toOption.get (by decide +kernel)

theorem addedLines_nextPage : addedLines.nextPage = .ok addedNext :=
  eq_ok_of_toOption (Option.some_get _).symm

/-- For the next lines of its payload the mutation is sent once more. -/
theorem mutation_sent_again :
    (cartDraft.build cartBundle).result = .ok (cartDraft.built cartBundle) ∧
    addedLines.nextPage = .ok addedNext ∧ addedNext.operation.kind = .mutation ∧
    addedNext.operation.set.typeName = "Mutation" ∧
    ¬ cartClient.SendsQuery (cartClient.request addedNext) ∧
    ∃ page, (cartClient.fetchNextPage cartTransport.recorded addedLines).run.run ((), []) =
      (.ok page, (), [cartClient.request addedNext]) := by
  have hkind : addedNext.operation.kind = .mutation := by decide +kernel
  refine ⟨OperationDraft.build_eq_built (by decide +kernel), addedLines_nextPage, hkind,
    by decide +kernel, fun hsends => hsends.mutation addedNext.operation none hkind rfl, ?_⟩
  have hnext := addedLines_nextPage
  unfold Connection.nextPage at hnext
  split at hnext
  · rename_i mark hmark
    have hdecoder : cartDecoder.bundle = cartClient.bundle := rfl
    exact ⟨_, Client.fetchNextPage_eq hdecoder rfl rfl rfl rfl rfl hmark hnext
      (Option.some_get (by decide +kernel)).symm⟩
  · cases hnext

end GraphQLClient
