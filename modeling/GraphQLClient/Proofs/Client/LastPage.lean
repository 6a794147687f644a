import GraphQLClient.Proofs.Client.AllPages

set_option autoImplicit false

/-!
# Where fetching all pages ends

Pages are fetched one after the other, each from the answer to the query of the one before it. All
nodes are returned exactly if this comes to a page that announces no further one or has no node, and
then they are those of the pages that were passed, in order: `fetchAllPages_eq_ok_iff`. A page without
nodes ends the way even where it announces a further one: `empty_page_ends`.
-/

namespace GraphQLClient

theorem eq_ok_of_toOption {ε α : Type} {result : Except ε α} {value : α}
    (h : result.toOption = some value) : result = .ok value := by
  cases result with
  | error e => cases h
  | ok found => exact congrArg Except.ok (Option.some.inj h)

namespace Decoder

variable {decoder : Decoder}

/-- A key leads from an object to what the data hold under it. -/
theorem find?_of_step? {spot next : Spot} {key : String}
    (h : decoder.step? spot (.key key) = some next) :
    ∃ entries, spot.json = .obj entries ∧ Keyed.find? key entries = some next.json := by
  cases steps_of_step? h with
  | field _ hfound => exact ⟨_, rfl, hfound⟩

theorem leads_of_follow? {spot last : Spot} {keys : List String}
    {entries found : List (String × Json)} (h : decoder.follow? spot (keys.map .key) = some last)
    (hj : spot.json = .obj entries) (hl : last.json = .obj found) :
    Json.Leads keys entries found := by
  induction keys generalizing spot entries with
  | nil =>
    obtain rfl := Option.some.inj h
    exact Json.obj.inj (hj.symm.trans hl)
  | cons key keys ih =>
    obtain ⟨next, hstep, hrest⟩ := Option.bind_eq_some_iff.1 h
    obtain ⟨entries', hj', hfind⟩ := find?_of_step? hstep
    obtain rfl := Json.obj.inj (hj.symm.trans hj')
    obtain ⟨inner, hinner⟩ : ∃ inner, next.json = .obj inner := by
      cases keys with
      | nil =>
        obtain rfl := Option.some.inj hrest
        exact ⟨found, hl⟩
      | cons second keys =>
        obtain ⟨_, hstep', -⟩ := Option.bind_eq_some_iff.1 hrest
        obtain ⟨inner, hinner, -⟩ := find?_of_step? hstep'
        exact ⟨inner, hinner⟩
    rw [hinner] at hfind
    exact ⟨inner, hfind, ih hrest hinner⟩

end Decoder

/-- The connection says of its page what the entries say, and has a node for each of their edges with
an object for a node. -/
structure Connection.Reports (connection : Connection) (found : List (String × Json)) : Prop where
  hasNext : connection.info.hasNext = true ↔ Json.PageHas found "hasNextPage" (.bool true)
  size : connection.nodes.length = (Json.nodeObjects found).length

/-- A connection that is drilled out of an answer reports what the answer holds there. -/
theorem Decoder.reports_of_drill {decoder : Decoder} {answer : Json} {keys : List String}
    {page : Connection}
    (h : ((decoder.decode answer).drill keys).bind Decoded.connection? = some page) :
    ∃ entries found, answer = .obj entries ∧ Json.Leads keys entries found ∧ page.Reports found := by
  obtain ⟨decoded, hdrill, hpage⟩ := Option.bind_eq_some_iff.1 h
  cases keys with
  | nil => cases hdrill
  | cons key keys =>
    rw [drill_eq_at?, at?_decode] at hdrill
    obtain ⟨last, hfollow, rfl⟩ := Option.map_eq_some_iff.1 hdrill
    cases hread : decoder.read last with
    | connection nodes info mark =>
      rw [hread] at hpage
      obtain rfl := Option.some.inj hpage
      obtain ⟨type, parts, nodeType, part, found, hshape, hjson⟩ := of_read_eq_connection hread
      obtain ⟨shape, position, _, json⟩ := last
      obtain rfl : shape = _ := hshape
      obtain rfl : json = _ := hjson
      have hvalue : decoder.value (.connection type parts nodeType part) position (.obj found) =
        .connection nodes info mark := hread
      rw [value_connection] at hvalue
      obtain ⟨rfl, rfl, -⟩ := Decoded.connection.inj hvalue
      have hleads := leads_of_follow? hfollow (show (decoder.root answer).json = .obj _ from rfl) rfl
      cases answer with
      | obj entries =>
        have htells := PageInfo.tells_ofEntries found
        exact ⟨entries, found, rfl, hleads, htells.hasNext, List.length_map _⟩
      | _ =>
        obtain ⟨inner, hinner, -⟩ := hleads
        cases hinner
    | _ =>
      rw [hread] at hpage
      cases hpage

namespace Client

variable {σ : Type} {client : Client} {transport : Transport σ}

theorem run_bind_eq_ok_iff {α β : Type} {sending : Sending σ α} {then' : α → Sending σ β}
    {value : β} {before after : σ} :
    (sending >>= then').run.run before = (.ok value, after) ↔
      ∃ first between, sending.run.run before = (.ok first, between) ∧
        (then' first).run.run between = (.ok value, after) := by
  rw [ExceptT.run_bind, StateT.run_bind]
  change (match sending.run.run before with | (result, between) => _) = _ ↔ _
  rcases sending.run.run before with ⟨_ | first, between⟩
  · constructor
    · intro h
      cases h
    · rintro ⟨_, _, h, -⟩
      cases h
  · constructor
    · exact fun h => ⟨first, between, rfl, h⟩
    · rintro ⟨_, _, h, hrest⟩
      obtain ⟨hfirst, rfl⟩ := Prod.mk.inj h
      obtain rfl := Except.ok.inj hfirst
      exact hrest

theorem run_pure_eq_ok_iff {α : Type} {value found : α} {before after : σ} :
    (pure value : Sending σ α).run.run before = (.ok found, after) ↔ value = found ∧ before = after := by
  change ((.ok value : Except Failure α), before) = _ ↔ _
  rw [Prod.mk.injEq, Except.ok.injEq]

theorem run_throw_ne_ok {α : Type} {failure : Failure} {found : α} {before after : σ} :
    (throw failure : Sending σ α).run.run before ≠ (.ok found, after) := fun h => by
  cases (Prod.mk.inj h).1

theorem checkedModel_eq_ok_iff {reply : Reply} {root : Model} :
    reply.checkedModel = .ok root ↔ reply.errors = [] ∧ reply.model = some root := by
  unfold Reply.checkedModel
  cases reply.errors with
  | cons first rest => simp
  | nil => cases reply.model <;> simp

/-- A follow-up query has a root model if the transport gives data other than `null` and no errors. -/
theorem sendFollowUp_eq_ok_iff {next : FollowUp} {root : Model} {before after : σ} :
    (client.sendFollowUp transport next).run.run before = (.ok root, after) ↔
      ∃ response answer,
        (transport (client.request next) (Keyed.sortByName client.headers)).run.run before =
          (.ok response, after) ∧
        response.errors.getD [] = [] ∧ response.data = some answer ∧ answer.isNull = false ∧
        (client.decoder next.operation next.values).decode answer = root := by
  rw [sendFollowUp, run_bind_eq_ok_iff]
  constructor
  · rintro ⟨reply, between, hsent, hroot⟩
    rw [send, execute, run_bind_eq_ok_iff] at hsent
    obtain ⟨response, between', htransport, hreply⟩ := hsent
    obtain ⟨rfl, rfl⟩ := run_pure_eq_ok_iff.1 hreply
    split at hroot
    · rename_i model hchecked
      obtain ⟨rfl, rfl⟩ := run_pure_eq_ok_iff.1 hroot
      obtain ⟨herrors, hmodel⟩ := checkedModel_eq_ok_iff.1 hchecked
      obtain ⟨answer, hanswer, rfl⟩ := Option.map_eq_some_iff.1 hmodel
      obtain ⟨hdata, hnull⟩ := Option.filter_eq_some_iff.1 hanswer
      exact ⟨response, answer, htransport, herrors, hdata, by simpa using hnull, rfl⟩
    · exact absurd hroot run_throw_ne_ok
  · rintro ⟨response, answer, htransport, herrors, hdata, hnull, rfl⟩
    have hdecoder : (client.decoder next.operation next.values).bundle = client.bundle := rfl
    exact run_bind_eq_ok_iff.1 (sendFollowUp_eq hdecoder rfl htransport hdata hnull herrors)

/-- The transport answers the query for the page after `current` with `found` at its path, and `page`
is what is decoded there. -/
structure Turn (client : Client) (transport : Transport σ) (current : Connection) (before : σ)
    (next : FollowUp) (found : List (String × Json)) (page : Connection) (after : σ) : Prop where
  asked : current.nextPage = .ok next
  answered : ∃ response entries,
    (transport (client.request next) (Keyed.sortByName client.headers)).run.run before =
      (.ok response, after) ∧
    response.errors.getD [] = [] ∧ response.data = some (.obj entries) ∧
    Json.Leads next.path entries found ∧
    (((client.decoder next.operation next.values).decode (.obj entries)).drill next.path).bind
      Decoded.connection? = some page
  reports : page.Reports found

theorem fetchNextPage_eq_ok_iff {current page : Connection} {before after : σ} :
    (client.fetchNextPage transport current).run.run before = (.ok page, after) ↔
      ∃ next found, client.Turn transport current before next found page after := by
  constructor
  · intro h
    unfold fetchNextPage at h
    split at h
    · exact absurd h run_throw_ne_ok
    · rename_i next hnext
      obtain ⟨root, between, hsent, hpage⟩ := run_bind_eq_ok_iff.1 h
      obtain ⟨response, answer, htransport, herrors, hdata, -, rfl⟩ := sendFollowUp_eq_ok_iff.1 hsent
      split at hpage
      · rename_i found hfound
        obtain ⟨rfl, rfl⟩ := run_pure_eq_ok_iff.1 hpage
        obtain ⟨entries, found, rfl, hleads, hreports⟩ := Decoder.reports_of_drill hfound
        exact ⟨next, found, hnext, ⟨response, entries, htransport, herrors, hdata, hleads, hfound⟩,
          hreports⟩
      · exact absurd hpage run_throw_ne_ok
  · rintro ⟨next, found, turn⟩
    obtain ⟨response, entries, htransport, herrors, hdata, -, hfound⟩ := turn.answered
    obtain ⟨mark, hmark, hnext⟩ : ∃ mark, current.mark = some mark ∧ mark.nextPage = .ok next := by
      have hasked := turn.asked
      unfold Connection.nextPage at hasked
      split at hasked
      · exact ⟨_, ‹_›, hasked⟩
      · cases hasked
    have hdecoder : (client.decoder next.operation next.values).bundle = client.bundle := rfl
    exact fetchNextPage_eq hdecoder rfl htransport hdata rfl herrors hmark hnext hfound

/-- Pages that are fetched one after the other. A connection is left for its next page only if it
announces one and has a node. -/
inductive Visits (client : Client) (transport : Transport σ) :
    Connection → σ → List Connection → σ → Prop
  | stop {current : Connection} {state : σ} : Visits client transport current state [] state
  | turn {current page : Connection} {pages : List Connection} {next : FollowUp}
      {found : List (String × Json)} {before between after : σ}
      (further : current.info.hasNext = true) (held : current.nodes ≠ [])
      (turn : client.Turn transport current before next found page between)
      (rest : Visits client transport page between pages after) :
      Visits client transport current before (page :: pages) after

/-- Nothing is fetched after this connection. -/
def Ends (last : Connection) : Prop := last.info.hasNext = false ∨ last.nodes = []

theorem not_ends_iff {current : Connection} :
    ¬ Ends current ↔ current.info.hasNext = true ∧ current.nodes ≠ [] := by
  unfold Ends
  rw [not_or, Bool.not_eq_false]

theorem fetchFurther_of_ends {limit : Nat} {current : Connection} (h : Ends current) (state : σ) :
    (client.fetchFurther transport limit current).run.run state = (.ok (some []), state) := by
  have hstop : (current.info.hasNext && !current.isEmpty) = false := by
    obtain h | h := h <;> simp [Connection.isEmpty, h]
  unfold fetchFurther
  rw [hstop]
  rfl

theorem fetchFurther_of_not_ends {limit : Nat} {current : Connection} (h : ¬ Ends current) :
    client.fetchFurther transport limit current =
      match limit with
      | 0 => pure none
      | limit + 1 => do
        let page ← client.fetchNextPage transport current
        return (← client.fetchFurther transport limit page).map (page.nodes ++ ·) := by
  obtain ⟨further, held⟩ := not_ends_iff.1 h
  have hmore : (current.info.hasNext && !current.isEmpty) = true := by
    simp [Connection.isEmpty, further, held]
  conv_lhs => unfold fetchFurther
  exact if_pos hmore

theorem fetchFurther_eq_ok_of_not_ends {limit : Nat} {current : Connection} {nodes : List Model}
    {before after : σ} (h : ¬ Ends current) :
    (client.fetchFurther transport limit current).run.run before = (.ok (some nodes), after) ↔
      ∃ limit' page between more, limit = limit' + 1 ∧
        (client.fetchNextPage transport current).run.run before = (.ok page, between) ∧
        (client.fetchFurther transport limit' page).run.run between = (.ok (some more), after) ∧
        page.nodes ++ more = nodes := by
  rw [fetchFurther_of_not_ends h]
  cases limit with
  | zero =>
    constructor
    · intro hrun
      cases (run_pure_eq_ok_iff.1 hrun).1
    · rintro ⟨limit', _, _, _, hlimit, -⟩
      cases hlimit
  | succ limit =>
    simp only [run_bind_eq_ok_iff, run_pure_eq_ok_iff, Option.map_eq_some_iff]
    constructor
    · rintro ⟨page, between, hpage, found, _, hfound, ⟨more, rfl, rfl⟩, rfl⟩
      exact ⟨limit, page, between, more, rfl, hpage, hfound, rfl⟩
    · rintro ⟨limit', page, between, more, hlimit, hpage, hfound, rfl⟩
      obtain rfl := Nat.succ.inj hlimit
      exact ⟨page, between, hpage, some more, after, hfound, ⟨more, rfl, rfl⟩, rfl⟩

theorem visits_of_fetchFurther {limit : Nat} {current : Connection} {nodes : List Model}
    {before after : σ}
    (h : (client.fetchFurther transport limit current).run.run before = (.ok (some nodes), after)) :
    ∃ pages, pages.length ≤ limit ∧ client.Visits transport current before pages after ∧
      Ends (pages.getLastD current) ∧ pages.flatMap Connection.nodes = nodes := by
  by_cases hends : Ends current
  · rw [fetchFurther_of_ends hends] at h
    obtain ⟨hnodes, rfl⟩ := Prod.mk.inj h
    obtain rfl := Option.some.inj (Except.ok.inj hnodes)
    exact ⟨[], Nat.zero_le _, .stop, hends, rfl⟩
  · obtain ⟨limit', page, between, more, rfl, hpage, hmore, rfl⟩ :=
      (fetchFurther_eq_ok_of_not_ends hends).1 h
    obtain ⟨next, found, turn⟩ := fetchNextPage_eq_ok_iff.1 hpage
    obtain ⟨pages, hlength, hvisits, hlast, rfl⟩ := visits_of_fetchFurther hmore
    obtain ⟨further, held⟩ := not_ends_iff.1 hends
    refine ⟨page :: pages, Nat.succ_le_succ hlength, .turn further held turn hvisits, ?_, rfl⟩
    rwa [List.getLastD_cons]
termination_by limit

theorem Visits.fetchFurther_eq {limit : Nat} {current : Connection} {pages : List Connection}
    {before after : σ} (h : client.Visits transport current before pages after)
    (hl : pages.length ≤ limit) (he : Ends (pages.getLastD current)) :
    (client.fetchFurther transport limit current).run.run before =
      (.ok (some (pages.flatMap Connection.nodes)), after) := by
  induction h generalizing limit with
  | stop => exact fetchFurther_of_ends he _
  | @turn current page pages next found before between after further held turn rest ih =>
    obtain ⟨limit, rfl⟩ : ∃ limit', limit = limit' + 1 := Nat.exists_eq_add_one.2 (by simp at hl; omega)
    rw [List.getLastD_cons] at he
    exact (fetchFurther_eq_ok_of_not_ends (not_ends_iff.2 ⟨further, held⟩)).2
      ⟨limit, page, between, pages.flatMap Connection.nodes, rfl,
        fetchNextPage_eq_ok_iff.2 ⟨next, found, turn⟩, ih (Nat.le_of_succ_le_succ hl) he, rfl⟩

theorem fetchAllPages_eq_ok_iff_further {limit : Nat} {connection : Connection}
    {nodes : List Model} {before after : σ} :
    (client.fetchAllPages transport limit connection).run.run before = (.ok (some nodes), after) ↔
      ∃ more, (client.fetchFurther transport limit connection).run.run before =
        (.ok (some more), after) ∧ connection.nodes ++ more = nodes := by
  simp only [fetchAllPages, run_bind_eq_ok_iff, run_pure_eq_ok_iff, Option.map_eq_some_iff]
  constructor
  · rintro ⟨_, between, hfound, ⟨more, rfl, rfl⟩, rfl⟩
    exact ⟨more, hfound, rfl⟩
  · rintro ⟨more, hfound, rfl⟩
    exact ⟨some more, after, hfound, ⟨more, rfl, rfl⟩, rfl⟩

/-- All nodes are returned exactly if the pages that are fetched come to one that announces no further
page or has no node, and they are then the nodes of all these pages in order. -/
theorem fetchAllPages_eq_ok_iff {limit : Nat} {connection : Connection} {nodes : List Model}
    {before after : σ} :
    (client.fetchAllPages transport limit connection).run.run before = (.ok (some nodes), after) ↔
      ∃ pages, pages.length ≤ limit ∧ client.Visits transport connection before pages after ∧
        Ends (pages.getLastD connection) ∧
        nodes = (connection :: pages).flatMap Connection.nodes := by
  rw [fetchAllPages_eq_ok_iff_further]
  constructor
  · rintro ⟨more, hmore, rfl⟩
    obtain ⟨pages, hlength, hvisits, hends, rfl⟩ := visits_of_fetchFurther hmore
    exact ⟨pages, hlength, hvisits, hends, rfl⟩
  · rintro ⟨pages, hlength, hvisits, hends, rfl⟩
    exact ⟨_, hvisits.fetchFurther_eq hlength hends, rfl⟩

end Client

/-- A page whose only edge has a cursor and no node, and which announces a further page. -/
def skippingPage : List (String × Json) :=
  [("edges", .arr [.obj [("cursor", .str "c2"), ("node", .null)]]),
   ("pageInfo", .obj [("hasNextPage", .bool true), ("hasPreviousPage", .bool true)])]

def skippingTransport : Transport Unit := fun _ _ =>
  return .ofData (.obj [(nodeFieldName, .obj [("__typename", .str "Shop"), ("id", .str "s1"),
    ("products", .obj skippingPage)])])

def skippedPage : Connection :=
  ((listingClient.fetchNextPage skippingTransport listingFirst).run.run ()).1.toOption.get
    (by decide +kernel)

/-- The last page that was fetched announces a further one, and yet all nodes are returned as if there
was none. -/
theorem empty_page_ends :
    (listingClient.fetchAllPages skippingTransport 1 listingFirst).run.run () =
        (.ok (some listingFirst.nodes), ()) ∧
      listingClient.Visits skippingTransport listingFirst () [skippedPage] () ∧
      skippedPage.info.hasNext = true := by
  have hpage : (listingClient.fetchNextPage skippingTransport listingFirst).run.run () =
      (.ok skippedPage, ()) :=
    Prod.ext (eq_ok_of_toOption (Option.some_get _).symm) (Subsingleton.elim _ _)
  obtain ⟨next, found, turn⟩ := Client.fetchNextPage_eq_ok_iff.1 hpage
  have hfirst : listingFirst.info.hasNext = true ∧ listingFirst.nodes.isEmpty = false := by
    decide +kernel
  have hlast : skippedPage.info.hasNext = true ∧ skippedPage.nodes.isEmpty = true := by
    decide +kernel
  have hvisits : listingClient.Visits skippingTransport listingFirst () [skippedPage] () :=
    .turn hfirst.1 (List.isEmpty_eq_false_iff.1 hfirst.2) turn .stop
  have hnone : skippedPage.nodes = [] := List.isEmpty_iff.1 hlast.2
  refine ⟨Client.fetchAllPages_eq_ok_iff_further.2
    ⟨[skippedPage].flatMap Connection.nodes, hvisits.fetchFurther_eq (Nat.le_refl _) (.inr hnone), ?_⟩,
    hvisits, hlast.1⟩
  rw [List.flatMap_singleton, hnone, List.append_nil]

end GraphQLClient
