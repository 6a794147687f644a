import Mathlib
import GraphQLClient.Client.Client
import GraphQLClient.Proofs.Paging.Answers

set_option autoImplicit false

/-!
# Fetching all pages

A server that gives out a list in pages is asked for one page after the other. Every connection on the
way shows a page of what is left of the list, and its mark leads to the rest: `fetchAllPages_eq`.
-/

namespace GraphQLClient

/-- A list of objects with cursors, given out in pages of one size. -/
structure Server where
  entries : List (String × List (String × Json))
  size : Nat

namespace Server

/-- What comes after a cursor; without a cursor it is all. -/
def following (server : Server) : Option String → List (String × List (String × Json))
  | none => server.entries
  | some cursor => (server.entries.dropWhile (·.1 != cursor)).drop 1

/-- The data of a connection are a page of what is left. -/
structure Page (server : Server) (rest : List (String × List (String × Json)))
    (found : List (String × Json)) : Prop where
  edges : Json.nodeObjects found =
    (rest.take server.size).map fun entry => (some entry.1, entry.2)
  further : Json.PageHas found "hasNextPage" (.bool true) ↔ server.size < rest.length

/-- The data answer the query for the page after a mark. -/
structure Answers (server : Server) (mark : PageMark) (next : FollowUp)
    (answer : List (String × Json)) : Prop where
  page : ∃ found, Json.Leads next.path answer found ∧
    server.Page (server.following (next.operation.after? next.path)) found
  object : ∀ anchor, mark.usableAnchor? = some anchor →
    ∃ object, Keyed.find? nodeFieldName answer = some (.obj object) ∧
      Keyed.find? "id" object = some (.str anchor.id) ∧
      Keyed.find? typenameField object = some (.str anchor.typeName)

variable {server : Server}

theorem following_eq {front back : List (String × List (String × Json))}
    {entry : String × List (String × Json)} (h : server.entries = front ++ entry :: back)
    (hd : (server.entries.map Prod.fst).Nodup) : server.following (some entry.1) = back := by
  rw [h, List.map_append, List.map_cons, List.nodup_append] at hd
  have hfront : ∀ other ∈ front, (other.1 != entry.1) = true := by
    intro other ho
    exact bne_iff_ne.2 (hd.2.2 _ (List.mem_map_of_mem ho) _ List.mem_cons_self)
  have hentry : ¬ (entry.1 != entry.1) = true := by simp
  rw [following, h, List.dropWhile_append_of_pos hfront, List.dropWhile_cons, if_neg hentry]
  rfl

/-- After the last cursor of a page comes what the page leaves. -/
theorem following_last {before rest : List (String × List (String × Json))} {cursor : String}
    (h : server.entries = before ++ rest) (hd : (server.entries.map Prod.fst).Nodup)
    (hc : ((rest.take server.size).map Prod.fst).getLast? = some cursor) :
    server.following (some cursor) = rest.drop server.size := by
  rw [List.getLast?_map] at hc
  obtain ⟨entry, he, rfl⟩ := Option.map_eq_some_iff.1 hc
  obtain ⟨front, hfront⟩ := List.getLast?_eq_some_iff.1 he
  have hrest : front ++ [entry] ++ rest.drop server.size = rest := by
    rw [← hfront]
    exact List.take_append_drop _ _
  have hentries : server.entries = (before ++ front) ++ entry :: rest.drop server.size :=
    calc server.entries = before ++ (front ++ [entry] ++ rest.drop server.size) := by rw [hrest, h]
      _ = (before ++ front) ++ entry :: rest.drop server.size := by simp
  exact following_eq hentries hd

end Server

namespace Client

variable {σ : Type} {client : Client} {transport : Transport σ}

def request (client : Client) (next : FollowUp) : RequestParams :=
  .make (next.operation.text client.context) next.values next.operation.name []

/-- The connections that are fetched one after the other, each with the state of the transport. -/
inductive Passes (client : Client) (transport : Transport σ) (first : Connection) (state : σ) :
    Connection → σ → Prop
  | first : Passes client transport first state first state
  | next {current page : Connection} {before after : σ}
      (passed : Passes client transport first state current before)
      (further : current.info.hasNext = true)
      (fetched : (client.fetchNextPage transport current).run.run before = (.ok page, after)) :
      Passes client transport first state page after

section

variable {α β : Type} {sending : Sending σ α} {then' : α → Sending σ β} {before after : σ}

theorem run_bind {value : α} (h : sending.run.run before = (.ok value, after)) :
    (sending >>= then').run.run before = (then' value).run.run after := by
  rw [ExceptT.run_bind, StateT.run_bind, h]
  rfl

theorem run_bind_error {failure : Failure} (h : sending.run.run before = (.error failure, after)) :
    (sending >>= then').run.run before = (.error failure, after) := by
  rw [ExceptT.run_bind, StateT.run_bind, h]
  rfl

end

section

variable {decoder : Decoder} {next : FollowUp} {response : Response} {answer : Json}
  {before after : σ}

variable (hb : decoder.bundle = client.bundle) (hr : decoder.registry = client.registry)
  (ht : (transport (client.request next) (Keyed.sortByName client.headers)).run.run before =
    (.ok response, after))
  (hd : response.data = some answer) (hnull : answer.isNull = false)
  (he : response.errors.getD [] = [])

include hb hr ht hd hnull he

/-- A follow-up query that is answered without errors gets the decoded answer. -/
theorem sendFollowUp_eq : (client.sendFollowUp transport next).run.run before =
    (.ok ((decoder.forNext next).decode answer), after) := by
  let reply : Reply :=
    ⟨some ((decoder.forNext next).decode answer), some answer, [], response.extensions⟩
  have hdecoder : (⟨⟨client.bundle, next.operation, next.values⟩, client.registry⟩ : Decoder) =
      decoder.forNext next := by
    rw [Decoder.forNext, hb, hr]
  have hsend : (client.send transport next.operation next.values).run.run before =
      (.ok reply, after) := by
    rw [send, execute]
    refine (run_bind ht).trans ?_
    simp only [hd, he, hdecoder, Option.filter, hnull]
    rfl
  have hchecked : reply.checkedModel = .ok ((decoder.forNext next).decode answer) := rfl
  rw [sendFollowUp]
  refine (run_bind hsend).trans ?_
  rw [hchecked]
  rfl

theorem fetchNextPage_eq {current page : Connection} {mark : PageMark}
    (hm : current.mark = some mark) (hn : mark.nextPage = .ok next)
    (hp : (((decoder.forNext next).decode answer).drill next.path).bind Decoded.connection? =
      some page) :
    (client.fetchNextPage transport current).run.run before = (.ok page, after) := by
  have hnext : current.nextPage = .ok next := by
    rw [Connection.nextPage, hm]
    exact hn
  rw [fetchNextPage, hnext]
  refine (run_bind (sendFollowUp_eq hb hr ht hd hnull he)).trans ?_
  rw [hp]
  rfl

end

end Client

/-- The transport gets answers of the server for the query of every connection that is not the last. -/
def Server.Serves {σ : Type} (server : Server) (client : Client) (transport : Transport σ)
    (first : Connection) (state : σ) : Prop :=
  ∀ current before mark next, client.Passes transport first state current before →
    current.info.hasNext = true → current.mark = some mark → mark.nextPage = .ok next →
      ∃ response answer after,
        (transport (client.request next) (Keyed.sortByName client.headers)).run.run before =
          (.ok response, after) ∧
        response.data = some (.obj answer) ∧ response.errors.getD [] = [] ∧
        server.Answers mark next answer

namespace Connection.Shows

variable {server : Server} {decoder : Decoder} {nodes : SelectionSet} {nodeType : TypeDescriptor}
  {rest : List (String × List (String × Json))} {found : List (String × Json)}
  {current : Connection}

theorem models_page (h : current.Shows decoder nodes nodeType found) (hp : server.Page rest found) :
    current.nodes.map (fun node => (node.cursor?, node.unmarked)) =
      (rest.take server.size).map fun entry =>
        (some entry.1, decoder.alone nodeType nodes entry.2) := by
  rw [h.models, hp.edges, List.map_map]
  rfl

theorem cursor_page (h : current.Shows decoder nodes nodeType found) (hp : server.Page rest found) :
    current.mark.map PageMark.cursor = ((rest.take server.size).map Prod.fst).getLast? := by
  have hcursors : (Json.nodeObjects found).filterMap Prod.fst =
      (rest.take server.size).map Prod.fst := by
    rw [hp.edges, List.filterMap_map]
    exact congrFun (List.filterMap_eq_map (f := Prod.fst)) (rest.take server.size)
  rw [h.cursor, hcursors]

/-- Where more is left than a page holds, the page is not empty and has a mark. -/
theorem mark_page (h : current.Shows decoder nodes nodeType found) (hp : server.Page rest found)
    (hs : 1 ≤ server.size) (hl : server.size < rest.length) :
    current.info.hasNext = true ∧ current.isEmpty = false ∧ ∃ mark, current.mark = some mark ∧
      ((rest.take server.size).map Prod.fst).getLast? = some mark.cursor := by
  have hlength : (rest.take server.size).length = server.size := by
    rw [List.length_take]
    omega
  have hne : rest.take server.size ≠ [] := by
    rw [← List.length_pos_iff, hlength]
    exact hs
  refine ⟨?_, ?_, ?_⟩
  · exact h.hasNext.2 (hp.further.2 hl)
  · have hmodels := congrArg List.length (h.models_page hp)
    rw [List.length_map, List.length_map, hlength] at hmodels
    rw [isEmpty, List.isEmpty_eq_false_iff, ← List.length_pos_iff, hmodels]
    exact hs
  · have hcursor := h.cursor_page hp
    cases hm : current.mark with
    | none =>
      rw [hm] at hcursor
      have hnil : (rest.take server.size).map Prod.fst = [] := List.getLast?_eq_none_iff.1 hcursor.symm
      exact absurd (List.map_eq_nil_iff.1 hnil) hne
    | some mark =>
      rw [hm] at hcursor
      exact ⟨mark, rfl, hcursor.symm⟩

theorem fetchFurther_last {σ : Type} {client : Client} {transport : Transport σ} {state : σ}
    (h : current.Shows decoder nodes nodeType found) (hp : server.Page rest found)
    (hl : rest.length ≤ server.size) (limit : Nat) :
    (client.fetchFurther transport limit current).run.run state = (.ok (some []), state) := by
  have hlast : current.info.hasNext = false := by
    rw [Bool.eq_false_iff]
    exact fun hnext => absurd (hp.further.1 (h.hasNext.1 hnext)) (Nat.not_lt.2 hl)
  unfold Client.fetchFurther
  rw [hlast, Bool.false_and]
  rfl

end Connection.Shows

section

variable {σ : Type} {server : Server} {client : Client} {transport : Transport σ}
  {first : Connection} {state : σ} {decoder : Decoder} {interface nodeType : TypeDescriptor}
  {nodes : SelectionSet}

variable (hserves : server.Serves client transport first state)
  (hb : decoder.bundle = client.bundle) (hg : decoder.registry = client.registry)
  (hr : decoder.bundle.Rooted) (hf : decoder.bundle.FetchesNodes interface)
  (hn : decoder.bundle.get? nodes.typeName = some nodeType)
  (hd : Selection.EverywhereAll Selection.Direct nodes.selections)
  (hdistinct : (server.entries.map Prod.fst).Nodup) (hsize : 1 ≤ server.size)

include hserves hb hg hr hf hn hd hdistinct hsize

/-- A connection that shows a page of what is left is followed by one that shows the next page. -/
theorem Server.Serves.fetchNextPage_eq {current : Connection} {before : σ}
    {done rest : List (String × List (String × Json))} {found : List (String × Json)}
    (hpasses : client.Passes transport first state current before)
    (hshows : current.Shows decoder nodes nodeType found) (hpage : server.Page rest found)
    (hentries : server.entries = done ++ rest) (hmore : server.size < rest.length) :
    ∃ page after found', (client.fetchNextPage transport current).run.run before =
        (.ok page, after) ∧
      page.Shows decoder nodes nodeType found' ∧ server.Page (rest.drop server.size) found' := by
  obtain ⟨hnext, -, mark, hmark, hlast⟩ := hshows.mark_page hpage hsize hmore
  obtain ⟨next, hquery, hcontinues⟩ := (hshows.paved mark hmark).nextPage hr hf
  obtain ⟨response, answer, after, hrun, hdata, herrors, ⟨found', hleads, hanswer⟩, hobject⟩ :=
    hserves current before mark next hpasses hnext hmark hquery
  rw [hcontinues.after, Server.following_last hentries hdistinct hlast] at hanswer
  obtain ⟨page, hdrill, hshows'⟩ : ∃ page : Connection,
      (((decoder.forNext next).decode (.obj answer)).drill next.path).bind Decoded.connection? =
        some page ∧ page.Shows decoder nodes nodeType found' := by
    cases hu : mark.usableAnchor? with
    | none => exact Decoder.shows_forNext_rooted hcontinues hn hd hr hu hleads
    | some anchor =>
      obtain ⟨object, ho, hid, htype⟩ := hobject anchor hu
      exact Decoder.shows_forNext_anchored hcontinues hn hd hf hu ho hid htype hleads
  exact ⟨page, after, found',
    Client.fetchNextPage_eq hb hg hrun hdata rfl herrors hmark hquery hdrill, hshows', hanswer⟩

/-- From a page on all that is left is fetched, if the limit allows as many pages. -/
theorem Server.Serves.fetchFurther_eq {limit : Nat} {current : Connection} {before : σ}
    {done rest : List (String × List (String × Json))} {found : List (String × Json)}
    (hpasses : client.Passes transport first state current before)
    (hshows : current.Shows decoder nodes nodeType found) (hpage : server.Page rest found)
    (hentries : server.entries = done ++ rest) (hlimit : rest.length ≤ (limit + 1) * server.size) :
    ∃ models after, (client.fetchFurther transport limit current).run.run before =
        (.ok (some models), after) ∧
      models.map (fun node => (node.cursor?, node.unmarked)) =
        (rest.drop server.size).map fun entry =>
          (some entry.1, decoder.alone nodeType nodes entry.2) := by
  induction limit generalizing current before done rest found with
  | zero =>
    rw [Nat.zero_add, Nat.one_mul] at hlimit
    refine ⟨[], before, hshows.fetchFurther_last hpage hlimit 0, ?_⟩
    rw [List.drop_eq_nil_of_le hlimit]
    rfl
  | succ limit ih =>
    by_cases hmore : server.size < rest.length
    · obtain ⟨hnext, hempty, -⟩ := hshows.mark_page hpage hsize hmore
      obtain ⟨page, between, found', hfetch, hshows', hpage'⟩ := hserves.fetchNextPage_eq hb hg hr hf
        hn hd hdistinct hsize hpasses hshows hpage hentries hmore
      have hentries' : server.entries = (done ++ rest.take server.size) ++ rest.drop server.size := by
        rw [List.append_assoc, List.take_append_drop, hentries]
      have hlimit' : (rest.drop server.size).length ≤ (limit + 1) * server.size := by
        rw [Nat.succ_mul] at hlimit
        rw [List.length_drop]
        omega
      obtain ⟨models, after, hrun, hmodels⟩ :=
        ih (.next hpasses hnext hfetch) hshows' hpage' hentries' hlimit'
      refine ⟨page.nodes ++ models, after, ?_, ?_⟩
      · unfold Client.fetchFurther
        rw [hnext, hempty]
        refine (Client.run_bind hfetch).trans ((Client.run_bind hrun).trans ?_)
        rfl
      · rw [List.map_append, hshows'.models_page hpage', hmodels, ← List.map_append,
          List.take_append_drop]
    · refine ⟨[], before, hshows.fetchFurther_last hpage (Nat.not_lt.1 hmore) (limit + 1), ?_⟩
      rw [List.drop_eq_nil_of_le (Nat.not_lt.1 hmore)]
      rfl

end

/-- The decoder for the response to an operation that the client sends. -/
def Client.decoder (client : Client) (operation : Operation) (values : List (String × Json)) : Decoder :=
  ⟨⟨client.bundle, operation, values⟩, client.registry⟩

/-- From the first page on, fetching all pages gives the whole list of the server: each object once, in
order, decoded as it would be by itself. -/
theorem Client.fetchAllPages_eq {σ : Type} {server : Server} {client : Client}
    {transport : Transport σ} {bundleDraft : BundleDraft} {draft : OperationDraft}
    {operation : Operation} {values : List (String × Json)} {data : Json} {before : List Move}
    {start : Model} {entries found : List (String × Json)} {keys : List String} {first : Connection}
    {nodes : SelectionSet} {interface nodeType : TypeDescriptor} {limit : Nat} {state : σ}
    (hbundle : bundleDraft.build = .ok client.bundle) (hfetches : client.bundle.FetchesNodes interface)
    (hb : (draft.build client.bundle).result = .ok operation)
    (hf : Step.fragmentsOfAll draft.program = [])
    (hd : Selection.EverywhereAll Selection.Direct operation.set.selections)
    (hs : (Decoded.object ((client.decoder operation values).decode data)).at? before =
      some (.object start))
    (he : (client.decoder operation values).dataAt? data before = some (.obj entries))
    (hstarts : (client.decoder operation values).Starts keys before start entries)
    (hreaches : Selection.Reaches client.bundle nodes start.type keys start.head.set.selections)
    (hn : client.bundle.get? nodes.typeName = some nodeType)
    (hfirst : ((Decoded.object ((client.decoder operation values).decode data)).at?
      (before ++ keys.map .key)).bind Decoded.connection? = some first)
    (hl : Json.Leads keys entries found) (hpage : server.Page (server.following none) found)
    (hserves : server.Serves client transport first state)
    (hdistinct : (server.entries.map Prod.fst).Nodup) (hsize : 1 ≤ server.size)
    (hlimit : server.entries.length ≤ (limit + 1) * server.size) :
    ∃ models after, (client.fetchAllPages transport limit first).run.run state =
        (.ok (some models), after) ∧
      models.map (fun node => (node.cursor?, node.unmarked)) =
        server.entries.map fun entry =>
          (some entry.1, (client.decoder operation values).alone nodeType nodes entry.2) := by
  have hrooted : (client.decoder operation values).bundle.Rooted :=
    BundleDraft.rooted_of_build hbundle
  have hregistry : (client.decoder operation values).registry = client.registry := rfl
  obtain ⟨⟨connection, hconnection, hshows⟩, hdirect⟩ :=
    Decoder.shows_of_reaches hrooted hb hf hd hs he hstarts hreaches hn hl
  obtain rfl : connection = first := Option.some.inj (hconnection.symm.trans hfirst)
  obtain ⟨models, after, hrun, hmodels⟩ := hserves.fetchFurther_eq rfl hregistry hrooted hfetches hn
    hdirect hdistinct hsize .first hshows hpage (List.nil_append _).symm hlimit
  refine ⟨connection.nodes ++ models, after, ?_, ?_⟩
  · rw [Client.fetchAllPages]
    exact (Client.run_bind hrun).trans rfl
  · rw [List.map_append, hshows.models_page hpage, hmodels, ← List.map_append, List.take_append_drop]
    rfl

def listingDraft : OperationDraft :=
  .ofProgram .query
    [.object "shop" .none
      [.connection "products" ⟨none, [("first", .int 1)]⟩ [.field "title" .none]]]

def listingNodes : SelectionSet := ⟨"Product", [.leaf (.plain "id"), .leaf (.plain "title")]⟩

def listing : Operation :=
  ⟨.query, none, [], [], ⟨"Query", [.composite (.plain "shop") "Shop" [.leaf (.plain "id"),
    .composite ⟨"products", none, [("first", .int 1)], true⟩ "ProductConnection"
      [.composite (.plain "edges") "ProductEdge" [.leaf (.plain "cursor"),
        .composite (.plain "node") listingNodes.typeName listingNodes.selections],
       .composite (.plain "pageInfo") "PageInfo" [.leaf (.plain "hasNextPage"),
        .leaf (.plain "hasPreviousPage")]]]]⟩⟩

def listingServer : Server :=
  ⟨[("c1", [("id", .str "p1"), ("title", .str "Bowler")]),
    ("c2", [("id", .str "p2"), ("title", .str "Fedora")])], 1⟩

def listingPage (entries : List (String × List (String × Json))) (more : Bool) :
    List (String × Json) :=
  [("edges", .arr (entries.map fun entry => .obj [("cursor", .str entry.1), ("node", .obj entry.2)])),
   ("pageInfo", .obj [("hasNextPage", .bool more), ("hasPreviousPage", .bool (!more))])]

theorem pageHas_listingPage {entries : List (String × List (String × Json))} {more : Bool} :
    Json.PageHas (listingPage entries more) "hasNextPage" (.bool true) ↔ more = true := by
  unfold Json.PageHas
  simp [listingPage, Keyed.find?]

def listingShop (entries : List (String × List (String × Json))) (more : Bool) : Json :=
  .obj [("__typename", .str "Shop"), ("id", .str "s1"), ("products", .obj (listingPage entries more))]

abbrev listingClient : Client := ⟨sampleBundle, [], none, none⟩

def listingData : Json := .obj [("shop", listingShop (listingServer.entries.take 1) true)]

def listingTransport : Transport Unit := fun _ _ =>
  return .ofData (.obj [(nodeFieldName, listingShop (listingServer.entries.drop 1) false)])

def listingFirst : Connection :=
  (((Decoded.object ((listingClient.decoder listing []).decode listingData)).at?
    [.key "shop", .key "products"]).bind Decoded.connection?).get (by decide +kernel)

theorem listing_built : (listingDraft.build sampleBundle).result = .ok listing := by cbv

def sampleShop : TypeDescriptor := (sampleBundle.get? "Shop").get (by decide)

def sampleProduct : TypeDescriptor := (sampleBundle.get? "Product").get (by decide)

def sampleNode : TypeDescriptor :=
  ⟨"Node", .interface, [⟨"id", .nonNull (.named "ID"), []⟩], ["Shop", "Product"], true, []⟩

/-- It is enough to look at the types that the bundle holds. -/
theorem Bundle.fetchesNodes_of_types {bundle : Bundle} {interface : TypeDescriptor}
    (hd : ∃ field, bundle.nodeField? = some field ∧ bundle.get? field.typeName = some interface ∧
      Keyed.contains "id" field.arguments = true)
    (hi : interface.kind = .interface ∧ interface.implementsNode = true)
    (ht : ∀ type ∈ bundle.types, type.implementsNode = true →
      interface.canBe type.name = true ∧ type.isComposite = true ∧
        (type.field? "id").any (fun field => (bundle.get? field.typeName).any fun leaf =>
          !leaf.isComposite) = true) : bundle.FetchesNodes interface := by
  have htype : ∀ name type, bundle.get? name = some type → type ∈ bundle.types ∧ type.name = name :=
    fun name type h => ⟨List.mem_of_find?_eq_some h, Bundle.get?_name h⟩
  refine ⟨hd, hi.1, hi.2, fun name type h hn => ?_, fun name type h hn => ?_⟩
  · obtain ⟨hm, rfl⟩ := htype name type h
    exact (ht type hm hn).1
  · obtain ⟨-, hc, hfield⟩ := ht type (htype name type h).1 hn
    obtain ⟨field, hf, hleaf⟩ := (Option.any_eq_true _ _).1 hfield
    obtain ⟨leaf, hl, hnot⟩ := (Option.any_eq_true _ _).1 hleaf
    exact ⟨hc, field, leaf, hf, hl, by simpa using hnot⟩

theorem sampleBundle_fetchesNodes : sampleBundle.FetchesNodes sampleNode :=
  Bundle.fetchesNodes_of_types ⟨_, rfl, rfl, rfl⟩ ⟨rfl, rfl⟩ (by decide +kernel)

theorem listing_second {page : Connection} {state : Unit}
    (h : (listingClient.fetchNextPage listingTransport listingFirst).run.run () = (.ok page, state)) :
    page.info.hasNext = false := by
  have hsecond : ((listingClient.fetchNextPage listingTransport listingFirst).run.run
      ()).1.toOption.any (·.info.hasNext) = false := by decide +kernel
  rw [h] at hsecond
  exact hsecond

theorem listing_passes {current : Connection} {state : Unit}
    (h : listingClient.Passes listingTransport listingFirst () current state) :
    current = listingFirst ∨ current.info.hasNext = false := by
  induction h with
  | first => exact .inl rfl
  | next passed further fetched ih =>
    rcases ih with rfl | hlast
    · exact .inr (listing_second fetched)
    · rw [hlast] at further
      cases further

/-- The query for the second page fetches the shop, with the products after the first cursor. -/
def listingRequested : Bool :=
  match listingFirst.mark with
  | some mark => match mark.usableAnchor?, mark.nextPage with
    | some anchor, .ok next => decide (anchor.id = "s1" ∧ anchor.typeName = "Shop" ∧
        next.path = [nodeFieldName, "products"] ∧ next.operation.after? next.path = some "c1")
    | _, _ => false
  | none => false

theorem listing_serves :
    listingServer.Serves listingClient listingTransport listingFirst () := by
  intro current state mark next hpasses hmore hmark hnext
  have h : listingRequested = true := by decide +kernel
  unfold listingRequested at h
  rcases listing_passes hpasses with rfl | hlast
  · rw [hmark] at h
    simp only [hnext] at h
    cases hu : mark.usableAnchor? with
    | none => simp [hu] at h
    | some anchor =>
      simp only [hu, decide_eq_true_eq] at h
      obtain ⟨hid, htype, hpath, hafter⟩ := h
      refine ⟨_, _, _, rfl, rfl, rfl,
        ⟨listingPage (listingServer.entries.drop 1) false, ?_, ?_⟩, fun other ho => ?_⟩
      · rw [hpath]
        exact ⟨_, rfl, _, rfl, rfl⟩
      · rw [hafter]
        exact ⟨by cbv, pageHas_listingPage.trans (by decide)⟩
      · obtain rfl := Option.some.inj (hu.symm.trans ho)
        rw [hid, htype]
        exact ⟨_, rfl, rfl, rfl⟩
  · rw [hlast] at hmore
    cases hmore

theorem listing_all : ∃ models after,
    (listingClient.fetchAllPages listingTransport 1 listingFirst).run.run () =
      (.ok (some models), after) ∧
    models.map (fun node => (node.cursor?, node.unmarked)) =
      listingServer.entries.map fun entry =>
        (some entry.1, (listingClient.decoder listing []).alone sampleProduct listingNodes entry.2) := by
  have hreaches : Selection.Reaches sampleBundle listingNodes
      ((listingClient.decoder listing []).decode listingData).type ["shop", "products"]
      ((listingClient.decoder listing []).decode listingData).head.set.selections := by
    have hknown : sampleBundle.get? sampleShop.name = some sampleShop := rfl
    have hsingle : (Field.plain "shop").connection = false := rfl
    refine .object List.mem_cons_self hsingle hknown rfl ?_
    change Selection.Reaches _ _ _ [(Field.mk "products" none [("first", .int 1)] true).responseKey] _
    refine .connection (List.mem_cons_of_mem _ List.mem_cons_self) ?_ ?_
    · rfl
    · exact ⟨_, rfl, by decide⟩
  exact Client.fetchAllPages_eq sampleBundle_build sampleBundle_fetchesNodes listing_built rfl
    (by decide +kernel) rfl rfl (.root rfl) hreaches rfl (Option.some_get _).symm
    ⟨_, rfl, _, rfl, rfl⟩ ⟨by cbv, pageHas_listingPage.trans (by decide)⟩ listing_serves (by decide)
    (by decide) (by decide)

/-- A page with an id, which lacks the list of the interface that it is selected as. -/
def lackingBundle : Bundle :=
  let field (name typeName : String) := FieldDescriptor.mk name (.named typeName) []
  let object (name : String) (node : Bool) (fields : List FieldDescriptor) :=
    TypeDescriptor.mk name .object fields [] node []
  let query := object "Query" false
    [field "top" "Top", ⟨"node", .named "Node", [("id", .nonNull (.named "ID"))]⟩]
  ⟨query, none,
    ["ID", "String", "Boolean"].map (TypeDescriptor.ofKind · .scalar) ++
    [query, ⟨"Node", .interface, [field "id" "ID"], ["Page"], true, []⟩,
     ⟨"Top", .interface, [⟨"items", .named "Items", [("after", .named "String")]⟩], ["Page"], false, []⟩,
     object "Page" true [field "id" "ID"],
     object "Items" false [field "edges" "Edge", field "pageInfo" "PageInfo"],
     object "Edge" false [field "cursor" "String", field "node" "Item"],
     object "Item" false [field "name" "String"],
     object "PageInfo" false [field "hasNextPage" "Boolean", field "hasPreviousPage" "Boolean"]]⟩

def lackingDraft : OperationDraft :=
  .ofProgram .query [.object "top" .none [.connection "items" .none [.field "name" .none]]]

def lackingNodes : SelectionSet := ⟨"Item", [.leaf (.plain "name")]⟩

def lackingOperation : Operation :=
  ⟨.query, none, [], [], ⟨"Query", [.composite (.plain "top") "Top" [.leaf (.plain typenameField),
    .composite ⟨"items", none, [], true⟩ "Items"
      [.composite (.plain "edges") "Edge" [.leaf (.plain "cursor"),
        .composite (.plain "node") lackingNodes.typeName lackingNodes.selections],
       .composite (.plain "pageInfo") "PageInfo" [.leaf (.plain "hasNextPage"),
        .leaf (.plain "hasPreviousPage")]]]]⟩⟩

theorem lacking_built : (lackingDraft.build lackingBundle).result = .ok lackingOperation := by cbv

def lackingServer : Server := ⟨[("c1", [("name", .str "n1")]), ("c2", [("name", .str "n2")])], 1⟩

abbrev lackingClient : Client := ⟨lackingBundle, [], none, none⟩

def lackingTop : List (String × Json) :=
  [("__typename", .str "Page"), ("id", .str "p1"),
   ("items", .obj (listingPage (lackingServer.entries.take 1) true))]

def lackingData : Json := .obj [("top", .obj lackingTop)]

def lackingFirst : Connection :=
  (((Decoded.object ((lackingClient.decoder lackingOperation []).decode lackingData)).at?
    [.key "top", .key "items"]).bind Decoded.connection?).get (by decide +kernel)

def lackingInterface : TypeDescriptor := (lackingBundle.get? "Top").get (by decide)

def lackingNode : TypeDescriptor := (lackingBundle.get? "Node").get (by decide)

theorem lackingBundle_fetchesNodes : lackingBundle.FetchesNodes lackingNode :=
  Bundle.fetchesNodes_of_types ⟨_, rfl, rfl, rfl⟩ ⟨rfl, rfl⟩ (by decide +kernel)

theorem lackingFirst_nextPage : ∃ error, lackingFirst.nextPage = .error error := by
  have h : lackingFirst.nextPage.toOption.isNone = true := by decide +kernel
  cases hnext : lackingFirst.nextPage with
  | error error => exact ⟨error, rfl⟩
  | ok next =>
    rw [hnext] at h
    cases h

section

variable {σ : Type} (transport : Transport σ) (state : σ)

theorem lacking_fetchNextPage : ∃ failure,
    (lackingClient.fetchNextPage transport lackingFirst).run.run state = (.error failure, state) := by
  obtain ⟨error, h⟩ := lackingFirst_nextPage
  rw [Client.fetchNextPage, h]
  exact ⟨_, rfl⟩

theorem lacking_fetchAllPages (limit : Nat) (models : List Model) (after : σ) :
    (lackingClient.fetchAllPages transport limit lackingFirst).run.run state ≠
      (.ok (some models), after) := by
  have hmore : (lackingFirst.info.hasNext && !lackingFirst.isEmpty) = true := by decide +kernel
  rw [Client.fetchAllPages]
  unfold Client.fetchFurther
  rw [if_pos hmore]
  cases limit with
  | zero => exact fun h => by cases h
  | succ limit =>
    obtain ⟨failure, hfetch⟩ := lacking_fetchNextPage transport state
    intro h
    cases (Client.run_bind_error (Client.run_bind_error hfetch)).symm.trans h

/-- No query is sent, so the transport has nothing to answer. -/
theorem lacking_serves : lackingServer.Serves lackingClient transport lackingFirst state := by
  intro current before mark next hpasses _ hmark hnext
  have hcurrent : current = lackingFirst := by
    clear hmark
    induction hpasses with
    | first => rfl
    | @next current page before after passed further fetched ih =>
      obtain rfl := ih further
      obtain ⟨failure, hfetch⟩ := lacking_fetchNextPage transport before
      cases hfetch.symm.trans fetched
  subst hcurrent
  obtain ⟨error, herror⟩ := lackingFirst_nextPage
  rw [Connection.nextPage, hmark] at herror
  cases hnext.symm.trans herror

end

/-- The pages after the first are lost where the type of the object lacks the list. -/
theorem lacking_pages_lost :
    (⟨some "Query", none, lackingBundle.types⟩ : BundleDraft).build = .ok lackingClient.bundle ∧
      (∃ interface, lackingBundle.FetchesNodes interface) ∧
      (lackingDraft.build lackingBundle).result = .ok lackingOperation ∧
      Step.fragmentsOfAll lackingDraft.program = [] ∧
      Selection.EverywhereAll Selection.Direct lackingOperation.set.selections ∧
      (∃ start, (Decoded.object ((lackingClient.decoder lackingOperation []).decode lackingData)).at?
          [.key "top"] = some (.object start) ∧ start.type.implementsNode = true ∧
        start.head.set.typeName = lackingInterface.name ∧
        Selection.Reaches lackingBundle lackingNodes lackingInterface ["items"]
          start.head.set.selections) ∧
      (lackingClient.decoder lackingOperation []).dataAt? lackingData [.key "top"] =
        some (.obj lackingTop) ∧
      Keyed.find? "id" lackingTop = some (.str "p1") ∧
      ((Decoded.object ((lackingClient.decoder lackingOperation []).decode lackingData)).at?
        ([.key "top"] ++ ["items"].map .key)).bind Decoded.connection? = some lackingFirst ∧
      (∃ found, Json.Leads ["items"] lackingTop found ∧
        lackingServer.Page (lackingServer.following none) found) ∧
      (∀ transport : Transport Unit,
        lackingServer.Serves lackingClient transport lackingFirst ()) ∧
      (lackingServer.entries.map Prod.fst).Nodup ∧ 1 ≤ lackingServer.size ∧
      ∀ (transport : Transport Unit) (limit : Nat) (models : List Model) (after : Unit),
        (lackingClient.fetchAllPages transport limit lackingFirst).run.run () ≠
          (.ok (some models), after) := by
  refine ⟨rfl, ⟨_, lackingBundle_fetchesNodes⟩, lacking_built, rfl, by decide +kernel,
    ⟨_, rfl, rfl, rfl, ?_⟩, rfl, rfl, (Option.some_get _).symm,
    ⟨_, ⟨_, rfl, rfl⟩, by cbv, pageHas_listingPage.trans (by decide)⟩,
    fun transport => lacking_serves transport (), by decide, by decide,
    fun transport => lacking_fetchAllPages transport ()⟩
  change Selection.Reaches _ _ _ [(Field.mk "items" none [] true).responseKey] _
  refine .connection (List.mem_cons_of_mem _ List.mem_cons_self) ?_ ?_
  · rfl
  · exact ⟨_, rfl, by decide⟩

end GraphQLClient
