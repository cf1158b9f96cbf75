import Mcpkit.Client.Request
import Mcpkit.Server.PagedRuns
import Mcpkit.Transport.Socket

/-!
# Listing the tools over a faithful transport

The transport hands every request to the server and the response back, as
texts.  What the client reads is then what the server answered, as long as the
texts stay within the limits of the message parser.
-/

namespace Mcpkit

open Json JsonValue Protocol List JString Bool Binary64

variable {W T : Type}

variable {srv' : Server W} {c : Client} {tr : T} {s' : Session} {i : Nat}
  {params : Option JsonValue} {members : MemberList}

section

variable [Libc]

/-- Every request is dispatched, and its response is received next.  The other end is as after the
dispatch, up to what else happens meanwhile. -/
structure Delivers (t : TransportOps T) (view : T → Server W × Session)
    (meanwhile : Server W × Session → Server W × Session → Prop) : Prop where
  exchange : ∀ tr text req srv' s' resp, cString text = text → mcpMessageParse text = some req →
    mcpMessageKind req = .request →
    mcpServerDispatch (view tr).1 (view tr).2 req = (srv', s', .ok resp) →
    ∃ tr₁ tr₂, t.send tr text = (tr₁, .ok) ∧
      t.recv tr₁ = (tr₂, .ok (mcpMessageSerialize resp)) ∧ meanwhile (srv', s') (view tr₂)

variable {meanwhile : Server W × Session → Server W × Session → Prop}
  {view : T → Server W × Session} {t : TransportOps T}

theorem Delivers.mono {meanwhile' : Server W × Session → Server W × Session → Prop}
    (h : Delivers t view meanwhile) (himp : ∀ st st', meanwhile st st' → meanwhile' st st') :
    Delivers t view meanwhile' where
  exchange := by
    intro tr text req srv' s' resp htext hparse hrequest hdispatch
    obtain ⟨tr₁, tr₂, hsend, hrecv, hview⟩ :=
      h.exchange tr text req srv' s' resp htext hparse hrequest hdispatch
    exact ⟨tr₁, tr₂, hsend, hrecv, himp _ _ hview⟩

theorem Delivers.exchanges (h : Delivers t view meanwhile) (hlibc : PrintsDoubles) {method : Bytes}
    {req : Message} (hreq : mcpRequestNewNumberId c.id method params = some req)
    (hrequest : mcpMessageKind req = .request) (hkeys : req.dom.DistinctKeys)
    (hlimits : WithinLimits req) {resp : Message}
    (hdispatch : mcpServerDispatch (view tr).1 (view tr).2 req = (srv', s', .ok resp)) :
    ∃ tr', Exchange t (c, tr) method params (mcpMessageSerialize resp) tr' ∧
      meanwhile (srv', s') (view tr') := by
  have htext := cString_mcpMessageSerialize hlibc req
  obtain ⟨tr₁, tr₂, hsend, hrecv, hview⟩ := h.exchange tr _ req srv' s' resp (by rw [htext, htext])
    (mcpMessageParse_mcpMessageSerialize hlibc hkeys hlimits) hrequest hdispatch
  exact ⟨tr₂, ⟨req, tr₁, hreq, hsend, hrecv⟩, hview⟩

theorem Delivers.roundtrip (h : Delivers t view meanwhile) (hlibc : PrintsDoubles) {method : Bytes}
    {req : Message} (hreq : mcpRequestNewNumberId c.id method params = some req)
    (hrequest : mcpMessageKind req = .request) (hkeys : req.dom.DistinctKeys)
    (hlimits : WithinLimits req) {resp : Message}
    (hdispatch : mcpServerDispatch (view tr).1 (view tr).2 req = (srv', s', .ok resp))
    (hresponse : mcpMessageKind resp = .response) (hkeys' : resp.dom.DistinctKeys)
    (hlimits' : WithinLimits resp) {got : FiniteDouble} (hgot : mcpMessageIdNumber resp = some got)
    (heq : got.val.eq c.id = true) :
    ∃ tr', Mcpkit.roundtrip t (c, tr) method params = ((c.advance, tr'), .ok resp) ∧
      meanwhile (srv', s') (view tr') := by
  obtain ⟨tr', hexchange, hview⟩ := h.exchanges hlibc hreq hrequest hkeys hlimits hdispatch
  have hparse := mcpMessageParse_mcpMessageSerialize hlibc hkeys' hlimits'
  refine ⟨tr', ?_, hview⟩
  rw [hexchange.roundtrip, readResponse_eq_ok.mpr ⟨hparse, hresponse, got, hgot, heq⟩]

end

def pageParams : Nat → Option JsonValue
  | 0 => none
  | i + 1 => some (.object [("cursor", .string (cursorFor (100 * (i + 1))))])

def pageCursor : Nat → Option JString
  | 0 => none
  | i + 1 => some (cursorFor (100 * (i + 1)))

theorem cursorAt_pageCursor (i : Nat) : CursorAt (pageCursor i) (100 * i) := by
  cases i with
  | zero => exact .inl ⟨rfl, rfl⟩
  | succ i => exact .inr rfl

theorem cursorParams_cursorFor (i : Nat) :
    cursorParams (cursorFor (100 * i + 100)) = pageParams (i + 1) := by
  rw [cursorParams, newString_bytes]
  rfl

def listRequest (c : Client) (i : Nat) : Message :=
  ((newEnvelope.set "id" (.number ⟨c.id, c.isFinite_id⟩)).set "method"
    (.string "tools/list")).setOwned "params" (pageParams i)

theorem mcpRequestNewNumberId_eq (c : Client) (i : Nat) :
    mcpRequestNewNumberId c.id (lit "tools/list").bytes (pageParams i) =
      some (listRequest c i) := by
  rw [mcpRequestNewNumberId, newNumber, dif_pos c.isFinite_id, newString_bytes]
  rfl

theorem isListRequest_listRequest (c : Client) (i : Nat) :
    IsListRequest .tools (pageCursor i) (listRequest c i) := by
  cases i <;> exact ⟨rfl, rfl, rfl, rfl⟩

theorem requestId_listRequest (c : Client) (i : Nat) :
    requestId (listRequest c i) = some (.number c.id) := by
  cases i <;> rfl

theorem replyId_listRequest (c : Client) (i : Nat) :
    replyId (listRequest c i) = .number ⟨c.id, c.isFinite_id⟩ := by
  cases i <;> rfl

theorem distinctKeys_listRequest (c : Client) (i : Nat) : (listRequest c i).dom.DistinctKeys := by
  have hrequest := Message.distinctKeys_set
    (Message.distinctKeys_set distinctKeys_newEnvelope "id"
      (show DistinctKeys (.number ⟨c.id, c.isFinite_id⟩) from trivial)) "method"
    (show DistinctKeys (.string "tools/list") from trivial)
  cases i with
  | zero => exact hrequest
  | succ i =>
    exact Message.distinctKeys_set hrequest "params"
      (distinctKeys_empty.set "cursor" (v := .string _) trivial)

/-- Nothing that a listing reads differs between two servers. -/
structure SameListings (srv srv' : Server W) : Prop extends SameRegistries srv srv' where
  listTtlMs : srv'.listTtlMs = srv.listTtlMs
  listCacheScope : srv'.listCacheScope = srv.listCacheScope
  responseMeta : srv'.responseMeta = srv.responseMeta

namespace SameListings

theorem withShared (srv : Server W) (x : SharedState W) : SameListings srv (srv.withShared x) :=
  ⟨⟨rfl, rfl, rfl, rfl⟩, rfl, rfl, rfl⟩

theorem trans {srv srv'' : Server W} (h : SameListings srv srv') (h' : SameListings srv' srv'') :
    SameListings srv srv'' where
  tools := h'.tools.trans h.tools
  resources := h'.resources.trans h.resources
  prompts := h'.prompts.trans h.prompts
  skillReg := h'.skillReg.trans h.skillReg
  listTtlMs := h'.listTtlMs.trans h.listTtlMs
  listCacheScope := h'.listCacheScope.trans h.listCacheScope
  responseMeta := h'.responseMeta.trans h.responseMeta

theorem routeToolsList {srv : Server W} (h : SameListings srv srv') {s : Session}
    (hkind : s'.appsHost = s.appsHost) (req : Message) :
    Mcpkit.routeToolsList srv' s' req = Mcpkit.routeToolsList srv s req := by
  simp only [Mcpkit.routeToolsList, respondPage, respondDecorated, decorateResult, h.tools,
    h.listTtlMs, h.listCacheScope, h.responseMeta, toolHidden_congr hkind]

end SameListings

/-- Between two requests of a client nothing changes that a listing reads, and nobody else uses
the session. -/
def Undisturbed (st st' : Server W × Session) : Prop := SameListings st.1 st'.1 ∧ st'.2 = st.2

/-- The client is about to ask for a page: the other end lists what it listed at the start, and
the session has not seen the ids that the client is going to use. -/
structure Ready (view : T → Server W × Session) (c : Client) (srv : Server W) (s : Session)
    (i : Nat) (st : Client × T) : Prop where
  client : st.1 = Client.advance^[i] c
  listings : SameListings srv (view st.2).1
  initialized : (view st.2).2.initialized = true
  kind : (view st.2).2.appsHost = s.appsHost
  fresh : ∀ e ∈ (view st.2).2.ids, ∀ k, c.nextId + i ≤ k → k ≤ 9007199254740992 →
    idEqual e (.number (ofNat k)) = false

theorem nextId_iterate (h : c.nextId + i ≤ 9007199254740992) :
    (Client.advance^[i] c).nextId = c.nextId + i := by
  induction i with
  | zero => rfl
  | succ i ih =>
    have hi := ih (by omega)
    rw [Function.iterate_succ_apply', Client.nextId_advance (by omega), hi, Nat.add_assoc]

/-- None of the recorded ids is one that a client uses from a number on. -/
def UnseenFrom (m : Nat) (ids : List IdEntry) : Prop :=
  ∀ e ∈ ids, ∀ k, m ≤ k → k ≤ 9007199254740992 → idEqual e (.number (ofNat k)) = false

variable {ids : List IdEntry} {m : Nat} {items : List JsonValue}

theorem UnseenFrom.not_contains (h : UnseenFrom m ids) (hm : m ≤ 9007199254740992) :
    mcpIdsetContains ids (.number (ofNat m)) = false := by
  by_contra hcontains
  obtain ⟨e, he, hequal⟩ := exists_idEqual_of_contains (not_eq_false _ ▸ hcontains)
  rw [h e he m le_rfl hm] at hequal
  cases hequal

theorem UnseenFrom.record (h : UnseenFrom m ids) (hm : m < 9007199254740992) :
    UnseenFrom (m + 1) (ids ++ [.number (ofNat m)]) := by
  intro e he k hk hle
  obtain he | he := mem_append.mp he
  · exact h e he k (by omega) hle
  rw [mem_singleton.mp he]
  have hne : ¬(Binary64.ofNat m).eq (Binary64.ofNat k) = true := by
    rw [eq_ofNat_iff hm.le hle]
    omega
  exact not_eq_true _ ▸ hne

section

variable {view : T → Server W × Session} {c : Client} {srv : Server W} {s : Session} {i : Nat}
  {st : Client × T}

theorem Ready.id (h : Ready view c srv s i st) (hid : c.nextId + i ≤ 9007199254740992) :
    st.1.id = Binary64.ofNat (c.nextId + i) := by
  rw [Client.id, h.client, nextId_iterate hid]

theorem Ready.dispatchGate (h : Ready view c srv s i st)
    (hid : c.nextId + i ≤ 9007199254740992) :
    Mcpkit.dispatchGate (view st.2).2 (listRequest st.1 i) = .route Listing.tools.method
      { (view st.2).2 with ids :=
        (view st.2).2.ids ++ [.number (ofNat (c.nextId + i))] } := by
  have hrequest := isListRequest_listRequest st.1 i
  have hrequestId := requestId_listRequest st.1 i
  rw [h.id hid] at hrequestId
  rw [dispatchGate_of_initialized hrequest.valid hrequest.method h.initialized, hrequestId]
  · rfl
  intro id heq
  rw [hrequestId] at heq
  cases heq
  exact UnseenFrom.not_contains h.fresh hid

theorem Ready.next (h : Ready view c srv s i st) (hid : c.nextId + i < 9007199254740992)
    {x : SharedState W}
    (hview : Undisturbed ((view st.2).1.withShared x,
      { (view st.2).2 with ids := (view st.2).2.ids ++ [.number (ofNat (c.nextId + i))] })
      (view tr)) : Ready view c srv s (i + 1) (st.1.advance, tr) := by
  obtain ⟨hlistings, hsession⟩ := hview
  dsimp only at hlistings hsession
  refine ⟨?_, ?_, ?_, ?_, ?_⟩
  · rw [Function.iterate_succ_apply', ← h.client]
  · exact (h.listings.trans (.withShared _ x)).trans hlistings
  · rw [hsession]
    exact h.initialized
  · rw [hsession]
    exact h.kind
  · rw [hsession]
    exact UnseenFrom.record h.fresh hid

theorem distinctKeys_of_page (hitems : Listing.tools.entries srv s = items.map some) :
    ∀ v ∈ (items.drop (100 * i)).take 100, v.DistinctKeys := by
  intro v hv
  have hmem : v ∈ items := mem_of_mem_drop (mem_of_mem_take hv)
  have hentry : some v ∈ Listing.tools.entries srv s := by
    rw [hitems]
    exact mem_map_of_mem hmem
  obtain ⟨t, -, ht⟩ := mem_map.mp hentry
  exact distinctKeys_toolEntry ht

def pageResponse (c : Client) (members : MemberList) : Message :=
  (newEnvelope.set "id" (.number ⟨c.id, c.isFinite_id⟩)).set "result" (.object members)

theorem exists_pageResponse (htexts : ValidTexts srv)
    (hitems : Listing.tools.entries srv s = items.map some) (hlt : 100 * i + 100 < sizeModulus)
    (c : Client) :
    ∃ members, routeToolsList srv s (listRequest c i) = some (pageResponse c members) ∧
      (pageResponse c members).dom.DistinctKeys ∧
      members.lookup (.lit "tools") = some (.array ((items.drop (100 * i)).take 100)) ∧
      members.lookup (.lit "nextCursor") = if 100 * i + 100 < items.length
        then some (.string (cursorFor (100 * i + 100))) else none := by
  have henabled : Listing.tools.Enabled srv := trivial
  have hpage : ((Listing.tools.entries srv s).drop (100 * i)).take 100 =
      ((items.drop (100 * i)).take 100).map some := by
    rw [hitems, map_take, map_drop]
  obtain ⟨members, next, hrespond, hroute, hmembers, hmembers', rfl⟩ := exists_route_pageAt henabled
    htexts.cacheScope (cursorAt_pageCursor i) hlt (isListRequest_listRequest c i).cursor hpage
  rw [replyId_listRequest] at hroute
  refine ⟨members, hroute, ?_, hmembers, ?_⟩
  · exact distinctKeys_respondPage (distinctKeys_of_page hitems) (hrespond.symm.trans hroute)
  · rw [hmembers', hitems, length_map]
    split <;> rfl

theorem Ready.request [Libc] (hlibc : PrintsDoubles) {t : TransportOps T}
    (hdelivers : Delivers t view Undisturbed) (h : Ready view c srv s i st)
    (hid : c.nextId + i < 9007199254740992)
    (hroute : routeToolsList srv s (listRequest st.1 i) = some (pageResponse st.1 members))
    (hkeys : (pageResponse st.1 members).dom.DistinctKeys)
    (hlimits : WithinLimits (listRequest st.1 i))
    (hlimits' : WithinLimits (pageResponse st.1 members)) :
    ∃ st', mcpClientRequest t st (lit "tools/list").bytes (pageParams i) true =
        (st', .ok, some (.object members)) ∧ Ready view c srv s (i + 1) st' := by
  have hrequest := (isListRequest_listRequest st.1 i).request
  obtain ⟨x, hdispatch⟩ := mcpServerDispatch_listing (view st.2).1 hrequest (h.dispatchGate hid.le)
  have hreply : Listing.tools.route (view st.2).1 (view st.2).2 (listRequest st.1 i) =
      some (pageResponse st.1 members) := (h.listings.routeToolsList h.kind _).trans hroute
  rw [hreply] at hdispatch
  have heq : st.1.id.eq st.1.id = true :=
    (eq_iff_rank st.1.isFinite_id st.1.isFinite_id).mpr rfl
  have hgot : mcpMessageIdNumber (pageResponse st.1 members) =
      some ⟨st.1.id, st.1.isFinite_id⟩ := rfl
  obtain ⟨tr, hroundtrip, hview⟩ := hdelivers.roundtrip hlibc (mcpRequestNewNumberId_eq st.1 i)
    hrequest (distinctKeys_listRequest st.1 i) hlimits hdispatch (envelope_result _ _).1 hkeys
    hlimits' hgot heq
  have hcopy : clone (.object members) = .object members := clone_of_distinctKeys hkeys.2.2.2.1
  refine ⟨(st.1.advance, tr), ?_, h.next hid hview⟩
  have herror : mcpMessageErrorCode (pageResponse st.1 members) = none := rfl
  have hresult : mcpMessageResult (pageResponse st.1 members) = some (.object members) := rfl
  simp [mcpClientRequest, hroundtrip, herror, hresult, hcopy]

end

section

variable [Libc]

/-- What it takes for a client to list the tools: a faithful transport, valid texts, an initialized
session without the ids to come, and messages that both parsers accept. -/
structure CanList (t : TransportOps T) (view : T → Server W × Session) (c : Client)
    (tr : T) : Prop where
  delivers : Delivers t view Undisturbed
  texts : ValidTexts (view tr).1
  initialized : (view tr).2.initialized = true
  fresh : ∀ e ∈ (view tr).2.ids, ∀ k, c.nextId ≤ k → k ≤ 9007199254740992 →
    idEqual e (.number (ofNat k)) = false
  ids : c.nextId + (Listing.tools.entries (view tr).1 (view tr).2).length / 100 < 9007199254740992
  memory : (Listing.tools.entries (view tr).1 (view tr).2).length * 8 < sizeModulus
  limits : ∀ i, i = 0 ∨ 100 * i < (Listing.tools.entries (view tr).1 (view tr).2).length →
    WithinLimits (listRequest (Client.advance^[i] c) i) ∧
      ∀ resp, routeToolsList (view tr).1 (view tr).2 (listRequest (Client.advance^[i] c) i) =
        some resp → WithinLimits resp

variable {t : TransportOps T} {view : T → Server W × Session} {c : Client} {tr : T}

variable {st : Client × T}

theorem listToolsLoop_page {st' : Client × T}
    (hrequest : mcpClientRequest t st (lit "tools/list").bytes (pageParams i) true =
      (st', .ok, some (.object members)))
    {page : List JsonValue} (hpage : members.lookup (.lit "tools") = some (.array page))
    (hkeys : ∀ v ∈ page, v.DistinctKeys) {more : Prop} [Decidable more]
    (hnext : members.lookup (.lit "nextCursor") =
      if more then some (.string (cursorFor (100 * i + 100))) else none)
    (fuel : Nat) (acc : List JsonValue) :
    Mcpkit.listToolsLoop t (fuel + 1) st (pageParams i) acc =
      if more then Mcpkit.listToolsLoop t fuel st' (pageParams (i + 1)) (acc ++ page)
      else some (st', .ok (acc ++ page)) := by
  have hget : ∀ k, (JsonValue.object members).objectGet k = members.lookup k := fun _ => rfl
  have hcopies : page.map clone = page := by
    rw [map_congr_left fun v hv => clone_of_distinctKeys (hkeys v hv), map_id']
  rw [Mcpkit.listToolsLoop, hrequest]
  simp only [pageItems, Option.bind_some, hget, hpage, hcopies, hnext]
  by_cases hmore : more
  · simp only [if_pos hmore, Option.bind_some, stringValue, cursorParams_cursorFor]
    rfl
  · simp [if_neg hmore]

theorem CanList.listToolsLoop (h : CanList t view c tr) (hlibc : PrintsDoubles)
    (hitems : Listing.tools.entries (view tr).1 (view tr).2 = items.map some) {fuel : Nat}
    (hready : Ready view c (view tr).1 (view tr).2 i st) (hi : i = 0 ∨ 100 * i < items.length)
    (hfuel : items.length - 100 * i < fuel) (acc : List JsonValue) :
    ∃ st', Mcpkit.listToolsLoop t fuel st (pageParams i) acc =
      some (st', .ok (acc ++ items.drop (100 * i))) := by
  have hids := h.ids
  have hmemory := h.memory
  have hlimits := h.limits
  rw [hitems, length_map] at hids hmemory hlimits
  simp only [sizeModulus] at hmemory
  induction fuel generalizing i st acc with
  | zero => omega
  | succ fuel ih =>
    obtain ⟨hlimit, hlimit'⟩ := hlimits i hi
    rw [← hready.client] at hlimit hlimit'
    have hlt : 100 * i + 100 < sizeModulus := by
      simp only [sizeModulus]
      omega
    obtain ⟨members, hroute, hkeys, htools, hnext⟩ := exists_pageResponse h.texts hitems hlt st.1
    obtain ⟨st', hrequest, hready'⟩ := hready.request hlibc h.delivers (by omega) hroute hkeys
      hlimit (hlimit' _ hroute)
    rw [listToolsLoop_page hrequest htools (distinctKeys_of_page hitems) hnext]
    by_cases hmore : 100 * i + 100 < items.length
    · rw [if_pos hmore]
      obtain ⟨st'', hloop⟩ := ih hready' (.inr (by omega)) (by omega)
        (acc ++ (items.drop (100 * i)).take 100)
      refine ⟨st'', ?_⟩
      rw [hloop, append_assoc, Nat.mul_succ, ← drop_drop, take_append_drop]
    · rw [if_neg hmore, take_of_length_le (by rw [length_drop]; omega)]
      exact ⟨st', rfl⟩

theorem CanList.mcpClientListTools (h : CanList t view c tr) (hlibc : PrintsDoubles) :
    ∃ items, Listing.tools.entries (view tr).1 (view tr).2 = items.map some ∧
      ∀ fuel, items.length < fuel → ∃ st, Mcpkit.mcpClientListTools t fuel (c, tr) =
        some (st, .ok (.object [("tools", .array items)])) := by
  obtain ⟨items, hitems⟩ := exists_eq_map_some (h.texts.isSome_entries .tools (view tr).2)
  refine ⟨items, hitems, fun fuel hfuel => ?_⟩
  have hready : Ready view c (view tr).1 (view tr).2 0 (c, tr) :=
    ⟨rfl, ⟨⟨rfl, rfl, rfl, rfl⟩, rfl, rfl, rfl⟩, h.initialized, rfl, h.fresh⟩
  obtain ⟨st, hloop⟩ := h.listToolsLoop hlibc hitems hready (.inl rfl) hfuel []
  have hparams : pageParams 0 = none := rfl
  rw [hparams, Nat.mul_zero, drop_zero, nil_append] at hloop
  refine ⟨st, ?_⟩
  rw [Mcpkit.mcpClientListTools, hloop]
  simp only [Option.map_some, Except.bind, setTake_object]
  rfl

end

/-- Following the cursors of any listing reads its registry, once and in order; over a faithful
transport `mcp_client_list_tools` returns what following those of `tools/list` reads. -/
theorem listings_complete [Libc] :
    (∀ (l : Listing) (run : ListingRun W), run.Steady l → l.Enabled (run.server 0) →
      (run.entries l).length * 8 < sizeModulus →
      ∃ items, run.entries l = items.map some ∧
        ∀ fuel, items.length < fuel → Paging.follow (run.ask l) fuel 0 none = some items) ∧
    (∀ (t : TransportOps T) (view : T → Server W × Session) (c : Client) (tr : T),
      PrintsDoubles → CanList t view c tr →
      ∃ items, Listing.tools.entries (view tr).1 (view tr).2 = items.map some ∧
        ∀ fuel, items.length < fuel → ∃ st, mcpClientListTools t fuel (c, tr) =
          some (st, .ok (.object [("tools", .array items)]))) :=
  ⟨fun _ _ hsteady henabled hmemory => hsteady.follow henabled hmemory,
    fun _ _ _ _ hlibc h => h.mcpClientListTools hlibc⟩

/-- The server, the session, and the line that waits for the client. -/
structure Loopback (W : Type) where
  server : Server W
  session : Session
  line : Option Bytes

namespace Loopback

variable [Libc]

def transport : TransportOps (Loopback W) where
  send st text :=
    let r := Transport.serveLine st.server st.session text
    (⟨r.server, r.session, r.response.map mcpMessageSerialize⟩, .ok)
  recv st :=
    match st.line with
    | none => (st, .error .io)
    | some line => ({ st with line := none }, .ok line)

def view (st : Loopback W) : Server W × Session := (st.server, st.session)

theorem delivers_unchanged : Delivers (W := W) transport view Eq where
  exchange := by
    intro st text req srv' s' resp htext hparse hrequest hdispatch
    have hserve : Transport.serveLine st.server st.session text = ⟨srv', s', some resp, true⟩ := by
      simp only [Transport.serveLine, htext, hparse, hrequest]
      rw [show mcpServerDispatch st.server st.session req = _ from hdispatch]
    refine ⟨⟨srv', s', some (mcpMessageSerialize resp)⟩, ⟨srv', s', none⟩, ?_, rfl, rfl⟩
    simp [transport, hserve]

theorem delivers : Delivers (W := W) transport view Undisturbed := by
  apply delivers_unchanged.mono
  rintro st _ rfl
  exact ⟨⟨⟨rfl, rfl, rfl, rfl⟩, rfl, rfl, rfl⟩, rfl⟩

end Loopback

/-- A server with more tools than fit on one page. -/
def twoPages : Server Unit := { objectServer with tools := List.replicate 101 objectTool }

def twoPagesRun : ListingRun Unit where
  server _ := twoPages
  session _ := openSession
  request _ cursor := ⟨[("jsonrpc", .string "2.0"), ("id", .string "1"),
    ("method", .string "tools/list"),
    (.lit "params", .object ((cursor.map fun c => (.lit "cursor", .string c)).toList))]⟩

theorem validTexts_twoPages : ValidTexts twoPages where
  tools := by
    intro t ht
    rw [eq_of_mem_replicate ht]
    exact ⟨by decide, by rintro _ ⟨⟩⟩
  resources := by rintro _ ⟨⟩
  prompts := by rintro _ ⟨⟩
  skills := by rintro _ ⟨⟩
  cacheScope := by rintro _ ⟨⟩

theorem steady_twoPagesRun : twoPagesRun.Steady .tools where
  registries _ := ⟨rfl, rfl, rfl, rfl⟩
  texts _ := validTexts_twoPages
  kind _ := rfl
  initialized _ := rfl
  request _ cursor := by cases cursor <;> exact ⟨rfl, rfl, rfl, rfl⟩
  fresh _ _ _ _ := rfl

theorem length_entries_twoPages :
    (Listing.tools.entries twoPages openSession).length = 101 := by decide +kernel

theorem canList_twoPages :
    @CanList Unit (Loopback Unit) decimalLibc (@Loopback.transport Unit decimalLibc)
      Loopback.view .create ⟨twoPages, openSession, none⟩ := by
  refine @CanList.mk _ _ decimalLibc _ _ _ _ (@Loopback.delivers Unit decimalLibc)
    validTexts_twoPages rfl ?_ (by decide +kernel) (by decide +kernel) ?_
  · rintro _ ⟨⟩
  intro i hi
  have hi : i = 0 ∨ 100 * i < (Listing.tools.entries twoPages openSession).length := hi
  rw [length_entries_twoPages] at hi
  let fits (m : Message) : Bool := m.dom.depth ≤ mcpJsonMaxDepth &&
    (@mcpMessageSerialize decimalLibc m).length ≤ mcpProtocolMaxMessageBytes
  have hfits : ∀ m, fits m = true → @WithinLimits decimalLibc m := by
    intro m hm
    rw [and_eq_true, decide_eq_true_eq, decide_eq_true_eq] at hm
    exact @WithinLimits.mk decimalLibc m hm.1 hm.2
  have hpages : ∀ i < 2, fits (listRequest (Client.advance^[i] .create) i) = true ∧
      (routeToolsList twoPages openSession (listRequest (Client.advance^[i] .create) i)).all
        fits = true := by
    decide +kernel
  obtain ⟨hrequest, hpage⟩ := hpages i (by omega)
  refine ⟨hfits _ hrequest, fun resp hresp => hfits _ ?_⟩
  rwa [show routeToolsList twoPages openSession _ = some resp from hresp] at hpage

theorem listings_complete_twoPages :
    (∃ items, twoPagesRun.entries .tools = items.map some ∧
      ∀ fuel, items.length < fuel →
        Paging.follow (twoPagesRun.ask .tools) fuel 0 none = some items) ∧
    ∃ items, Listing.tools.entries twoPages openSession = items.map some ∧
      ∀ fuel, items.length < fuel → ∃ st, @mcpClientListTools (Loopback Unit) decimalLibc
        (@Loopback.transport Unit decimalLibc) fuel (.create, ⟨twoPages, openSession, none⟩) =
          some (st, .ok (.object [("tools", .array items)])) := by
  have h := @listings_complete Unit (Loopback Unit) decimalLibc
  exact ⟨h.1 .tools twoPagesRun steady_twoPagesRun trivial (by decide +kernel),
    h.2 _ _ .create ⟨twoPages, openSession, none⟩ decimalLibc_printsDoubles canList_twoPages⟩

def nested : Nat → JsonValue
  | 0 => .array []
  | n + 1 => .array [nested n]

/-- A server with a tool whose schema is nested deeper than the parser goes. -/
def deepServer : Server Unit :=
  { objectServer with tools := [{ objectTool with schema := some (nested 124) }] }

/-- The server lists the tool, but the client cannot read the list. -/
theorem mcpClientListTools_deepServer :
    ((routeToolsList deepServer openSession (listRequest .create 0)).bind (readPage "tools")).map
        (·.1.length) = some 1 ∧
      (@mcpClientListTools (Loopback Unit) decimalLibc (@Loopback.transport Unit decimalLibc) 2
        (.create, ⟨deepServer, openSession, none⟩)).map (·.2) = some (.error .protocol) := by
  decide +kernel

end Mcpkit
