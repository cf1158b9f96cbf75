import Mcpkit.Server.History
import Mcpkit.Server.Outbox

/-!
# Subscriptions

A `subscriptions/listen` request stores its id and its notification filter in
the session.  The host's notifications for the session are tested against the
stored filter and tagged with the stored id, and the response that closes the
subscription carries that id.

Between the request and its use anything else may happen on the session and on
the server.  No route but that of `subscriptions/listen` touches what is stored.
-/

namespace Mcpkit

open Json JsonValue Protocol Machine Option JString

variable {W : Type}

/-- The fields of a session that belong to its subscription. -/
structure Subscription where
  active : Bool
  idType : IdType
  idStr : Option CString
  idNum : Binary64
  toolsListChanged : Bool
  promptsListChanged : Bool
  resourcesListChanged : Bool
  resourceUris : List CString
  deriving DecidableEq

def Session.subscription (s : Session) : Subscription where
  active := s.subscriptionActive
  idType := s.subIdType
  idStr := s.subIdStr
  idNum := s.subIdNum
  toolsListChanged := s.subToolsListChanged
  promptsListChanged := s.subPromptsListChanged
  resourcesListChanged := s.subResourcesListChanged
  resourceUris := s.subResourceUris

variable {req : Message} {s s' : Session}

variable {method : JString} {notif : Message} {filter params : Option JsonValue}
  {members : MemberList} {st : Server W × Session}

theorem RouteChange.subscription (h : RouteChange W s req method s')
    (hmethod : method ≠ "subscriptions/listen") : s'.subscription = s.subscription := by
  cases h with
  | keep | handler e | client name version metaObj => rfl
  | listen notifs h => exact absurd h hmethod

theorem subscription_of_gate (h : dispatchGate s req = .route method s') :
    s'.subscription = s.subscription := by
  obtain ⟨-, -, -, ⟨-, rfl⟩ | ⟨id, -, -, rfl⟩⟩ := dispatchGate_eq_route h <;> rfl

theorem mcpServerDispatch_subscription (srv : Server W)
    (h : ¬Reaches s req "subscriptions/listen") :
    (mcpServerDispatch srv s req).2.1.subscription = s.subscription := by
  unfold mcpServerDispatch
  by_cases hkind : mcpMessageKind req = .request
  · rw [if_neg (not_not.mpr hkind)]
    dsimp only
    cases hgate : dispatchGate s req with
    | reject code text => rfl
    | route method s' =>
      have hmethod : method ≠ "subscriptions/listen" := by
        rintro rfl
        exact h ⟨hkind, s', hgate⟩
      have hstep := RouteStep.dispatchRoute (adoptLogLevel srv.countRequest req) s' req method
      exact (hstep.session.subscription hmethod).trans (subscription_of_gate hgate)
  · rw [if_pos hkind]

def IsCancelled (m : Message) : Prop :=
  mcpMessageKind m = .notification ∧ mcpMessageMethod m = some (.lit "notifications/cancelled")

theorem mcpServerNotify_subscription (srv : Server W) (s : Session) (h : ¬IsCancelled notif) :
    (mcpServerNotify srv s notif).2.1.subscription = s.subscription := by
  unfold mcpServerNotify
  split
  · rfl
  next hkind =>
    split
    · rfl
    next method hmethod =>
      dsimp only
      split
      · rfl
      · split
        next hcancelled => exact absurd ⟨not_not.mp hkind, hcancelled ▸ hmethod⟩ h
        · rfl

theorem mcpServerNotify_cancelled (srv : Server W) (s : Session) (h : IsCancelled notif) :
    (mcpServerNotify srv s notif).2.1 = { s with subscriptionActive := false } := by
  obtain ⟨hkind, hmethod⟩ := h
  rw [mcpServerNotify, if_neg (not_not.mpr hkind), hmethod]
  dsimp only
  rw [if_neg (by decide), if_pos rfl]

def listenFilter (req : Message) : Option JsonValue :=
  (mcpMessageParams req).bind (·.objectGet "notifications")

/-- The subscription of the session is the one the request asked for. -/
structure Opened (req : Message) (s : Session) : Prop where
  active : s.subscriptionActive = true
  idType : s.subIdType = mcpMessageIdType req
  idStr : s.subIdStr = (mcpMessageIdString req).map (·.toCString)
  idNum : ∀ d, mcpMessageIdNumber req = some d → s.subIdNum = d.val
  tools : s.subToolsListChanged = notificationFlag (listenFilter req) "toolsListChanged"
  prompts : s.subPromptsListChanged = notificationFlag (listenFilter req) "promptsListChanged"
  resources : s.subResourcesListChanged = notificationFlag (listenFilter req) "resourcesListChanged"
  uris : s.subResourceUris = resourceSubscriptions (listenFilter req)

namespace Opened

theorem congr (h : Opened req s) (heq : s'.subscription = s.subscription) : Opened req s' where
  active := (congrArg Subscription.active heq).trans h.active
  idType := (congrArg Subscription.idType heq).trans h.idType
  idStr := (congrArg Subscription.idStr heq).trans h.idStr
  idNum d hd := (congrArg Subscription.idNum heq).trans (h.idNum d hd)
  tools := (congrArg Subscription.toolsListChanged heq).trans h.tools
  prompts := (congrArg Subscription.promptsListChanged heq).trans h.prompts
  resources := (congrArg Subscription.resourcesListChanged heq).trans h.resources
  uris := (congrArg Subscription.resourceUris heq).trans h.uris

theorem recordSubscription (s : Session) (req : Message) :
    Opened req (Mcpkit.recordSubscription s req (listenFilter req)) where
  active := rfl
  idType := rfl
  idStr := rfl
  idNum d hd := by simp only [Mcpkit.recordSubscription, hd]
  tools := rfl
  prompts := rfl
  resources := rfl
  uris := rfl

theorem of_reaches (srv : Server W) (h : Reaches s req "subscriptions/listen") :
    Opened req (mcpServerDispatch srv s req).2.1 := by
  obtain ⟨hkind, s', hgate⟩ := h
  obtain ⟨hvalid, hmethod, -, -⟩ := dispatchGate_eq_route hgate
  obtain ⟨members, hparams, hnotifs⟩ := listenParams_of_validate hkind hmethod hvalid
  have hfilter :
      (JsonValue.object members).objectGet "notifications" = listenFilter req := by
    rw [listenFilter, hparams]
    rfl
  rw [hfilter] at hnotifs
  have hroute : (routeSubscriptionsListen s' req).1 =
      Mcpkit.recordSubscription s' req (listenFilter req) := by
    simp [routeSubscriptionsListen, hparams, hfilter, hnotifs]
  have hdispatch : (mcpServerDispatch srv s req).2.1 = (routeSubscriptionsListen s' req).1 := by
    rw [mcpServerDispatch, if_neg (not_not.mpr hkind)]
    dsimp only
    rw [hgate]
    dsimp only [dispatchRoute]
    split
    next heq => exact (congrArg (·.2.1) heq).symm
    next heq => exact (congrArg (·.2.1) heq).symm
  rw [hdispatch, hroute]
  exact recordSubscription s' req

theorem subscriptionId (h : Opened req s) (hid : mcpMessageIdType req ≠ .none) :
    Mcpkit.subscriptionId s = some (replyId req) := by
  have hnum := h.idNum
  rw [Mcpkit.subscriptionId, h.idType, h.idStr]
  unfold mcpMessageIdType mcpMessageIdString replyId
  unfold mcpMessageIdNumber at hnum
  obtain ⟨t, hkey⟩ | ⟨d, hkey⟩ := idType_cases hid
  · rw [hkey]
    exact newString_bytes t
  rw [hkey] at hnum ⊢
  dsimp only
  rw [hnum d rfl]
  exact newNumber_val d

theorem closureResponse (h : Opened req s) (hid : mcpMessageIdType req ≠ .none)
    (result : JsonValue) :
    Mcpkit.closureResponse s result =
      some ((newEnvelope.set "id" (replyId req)).set "result" result) := by
  have hsub := h.subscriptionId hid
  unfold Mcpkit.subscriptionId at hsub
  rw [Mcpkit.closureResponse]
  cases htype : s.subIdType with
  | none => exact absurd (h.idType.symm.trans htype) hid
  | string =>
    simp only [htype] at hsub
    simp only [mcpResponseOkStringIdNew, hsub]
    rfl
  | number =>
    simp only [htype] at hsub
    simp only [mcpResponseOkNumberIdNew, hsub]
    rfl

end Opened

def Sets (filter : Option JsonValue) (key : String) : Prop :=
  filter.bind (·.objectGet key) = some (.bool true)

def ListsUri (filter params : Option JsonValue) : Prop :=
  ∃ uri items, params.bind (·.objectGet "uri") = some (.string uri) ∧
    filter.bind (·.objectGet "resourceSubscriptions") = some (.array items) ∧
    JsonValue.string uri ∈ items

/-- What a notification filter lets through.  It speaks of four methods; every other one passes. -/
def Admits (filter : Option JsonValue) (method : JString) (params : Option JsonValue) : Prop :=
  if method = "notifications/tools/list_changed" then Sets filter "toolsListChanged"
  else if method = "notifications/prompts/list_changed" then Sets filter "promptsListChanged"
  else if method = "notifications/resources/list_changed" then
    Sets filter "resourcesListChanged"
  else if method = "notifications/resources/updated" then ListsUri filter params
  else True

theorem notificationFlag_iff (filter : Option JsonValue) (key : String) :
    notificationFlag filter key = true ↔ Sets filter key := by
  unfold notificationFlag Sets
  cases filter.bind (·.objectGet key) with
  | none => simp
  | some v => cases v <;> simp [boolValue]

theorem mem_resourceSubscriptions {uri : JString} :
    (∃ u ∈ resourceSubscriptions filter, u.bytes = uri.bytes) ↔
      ∃ items, filter.bind (·.objectGet "resourceSubscriptions") = some (.array items) ∧
        JsonValue.string uri ∈ items := by
  unfold resourceSubscriptions
  split
  next items heq =>
    simp only [heq, Option.some.injEq, array.injEq, exists_eq_left', List.mem_filterMap,
      map_eq_some_iff]
    constructor
    · rintro ⟨_, ⟨v, hv, t, ht, rfl⟩, hbytes⟩
      obtain rfl : t = uri := bytes_inj.mp hbytes
      cases v with
      | string t' =>
        cases ht
        exact hv
      | _ => cases ht
    · intro hmem
      exact ⟨uri.toCString, ⟨_, hmem, uri, rfl, rfl⟩, rfl⟩
  next hnone =>
    constructor
    · rintro ⟨u, hu, -⟩
      cases hu
    · rintro ⟨items, heq, -⟩
      exact absurd heq (hnone items)

theorem listsUri_iff :
    (match (params.bind (·.objectGet "uri")).bind (·.stringValue) with
      | none => false
      | some uri => (resourceSubscriptions filter).any (·.bytes = uri.bytes)) = true ↔
      ListsUri filter params := by
  unfold ListsUri
  cases params.bind (·.objectGet "uri") with
  | none => simp
  | some v =>
    cases v with
    | string uri => simp [stringValue, mem_resourceSubscriptions, string.injEq]
    | _ => simp [stringValue]

theorem ite_true_iff {c : Prop} [Decidable c] {a b : Bool} {p q : Prop} (ha : a = true ↔ p)
    (hb : b = true ↔ q) : (if c then a else b) = true ↔ if c then p else q := by
  split
  · exact ha
  · exact hb

theorem Opened.isSubscribed_iff (h : Opened req s) (method : JString) (params : Option JsonValue) :
    mcpSessionIsSubscribedToNotification s method.bytes params = true ↔
      Admits (listenFilter req) method params := by
  simp only [mcpSessionIsSubscribedToNotification, Admits, bytes_inj, h.tools, h.prompts,
    h.resources, h.uris]
  apply ite_true_iff (notificationFlag_iff _ _)
  apply ite_true_iff (notificationFlag_iff _ _)
  apply ite_true_iff (notificationFlag_iff _ _)
  exact ite_true_iff listsUri_iff (iff_of_true rfl trivial)

def membersOf : Option JsonValue → Option MemberList
  | none => some []
  | some (.object members) => some members
  | some _ => none

theorem getD_of_membersOf {v : Option JsonValue} (h : membersOf v = some members) :
    v.getD (.object []) = .object members := by
  cases v with
  | none =>
    cases h
    rfl
  | some v =>
    cases v with
    | object ms =>
      cases h
      rfl
    | _ => cases h

def taggedParams (id : JsonValue) (members metaMembers : MemberList) : JsonValue :=
  .object (Assoc.set members "_meta"
    (.object (Assoc.set metaMembers "io.modelcontextprotocol/subscriptionId" id)))

variable {metaMembers : MemberList}

theorem Opened.tagParams (h : Opened req s) (hid : mcpMessageIdType req ≠ .none)
    (hparams : membersOf params = some members)
    (hmeta : membersOf (members.lookup (.lit "_meta")) = some metaMembers) :
    Mcpkit.tagParams s params = some (taggedParams (replyId req) members metaMembers) := by
  have hget : (JsonValue.object members).objectGet "_meta" =
      members.lookup (.lit "_meta") := rfl
  simp only [Mcpkit.tagParams, getD_of_membersOf hparams, hget, getD_of_membersOf hmeta,
    h.subscriptionId hid, bind_eq_bind, bind_some, setTake_object]
  rfl

theorem Opened.sessionNotify (h : Opened req s) (hid : mcpMessageIdType req ≠ .none)
    (srv : Server W) (method : JString) (hparams : membersOf params = some members)
    (hmeta : membersOf (members.lookup (.lit "_meta")) = some metaMembers) :
    (Admits (listenFilter req) method params →
      mcpServerSessionNotify srv (some s) method.bytes params =
        (outboxPush srv ((newEnvelope.set "method" (.string method)).set "params"
          (taggedParams (replyId req) members metaMembers)), .ok)) ∧
    (¬Admits (listenFilter req) method params →
      mcpServerSessionNotify srv (some s) method.bytes params = (srv, .ok)) := by
  have hsome : (some s).filter (·.subscriptionActive) = some s := filter_some_pos h.active
  rw [← h.isSubscribed_iff]
  constructor
  · intro hadmits
    simp only [mcpServerSessionNotify, mcpSessionBuildNotification, hsome, hadmits,
      h.tagParams hid hparams hmeta, newNotification, mcpNotificationNew, newString_bytes]
    rfl
  intro hadmits
  rw [Bool.not_eq_true] at hadmits
  simp [mcpServerSessionNotify, mcpSessionBuildNotification, hsome, hadmits]

def closingResponse (id : JsonValue) : Message :=
  (newEnvelope.set "id" id).set "result" (.object
    [("resultType", .string "complete"),
      ("_meta", .object [("io.modelcontextprotocol/subscriptionId", id)])])

theorem Opened.closeSubscription (h : Opened req s) (hid : mcpMessageIdType req ≠ .none)
    (srv : Server W) (respOut : Bool) :
    ∃ s', s'.subscriptionActive = false ∧
      mcpServerSessionCloseSubscription srv s respOut =
        if respOut then (srv, s', .ok (some (closingResponse (replyId req))))
        else (outboxPush srv (closingResponse (replyId req)), s', .ok none) := by
  have hresult : (closureResult s).bind (Mcpkit.closureResponse s) =
      some (closingResponse (replyId req)) := by
    rw [closureResult, h.subscriptionId hid]
    exact h.closureResponse hid _
  rw [mcpServerSessionCloseSubscription, mcpSessionBuildSubscriptionClosure, h.active, hresult]
  refine ⟨_, ?_, rfl⟩
  rfl

/-- What may happen: a call of the client, a notification or the end of the subscription by the
host, and any change of the server by the host or for another session. -/
inductive SessionEvent (W : Type) where
  | call (c : Call)
  | notify (method : CString) (params : Option JsonValue)
  | close (respOut : Bool)
  | server (srv : Server W)

def sessionEvent (st : Server W × Session) :
    SessionEvent W → (Server W × Session) × Except Status (Option Message)
  | .call c => callStep st c
  | .notify method params =>
    let r := mcpServerSessionNotify st.1 (some st.2) method.bytes params
    ((r.1, st.2), if r.2 = .ok then .ok none else .error r.2)
  | .close respOut =>
    let r := mcpServerSessionCloseSubscription st.1 st.2 respOut
    ((r.1, r.2.1), r.2.2)
  | .server srv => ((srv, st.2), .ok none)

def Spares (st : Server W × Session) : SessionEvent W → Prop
  | .call (.dispatch req) => ¬Reaches st.2 req "subscriptions/listen"
  | .call (.notify notif) => ¬IsCancelled notif
  | .close _ => False
  | .notify _ _ => True
  | .server _ => True

theorem sessionEvent_subscription {e : SessionEvent W} (h : Spares st e) :
    (sessionEvent st e).1.2.subscription = st.2.subscription := by
  cases e with
  | call c =>
    cases c with
    | dispatch req => exact mcpServerDispatch_subscription st.1 h
    | notify notif => exact mcpServerNotify_subscription st.1 st.2 h
  | notify method params | server srv => rfl
  | close respOut => exact h.elim

theorem Opened.exec (h : Opened req st.2) {events : List (SessionEvent W)}
    (hspares : Admissible sessionEvent Spares st events) :
    Opened req (exec sessionEvent st events).2 := by
  refine exec_invariant_of_admissible (S := Server W × Session)
    (I := fun st => Opened req st.2) ?_ h hspares
  intro st e hspare hopened
  exact hopened.congr (sessionEvent_subscription hspare)

/-- After an accepted `subscriptions/listen`, until its subscription is replaced, cancelled or
closed, the host's notifications are let through as the filter says, tagged with the request's id,
and so is the response that closes the subscription. -/
theorem session_follows_listen (st : Server W × Session) {req : Message}
    (hlisten : Reaches st.2 req "subscriptions/listen") {events : List (SessionEvent W)}
    (hspares : Admissible sessionEvent Spares (callStep st (.dispatch req)).1 events) :
    ∃ id srv s, req.getKey "id" = some id ∧
      exec sessionEvent (callStep st (.dispatch req)).1 events = (srv, s) ∧
      (∀ (method : JString) params members metaMembers, membersOf params = some members →
        membersOf (members.lookup (.lit "_meta")) = some metaMembers →
        (Admits (listenFilter req) method params →
          mcpServerSessionNotify srv (some s) method.bytes params =
            (outboxPush srv ((newEnvelope.set "method" (.string method)).set "params"
              (taggedParams id members metaMembers)), .ok)) ∧
        (¬Admits (listenFilter req) method params →
          mcpServerSessionNotify srv (some s) method.bytes params = (srv, .ok))) ∧
      ∀ respOut, ∃ s', s'.subscriptionActive = false ∧
        mcpServerSessionCloseSubscription srv s respOut =
          if respOut then (srv, s', .ok (some (closingResponse id)))
          else (outboxPush srv (closingResponse id), s', .ok none) := by
  have hopened : Opened req (exec sessionEvent (callStep st (.dispatch req)).1 events).2 :=
    (Opened.of_reaches st.1 hlisten).exec hspares
  obtain ⟨hkind, s', hgate⟩ := hlisten
  have hvalid := (dispatchGate_eq_route hgate).1
  have hid := idType_ne_none_of_validate hkind hvalid
  refine ⟨replyId req, _, _, getKey_id_of_validate hkind hvalid, rfl, ?_, ?_⟩
  · intro method params members metaMembers hparams hmeta
    exact hopened.sessionNotify hid _ method hparams hmeta
  · intro respOut
    exact hopened.closeSubscription hid _ respOut

def listenRequest : Message :=
  ⟨[("jsonrpc", .string "2.0"), ("id", .string "1"), ("method", .string "subscriptions/listen"),
    ("params", .object
      [("notifications", .object [("toolsListChanged", .bool true)])])]⟩

theorem reaches_listenRequest :
    Reaches openSession listenRequest "subscriptions/listen" :=
  ⟨by decide, _, rfl⟩

theorem session_follows_listenRequest :
    ∃ id srv s, listenRequest.getKey "id" = some id ∧
      exec sessionEvent (callStep (bareServer, openSession) (.dispatch listenRequest)).1
        [.call (.dispatch pingRequest)] = (srv, s) ∧
      mcpServerSessionNotify srv (some s)
          (lit "notifications/tools/list_changed").bytes none =
        (outboxPush srv ((newEnvelope.set "method"
          (.string "notifications/tools/list_changed")).set "params"
            (taggedParams id [] [])), .ok) := by
  have hspares : Admissible sessionEvent Spares
      (callStep (bareServer, openSession) (.dispatch listenRequest)).1
      [.call (.dispatch pingRequest)] := by
    refine ⟨?_, trivial⟩
    rintro ⟨-, s', hgate⟩
    have hmethod := (dispatchGate_eq_route hgate).2.1
    exact absurd hmethod (by decide)
  obtain ⟨id, srv, s, hid, hst, hnotify, -⟩ :=
    session_follows_listen (bareServer, openSession) reaches_listenRequest hspares
  refine ⟨id, srv, s, hid, hst, (hnotify _ none [] [] rfl rfl).1 ?_⟩
  exact (rfl : (listenFilter listenRequest).bind (·.objectGet "toolsListChanged") =
    some (.bool true))

/-- A method that is not valid UTF-8 passes the filter and is refused by the constructor of the
notification: nothing is enqueued. -/
theorem not_enqueued_invalid_method :
    mcpSessionIsSubscribedToNotification
        (callStep (bareServer, openSession) (.dispatch listenRequest)).1.2 [0xFF] none = true ∧
      mcpServerSessionNotify bareServer
        (some (callStep (bareServer, openSession) (.dispatch listenRequest)).1.2) [0xFF] none =
      (bareServer, .noMem) :=
  ⟨by decide, rfl⟩

/-- Handling the notification leaves the subscription as it is. -/
def KeepsSubscription (srv : Server W) (s : Session) (notif : Message) : Prop :=
  (mcpServerNotify srv s notif).2.1.subscription = s.subscription

/-- An active subscription does not survive any `notifications/cancelled`, whatever its params. -/
theorem not_keepsSubscription_of_cancelled (srv : Server W) {s : Session}
    (hactive : s.subscriptionActive = true) {notif : Message} (hcancelled : IsCancelled notif) :
    ¬KeepsSubscription srv s notif := by
  intro hkeeps
  have hoff : (mcpServerNotify srv s notif).2.1.subscriptionActive = s.subscriptionActive :=
    congrArg Subscription.active hkeeps
  rw [mcpServerNotify_cancelled srv s hcancelled, hactive] at hoff
  cases hoff

def cancelOther : Message :=
  ⟨[("jsonrpc", .string "2.0"), ("method", .string "notifications/cancelled"),
    ("params", .object [("requestId", .string "2")])]⟩

theorem not_keepsSubscription_cancelOther :
    ¬KeepsSubscription bareServer
      (callStep (bareServer, openSession) (.dispatch listenRequest)).1.2 cancelOther :=
  not_keepsSubscription_of_cancelled bareServer (by decide) ⟨by decide, by decide⟩

theorem cancelOther_ends_listenRequest :
    listenRequest.getKey "id" = some (.string "1") ∧
      (mcpMessageParams cancelOther).bind (·.objectGet "requestId") =
        some (.string "2") ∧
      (callStep (bareServer, openSession) (.dispatch listenRequest)).1.2.subscriptionActive = true ∧
      (mcpServerNotify bareServer
        (callStep (bareServer, openSession) (.dispatch listenRequest)).1.2
        cancelOther).2.1.subscriptionActive = false := by
  decide

end Mcpkit
