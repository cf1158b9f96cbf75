import Mcpkit.Lib.Machine
import Mcpkit.Server.Frame

/-!
# Conversations on one session

A conversation is any sequence of `mcp_server_dispatch` and `mcp_server_notify`
calls with one session.  The routes leave the initialized flag and the recorded
ids alone, so both are governed by the dispatcher: the flag by the notification
`notifications/initialized`, the ids by the requests that reach a route.
-/

namespace Mcpkit

open Json JsonValue Protocol List Machine JString Binary64

variable {W : Type}

/-- The part of a session that only the dispatcher changes. -/
def SameGate (s s' : Session) : Prop := s'.initialized = s.initialized ∧ s'.ids = s.ids

theorem sameGate_dispatchRoute (srv : Server W) (s : Session) (req : Message) (method : JString) :
    SameGate s (dispatchRoute srv s req method).2.1 :=
  have h := (RouteStep.dispatchRoute srv s req method).untouched
  ⟨h.initialized, h.ids⟩

inductive Call where
  | dispatch (m : Message)
  | notify (m : Message)

def callStep (st : Server W × Session) :
    Call → (Server W × Session) × Except Status (Option Message)
  | .dispatch m =>
    let r := mcpServerDispatch st.1 st.2 m
    ((r.1, r.2.1), r.2.2.map some)
  | .notify m =>
    let r := mcpServerNotify st.1 st.2 m
    ((r.1, r.2.1), if r.2.2 = .ok then .ok none else .error r.2.2)

def Reaches (s : Session) (req : Message) (method : JString) : Prop :=
  mcpMessageKind req = .request ∧ ∃ s', dispatchGate s req = .route method s'

/-- What a dispatch does to the gate: a request that reaches a route has its id recorded, any
other leaves the session as it is. -/
theorem mcpServerDispatch_session (srv : Server W) (s : Session) (req : Message) :
    (∃ method s', mcpMessageKind req = .request ∧ dispatchGate s req = .route method s' ∧
      SameGate s' (mcpServerDispatch srv s req).2.1) ∨
    ((∀ method, ¬Reaches s req method) ∧ (mcpServerDispatch srv s req).2.1 = s) := by
  unfold mcpServerDispatch
  by_cases hkind : mcpMessageKind req = .request
  · rw [if_neg (not_not.mpr hkind)]
    dsimp only
    cases hgate : dispatchGate s req with
    | reject code text =>
      refine .inr ⟨?_, rfl⟩
      rintro method ⟨-, s', hs'⟩
      rw [hgate] at hs'
      cases hs'
    | route method s' => exact .inl ⟨method, s', hkind, rfl, sameGate_dispatchRoute _ s' req method⟩
  · rw [if_pos hkind]
    exact .inr ⟨fun _ h => hkind h.1, rfl⟩

theorem mcpServerDispatch_initialized (srv : Server W) (s : Session) (req : Message) :
    (mcpServerDispatch srv s req).2.1.initialized = s.initialized := by
  obtain ⟨method, s', -, hgate, hsame⟩ | ⟨-, h⟩ := mcpServerDispatch_session srv s req
  · rw [hsame.1]
    obtain ⟨-, -, -, ⟨-, rfl⟩ | ⟨id, -, -, rfl⟩⟩ := dispatchGate_eq_route hgate <;> rfl
  · rw [h]

def IsInitialized (m : Message) : Prop :=
  mcpMessageKind m = .notification ∧ mcpMessageMethod m = some (.lit "notifications/initialized")

variable {st : Server W × Session} {i : Nat}

theorem isInitialized_of_callStep {c : Call} (hbefore : ¬st.2.initialized = true)
    (hafter : (callStep st c).1.2.initialized = true) : ∃ m, c = .notify m ∧ IsInitialized m := by
  cases c with
  | dispatch m =>
    rw [callStep, mcpServerDispatch_initialized] at hafter
    exact absurd hafter hbefore
  | notify m =>
    refine ⟨m, rfl, ?_⟩
    simp only [callStep, mcpServerNotify] at hafter
    split at hafter
    · exact absurd hafter hbefore
    rename_i hkind
    split at hafter
    · exact absurd hafter hbefore
    rename_i method hmethod
    dsimp only at hafter
    split at hafter
    · rename_i heq
      exact ⟨not_not.mp hkind, heq ▸ hmethod⟩
    · split at hafter <;> exact absurd hafter hbefore

/-- Among the calls there is an `initialize` request that was answered with a result. -/
def AnsweredInitialize (st : Server W × Session) (calls : List Call) : Prop :=
  ∃ before m after resp, calls = before ++ .dispatch m :: after ∧
    mcpMessageMethod m = some (.lit "initialize") ∧
    (callStep (exec callStep st before) (.dispatch m)).2 = .ok (some resp) ∧
    (mcpMessageResult resp).isSome = true

def Handshake (st : Server W × Session) (calls : List Call) : Prop :=
  ∃ before m after, calls = before ++ .notify m :: after ∧ IsInitialized m ∧
    AnsweredInitialize st before

def InitializedInOrder (st : Server W × Session) (calls : List Call) : Prop :=
  ∀ before m after, calls = before ++ .notify m :: after → IsInitialized m →
    AnsweredInitialize st before

/-- In a fresh conversation that sends `notifications/initialized` in order, a request without a
`_meta` object other than `initialize` and `server/discover` reaches its route only after the
handshake. -/
theorem handshake_of_reaches (srv : Server W) {calls : List Call}
    (horder : InitializedInOrder (srv, sessionNew) calls) {before after : List Call}
    {req : Message} (hcalls : calls = before ++ .dispatch req :: after) {method : JString}
    (hreach : Reaches (exec callStep (srv, sessionNew) before).2 req method)
    (hinit : method ≠ "initialize") (hdiscover : method ≠ "server/discover")
    (hmeta : mcpMessageMeta req = none) : Handshake (srv, sessionNew) before := by
  obtain ⟨-, s', hgate⟩ := hreach
  obtain ⟨-, -, hopen, -⟩ := dispatchGate_eq_route hgate
  have hflag : (exec callStep (srv, sessionNew) before).2.initialized = true := by
    obtain h | h | h | h := hopen
    · exact h
    · exact absurd h hinit
    · exact absurd h hdiscover
    · exact absurd hmeta h
  -- the flag is off in a fresh session, so some call of the conversation set it
  obtain ⟨earlier, c, later, rfl, hoff, hon⟩ := exists_step_of_exec (S := Server W × Session)
    (P := fun st => st.2.initialized = true) (by simp [sessionNew]) hflag
  obtain ⟨m, rfl, hm⟩ := isInitialized_of_callStep hoff hon
  refine ⟨earlier, m, later, rfl, hm, horder earlier m (later ++ .dispatch req :: after) ?_ hm⟩
  rw [hcalls, append_assoc, cons_append]

def bareServer : Server Unit := mcpServerCreate () "demo" "1.0"

def openSession : Session := { sessionNew with initialized := true }

def initializeRequest : Message :=
  ⟨[("jsonrpc", .string "2.0"), ("id", .string "1"), ("method", .string "initialize"),
    ("params", .object
      [("protocolVersion", .string "2025-06-18"), ("capabilities", .object []),
        ("clientInfo", .object
          [("name", .string "c"), ("version", .string "0")])])]⟩

def initializedNotification : Message :=
  ⟨[("jsonrpc", .string "2.0"), ("method", .string "notifications/initialized")]⟩

theorem answeredInitialize_bareServer :
    AnsweredInitialize (bareServer, sessionNew) [.dispatch initializeRequest] :=
  ⟨[], initializeRequest, [], _, rfl, by decide, rfl, by decide⟩

theorem initializedInOrder_demo :
    InitializedInOrder (bareServer, sessionNew)
      [.dispatch initializeRequest, .notify initializedNotification, .dispatch pingRequest] := by
  intro before m after h _
  rcases before with _ | ⟨a, _ | ⟨b, _ | ⟨c, rest⟩⟩⟩
  · cases h
  · cases h
    exact answeredInitialize_bareServer
  · cases h
  · simp at h

theorem handshake_demo :
    Reaches (exec callStep (bareServer, sessionNew)
        [.dispatch initializeRequest, .notify initializedNotification]).2 pingRequest
        "ping" ∧
      Handshake (bareServer, sessionNew)
        [.dispatch initializeRequest, .notify initializedNotification] :=
  have hreach : Reaches (exec callStep (bareServer, sessionNew)
      [.dispatch initializeRequest, .notify initializedNotification]).2 pingRequest "ping" :=
    ⟨by decide, _, rfl⟩
  ⟨hreach, handshake_of_reaches bareServer initializedInOrder_demo rfl hreach (by decide)
    (by decide) (by decide)⟩

/-- `notifications/initialized` alone opens the gate: `ping` reaches its route in a session that
never saw `initialize`. -/
theorem reaches_without_initialize :
    Reaches (exec callStep (bareServer, sessionNew)
        [.notify initializedNotification]).2 pingRequest "ping" ∧
      mcpMessageMeta pingRequest = none ∧
      ¬Handshake (bareServer, sessionNew) [.notify initializedNotification] := by
  refine ⟨⟨by decide, _, rfl⟩, by decide, ?_⟩
  rintro ⟨before, m, after, h, -, earlier, m', later, resp, hbefore, -⟩
  rw [hbefore] at h
  cases earlier with
  | nil => cases h
  | cons c cs => simp at h

/-- Two messages whose ids are equal strings or equal numbers. -/
def SameId (r₁ r₂ : Message) : Prop :=
  (∃ s, r₁.getKey "id" = some (.string s) ∧ r₂.getKey "id" = some (.string s)) ∨
    ∃ d e, r₁.getKey "id" = some (.number d) ∧ r₂.getKey "id" = some (.number e) ∧
      d.val.eq e.val = true

theorem requestId_eq (req : Message) :
    requestId req =
      match req.getKey "id" with
      | some (.string s) => some (.string s.bytes)
      | some (.number d) => some (.number d.val)
      | _ => none := by
  simp only [requestId, mcpMessageIdType, mcpMessageIdString, mcpMessageIdNumber]
  cases req.getKey "id" with
  | none => rfl
  | some v => cases v <;> rfl

variable {req r₁ r₂ : Message} {e : IdEntry} {s : Session} {n : Nat}

theorem requestId_eq_some {id : IdEntry} (h : requestId req = some id) :
    (∃ s, req.getKey "id" = some (.string s) ∧ id = .string s.bytes) ∨
      ∃ d, req.getKey "id" = some (.number d) ∧ id = .number d.val := by
  rw [requestId_eq] at h
  split at h
  · cases h
    exact .inl ⟨_, by assumption, rfl⟩
  · cases h
    exact .inr ⟨_, by assumption, rfl⟩
  · cases h

theorem sameId_iff :
    SameId r₁ r₂ ↔ ∃ a b, requestId r₁ = some a ∧ requestId r₂ = some b ∧ idEqual a b = true := by
  constructor
  · rintro (⟨s, h₁, h₂⟩ | ⟨d, e, h₁, h₂, heq⟩)
    · exact ⟨.string s.bytes, .string s.bytes, by rw [requestId_eq, h₁], by rw [requestId_eq, h₂],
        by simp [idEqual]⟩
    · exact ⟨.number d.val, .number e.val, by rw [requestId_eq, h₁], by rw [requestId_eq, h₂], heq⟩
  rintro ⟨a, b, h₁, h₂, heq⟩
  obtain ⟨s, hs, rfl⟩ | ⟨d, hd, rfl⟩ := requestId_eq_some h₁
  · obtain ⟨t, ht, rfl⟩ | ⟨e, -, rfl⟩ := requestId_eq_some h₂
    · obtain rfl : s = t := bytes_inj.mp (by simpa [idEqual] using heq)
      exact .inl ⟨s, hs, ht⟩
    · cases heq
  · obtain ⟨t, -, rfl⟩ | ⟨e, he, rfl⟩ := requestId_eq_some h₂
    · cases heq
    · exact .inr ⟨d, e, hd, he, heq⟩

theorem callStep_ids (st : Server W × Session) (c : Call) :
    (callStep st c).1.2.ids = st.2.ids ∨
      ∃ r id method, c = .dispatch r ∧ Reaches st.2 r method ∧ requestId r = some id ∧
        (callStep st c).1.2.ids = st.2.ids ++ [id] := by
  cases c with
  | dispatch r =>
    obtain ⟨method, s', hkind, hgate, hsame⟩ | ⟨-, h⟩ := mcpServerDispatch_session st.1 st.2 r
    · obtain ⟨-, -, -, ⟨-, rfl⟩ | ⟨id, hid, -, rfl⟩⟩ := dispatchGate_eq_route hgate
      · exact .inl hsame.2
      · exact .inr ⟨r, id, method, rfl, ⟨hkind, _, hgate⟩, hid, hsame.2⟩
    · exact .inl (congrArg Session.ids h)
  | notify m =>
    left
    simp only [callStep, mcpServerNotify]
    split
    · rfl
    split
    · rfl
    dsimp only
    split
    · rfl
    · split <;> rfl

theorem mem_ids_exec (h : e ∈ st.2.ids) (calls : List Call) :
    e ∈ (exec callStep st calls).2.ids := by
  refine exec_invariant (S := Server W × Session) (I := fun st => e ∈ st.2.ids)
    (fun st c he => ?_) h calls
  obtain hids | ⟨_, _, _, -, -, -, hids⟩ := callStep_ids st c
  · rwa [hids]
  · rw [hids]
    exact mem_append_left _ he

theorem exists_reaches_of_mem_ids (hst : e ∉ st.2.ids) {calls : List Call}
    (h : e ∈ (exec callStep st calls).2.ids) :
    ∃ before r after method, calls = before ++ .dispatch r :: after ∧
      Reaches (exec callStep st before).2 r method ∧ requestId r = some e := by
  obtain ⟨before, c, after, rfl, hbefore, hc⟩ := exists_step_of_exec
    (S := Server W × Session) (P := fun st => e ∈ st.2.ids) hst h
  obtain hids | ⟨r, id, method, rfl, hreach, hid, hids⟩ := callStep_ids (exec callStep st before) c
  · rw [hids] at hc
    exact absurd hc hbefore
  rw [hids, mem_append, mem_singleton] at hc
  obtain hc | rfl := hc
  · exact absurd hc hbefore
  · exact ⟨before, r, after, method, rfl, hreach, hid⟩

/-- The bound under which every index of the id set fits an `int`. -/
def FewIds (st : Server W × Session) (_ : Call) : Prop := st.2.ids.length ≤ 2147483648

instance (st : Server W × Session) (c : Call) : Decidable (FewIds st c) :=
  inferInstanceAs (Decidable (_ ≤ _))

theorem not_sameId_of_reaches {between : List Call} {m₁ m₂ : JString} (h₁ : Reaches st.2 r₁ m₁)
    (hfew : (exec callStep st (.dispatch r₁ :: between)).2.ids.length ≤ 2147483648)
    (h₂ : Reaches (exec callStep st (.dispatch r₁ :: between)).2 r₂ m₂) : ¬SameId r₁ r₂ := by
  intro hsame
  obtain ⟨a, b, ha, hb, heq⟩ := sameId_iff.mp hsame
  -- the first request recorded its id
  have hrecorded : a ∈ (callStep st (.dispatch r₁)).1.2.ids := by
    obtain ⟨hkind, s', hgate⟩ := h₁
    obtain ⟨m, s'', -, hgate', hkeep⟩ | ⟨hnone, -⟩ := mcpServerDispatch_session st.1 st.2 r₁
    · obtain ⟨-, -, -, ⟨hid, -⟩ | ⟨id, hid, -, rfl⟩⟩ := dispatchGate_eq_route hgate'
      · rw [hid] at ha
        cases ha
      rw [hid] at ha
      cases ha
      change a ∈ (mcpServerDispatch st.1 st.2 r₁).2.1.ids
      rw [hkeep.2]
      exact mem_append_right _ (mem_singleton_self a)
    · exact absurd ⟨hkind, s', hgate⟩ (hnone m₁)
  have hmem := mem_ids_exec hrecorded between
  obtain ⟨-, s', hgate⟩ := h₂
  obtain ⟨-, -, -, ⟨hid, -⟩ | ⟨id, hid, hnew, -⟩⟩ := dispatchGate_eq_route hgate
  · rw [hid] at hb
    cases hb
  rw [hid] at hb
  cases hb
  have hfound := contains_of_exists_idEqual hfew ⟨a, hmem, heq⟩
  rw [hfound] at hnew
  cases hnew

theorem exists_of_duplicate
    (h : dispatchGate s req = .reject rpcInvalidRequest "duplicate request id") :
    ∃ id, requestId req = some id ∧ ∃ e ∈ s.ids, idEqual e id = true := by
  unfold dispatchGate at h
  split at h
  · simp at h
  · simp at h
  split at h
  · simp at h
  split at h
  · cases h
  rename_i id hid
  split at h
  · rename_i hcontains
    exact ⟨id, hid, exists_idEqual_of_contains hcontains⟩
  · split at h <;> simp at h

/-- While the id set stays within `2 ^ 31` entries, no two requests with the same id reach a route,
a request is refused as a duplicate only for an id that was there at the start or that an earlier
request brought to a route, and a request that does not reach a route leaves the session as it was.
-/
theorem ids_of_conversation (st : Server W × Session) {calls : List Call}
    (hfew : Admissible callStep FewIds st calls) :
    (∀ before r₁ between r₂ after m₁ m₂,
      calls = before ++ .dispatch r₁ :: between ++ .dispatch r₂ :: after →
      Reaches (exec callStep st before).2 r₁ m₁ →
      Reaches (exec callStep st (before ++ .dispatch r₁ :: between)).2 r₂ m₂ →
      ¬SameId r₁ r₂) ∧
    (∀ before req after, calls = before ++ .dispatch req :: after →
      dispatchGate (exec callStep st before).2 req =
        .reject rpcInvalidRequest "duplicate request id" →
      (∃ id, requestId req = some id ∧ ∃ e ∈ st.2.ids, idEqual e id = true) ∨
      ∃ earlier r later method, before = earlier ++ .dispatch r :: later ∧
        Reaches (exec callStep st earlier).2 r method ∧ SameId r req) ∧
    (∀ before req after, calls = before ++ .dispatch req :: after →
      (∀ method, ¬Reaches (exec callStep st before).2 req method) →
      (exec callStep st (before ++ [.dispatch req])).2 = (exec callStep st before).2) := by
  refine ⟨?_, ?_, ?_⟩
  · rintro before r₁ between r₂ after m₁ m₂ rfl h₁ h₂
    rw [admissible_append] at hfew
    rw [exec_append] at h₂ hfew
    exact not_sameId_of_reaches h₁ hfew.2.1 h₂
  · rintro before req after - hgate
    obtain ⟨id, hid, e, he, heq⟩ := exists_of_duplicate hgate
    by_cases hst : e ∈ st.2.ids
    · exact .inl ⟨id, hid, e, hst, heq⟩
    · obtain ⟨earlier, r, later, method, hbefore, hreach, hr⟩ := exists_reaches_of_mem_ids hst he
      exact .inr ⟨earlier, r, later, method, hbefore, hreach, sameId_iff.mpr ⟨e, id, hr, hid, heq⟩⟩
  · rintro before req after - hnone
    rw [exec_append]
    generalize exec callStep st before = st' at hnone
    obtain ⟨method, s', hkind, hgate, -⟩ | ⟨-, h⟩ := mcpServerDispatch_session st'.1 st'.2 req
    · exact absurd ⟨hkind, s', hgate⟩ (hnone method)
    · exact h

theorem not_sameId_demo : ¬SameId initializeRequest pingRequest :=
  have hfew : Admissible callStep FewIds (bareServer, sessionNew)
      [.dispatch initializeRequest, .notify initializedNotification, .dispatch pingRequest] :=
    ⟨by decide, by decide, by decide, trivial⟩
  (ids_of_conversation (bareServer, sessionNew) hfew).1
    [] initializeRequest [.notify initializedNotification] pingRequest [] _ _ rfl
    ⟨by decide, _, rfl⟩ ⟨by decide, _, rfl⟩

def fineId (i : Nat) : FiniteDouble :=
  ⟨{ one with fraction := ⟨i % 4503599627370496, Nat.mod_lt i (by decide)⟩ }, rfl⟩

/-- A `ping` with a `_meta` object, which passes the gate of any session. -/
def metaPing (i : Nat) : Message :=
  ⟨[("jsonrpc", .string "2.0"), ("id", .number (fineId i)),
    ("method", .string "ping"), ("_meta", .object [])]⟩

theorem idEqual_fineId {j : Nat} (hi : i < 4503599627370496) (hj : j < 4503599627370496) :
    idEqual (.number (fineId i).val) (.number (fineId j).val) = true ↔ i = j := by
  rw [idEqual, eq_iff_rank (fineId i).finite (fineId j).finite]
  simp only [rank, fineId, Nat.mod_eq_of_lt hi, Nat.mod_eq_of_lt hj]
  simp [one]

theorem dispatchGate_metaPing (h : mcpIdsetContains s.ids (.number (fineId i).val) = false) :
    dispatchGate s (metaPing i) =
      .route "ping" { s with ids := s.ids ++ [.number (fineId i).val] } := by
  have hvalid : mcpMessageValidate (metaPing i) = .ok () := rfl
  have hmethod : mcpMessageMethod (metaPing i) = some (.lit "ping") := rfl
  have hmeta : mcpMessageMeta (metaPing i) = some (.object []) := rfl
  have hid : requestId (metaPing i) = some (.number (fineId i).val) := rfl
  simp only [dispatchGate, hvalid, hmethod, hmeta, hid, h, mcpIdsetAdd_of_not_contains h]
  simp

theorem callStep_metaPing (h : mcpIdsetContains st.2.ids (.number (fineId i).val) = false) :
    (callStep st (.dispatch (metaPing i))).1.2.ids = st.2.ids ++ [.number (fineId i).val] := by
  obtain ⟨method, s', -, hgate, hkeep⟩ | ⟨hnone, -⟩ :=
    mcpServerDispatch_session st.1 st.2 (metaPing i)
  · rw [dispatchGate_metaPing h] at hgate
    cases hgate
    exact hkeep.2
  · exact absurd ⟨rfl, _, dispatchGate_metaPing h⟩ (hnone "ping")

def finePings (n : Nat) : List Call := (List.range n).map fun i => .dispatch (metaPing i)

def fineEntries (n : Nat) : List IdEntry := (List.range n).map fun i => .number (fineId i).val

theorem contains_fineEntries (hn : n < 4503599627370496) :
    mcpIdsetContains (fineEntries n) (.number (fineId n).val) = false := by
  rw [← Bool.not_eq_true]
  intro h
  obtain ⟨e, he, heq⟩ := exists_idEqual_of_contains h
  obtain ⟨i, hi, rfl⟩ := mem_map.mp he
  rw [mem_range] at hi
  exact absurd ((idEqual_fineId (by omega) hn).mp heq) (by omega)

theorem ids_finePings (srv : Server W) (hn : n < 4503599627370496) :
    (exec callStep (srv, sessionNew) (finePings n)).2.ids = fineEntries n := by
  induction n with
  | zero => rfl
  | succ n ih =>
    have ih := ih (by omega)
    rw [finePings, range_succ, map_append, exec_append, ← finePings]
    rw [map_singleton, exec_cons, exec_nil, callStep_metaPing, ih]
    · rw [fineEntries, fineEntries, range_succ, map_append]
      rfl
    · rw [ih]
      exact contains_fineEntries (by omega)

theorem contains_fineEntries_lost :
    mcpIdsetContains (fineEntries 2147483649) (.number (fineId 2147483648).val) = false := by
  have hfind : (fineEntries 2147483649).findIdx?
      (idEqual · (.number (fineId 2147483648).val)) = some 2147483648 := by
    rw [findIdx?_eq_some_iff_getElem]
    refine ⟨by simp [fineEntries], ?_, ?_⟩
    · simp only [fineEntries, getElem_map, getElem_range]
      exact (idEqual_fineId (by omega) (by omega)).mpr rfl
    intro j hj
    simp only [fineEntries, getElem_map, getElem_range]
    rw [idEqual_fineId (by omega) (by omega)]
    omega
  have hindex : idFind (fineEntries 2147483649) (.number (fineId 2147483648).val) =
      -2147483648 := by
    rw [idFind, hfind]
    decide
  rw [mcpIdsetContains, hindex]
  decide

/-- After `2 ^ 31` requests with other ids, a request reaches its route twice with the same id. -/
theorem sameId_reaches_twice :
    Reaches (exec callStep (bareServer, sessionNew) (finePings 2147483648)).2
        (metaPing 2147483648) "ping" ∧
      Reaches (exec callStep (bareServer, sessionNew)
        (finePings 2147483648 ++ [.dispatch (metaPing 2147483648)])).2
        (metaPing 2147483648) "ping" ∧
      SameId (metaPing 2147483648) (metaPing 2147483648) := by
  have hcalls : finePings 2147483648 ++ [.dispatch (metaPing 2147483648)] =
      finePings 2147483649 := by
    simp only [finePings, range_succ (n := 2147483648), map_append]
    rfl
  refine ⟨⟨rfl, _, dispatchGate_metaPing ?_⟩, ⟨rfl, _, dispatchGate_metaPing ?_⟩, ?_⟩
  · rw [ids_finePings bareServer (by omega)]
    exact contains_fineEntries (by omega)
  · rw [hcalls, ids_finePings bareServer (by omega)]
    exact contains_fineEntries_lost
  · exact .inr ⟨fineId 2147483648, fineId 2147483648, rfl, rfl,
      (idEqual_fineId (by omega) (by omega)).mpr rfl⟩

end Mcpkit
